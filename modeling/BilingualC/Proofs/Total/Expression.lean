import Mathlib
import BilingualC.Checker.Expression
import BilingualC.Proofs.Total.Conversion

/-!
# Rules for expressions that come to an end

Every rule for expressions, given operands that stand under the root, gives an expression without an
error or a broken node with one error. The expression follows its typing rule if the operands do.
-/

namespace BilingualC

open Guarded Rose

variable {ok : Fault → Prop}

namespace Checker

variable {c c' c₁ : Checker} {rest ks ops : List Rose} {x y l r : Rose} {n : Handle} {type : TypeId}
    {loc : Location} {names : Session.NameEnds}

/-! ## Nodes that follow their rules -/

/-- An expression follows the typing rules if the operands do, and lies at a location, above the
operands. -/
structure Typed (c : Checker) (names : Session.NameEnds) (loc : Location) (ops : List Rose)
    (s : Session) (x : Rose) : Prop where
  ruled : (∀ r ∈ ops, c.session.Ruled names c.stringType r) → s.Ruled names c.stringType x
  spreads : x.Spreads loc ops

theorem Onward.stringType (onward : c.Onward c') : c'.stringType = c.stringType := by
  rw [onward.same]

/-- A rule goes on with other operands, which follow the typing rules and are nested if those that
it was given do. -/
theorem Gives.typed_after (gives : c₁.Gives ok rest (c₁.Typed names loc ks) n c')
    (onward : c.Onward c₁) (errors : c₁.errors = c.errors)
    (keeps : c.session.tree.Keeps c₁.session.tree rest)
    (ruled : (∀ r ∈ ops, c.session.Ruled names c.stringType r) →
      ∀ k ∈ ks, c₁.session.Ruled names c.stringType k)
    (spreads : ∀ x : Rose, x.Spreads loc ks → x.Spreads loc ops) :
    c.Gives ok rest (c.Typed names loc ops) n c' := by
  refine (gives.after onward errors keeps).mono fun s x typed =>
    ⟨fun before => ?_, spreads x typed.spreads⟩
  have typed := typed.ruled
  rw [onward.stringType] at typed
  exact typed (ruled before)

theorem Ends.typed_after {m : Check Handle}
    (ends : Ends ok m c₁ (c₁.Gives ok rest (c₁.Typed names loc ks))) (onward : c.Onward c₁)
    (errors : c₁.errors = c.errors) (keeps : c.session.tree.Keeps c₁.session.tree rest)
    (ruled : (∀ r ∈ ops, c.session.Ruled names c.stringType r) →
      ∀ k ∈ ks, c₁.session.Ruled names c.stringType k)
    (spreads : ∀ x : Rose, x.Spreads loc ks → x.Spreads loc ops) :
    Ends ok m c₁ (c.Gives ok rest (c.Typed names loc ops)) :=
  ends.mono fun _ _ gives => gives.typed_after onward errors keeps ruled spreads

/-- What is known of an expression that is built. -/
structure IsBuilt (kind : Kind) (type : TypeId) (category : Int) (args : List Int) (ks : List Rose)
    (x : Rose) : Prop where
  kind : x.kind = kind
  args : x.args = type :: category :: args
  kids : x.children = ks

section IsBuilt

variable {kind : Kind} {category : Int} {args : List Int}
    (built : IsBuilt kind type category args ks x)

include built

theorem IsBuilt.exprType : x.exprType = type := by
  rw [Rose.exprType, Rose.arg, built.args]
  rfl

theorem IsBuilt.place : x.isPlace = (category == Category.place.word) := by
  rw [Rose.isPlace, Rose.arg, built.args]
  rfl

theorem IsBuilt.arg (k : Nat) : x.arg (k + 2) = args.getD k 0 := by
  rw [Rose.arg, built.args]
  rfl

end IsBuilt

theorem IsBuilt.location {kind : Kind} {category : Int} {args : List Int}
    (built : IsBuilt kind type category (args ++ [loc.start, loc.stop]) ks x) :
    x.location = loc := by
  have located : x.args = (type :: category :: args) ++ [loc.start, loc.stop] := built.args
  exact location_of_args located

/-- An expression is built above its operands, and it is the one that was asked for. -/
theorem build_built (names : Session.NameEnds) (ks : List Rose) (fine : c.Fine ok)
    (carries : c.session.tree.Carries (ks ++ rest)) {kind : Kind}
    (isExpr : kind.isExpression = true) (named : c.session.types.Named type) (category : Int)
    (near : Loose ok ∨ loc.Near) (args : List Int) (word : kind = .literal → args ≠ [])
    (operands : ∀ k ∈ ks, c.session.types.Operand ok k)
    (rule : (∀ k ∈ ks, c.session.Ruled names c.stringType k) → ∀ x, IsBuilt kind type category
      (args ++ [loc.start, loc.stop]) ks x → c.session.Rule names c.stringType x) :
    Ends ok (build kind loc (type :: category :: args) (ks.map fun k =>
      c.session.tree.handle k.index)) c fun n c' => c.Gives ok rest (fun s x =>
        c.Typed names loc ks s x ∧ IsBuilt kind type category (args ++ [loc.start, loc.stop]) ks x)
        n c' ∧ n ≠ .broken := by
  have live : (ks.map fun k => c.session.tree.handle k.index).filter (· ≠ .broken) =
      ks.map fun k => c.session.tree.handle k.index := by
    refine List.filter_eq_self.mpr fun m mem => ?_
    obtain ⟨k, inside, rfl⟩ := List.mem_map.mp mem
    simpa using carries.ne_broken (List.mem_append_left _ inside)
  obtain ⟨t, i, run, done, keeps⟩ := build_ends carries kind loc (type :: category :: args) live
  have same : Kind.ofNumber kind.number = kind := by cases kind <;> first | rfl | cases isExpr
  have located : (Rose.node i kind.number
    (type :: category :: args ++ [loc.start, loc.stop]) ks).location = loc :=
    location_of_args rfl
  refine .run run ⟨⟨fine.withTree t, onward_withTree c t, keeps,
    .inr ⟨rfl, _, rfl, done, ?_, ⟨fun before => ?_, ?_⟩, same, rfl, rfl⟩⟩,
    done.ne_broken List.mem_cons_self⟩
  · refine TypeTable.operand_of_node ⟨?_, by simp, fun literal => ?_, named, ?_⟩ operands
    · exact (congrArg Kind.isExpression same).trans isExpr
    · have := List.length_pos_iff.mpr (word (same.symm.trans literal))
      simp
      omega
    · rw [located]
      exact near
  · exact Session.ruled_of_node (rule before _ ⟨same, rfl, rfl⟩) before
  · exact spreads_of_children located (List.forall₂_same.mpr fun k _ => inPlaceOf_self k)

/-- An expression is built above its operands. -/
theorem build_gives (ks : List Rose) (fine : c.Fine ok)
    (carries : c.session.tree.Carries (ks ++ rest)) {kind : Kind}
    (isExpr : kind.isExpression = true) (named : c.session.types.Named type) (category : Int)
    (near : Loose ok ∨ loc.Near) (args : List Int) (word : kind = .literal → args ≠ [])
    (operands : ∀ k ∈ ks, c.session.types.Operand ok k)
    (rule : (∀ k ∈ ks, c.session.Ruled names c.stringType k) → ∀ x, IsBuilt kind type category
      (args ++ [loc.start, loc.stop]) ks x → c.session.Rule names c.stringType x) :
    Ends ok (build kind loc (type :: category :: args) (ks.map fun k =>
      c.session.tree.handle k.index)) c (c.Gives ok rest (c.Typed names loc ks)) := by
  have built :=
    build_built names ks fine carries isExpr named category near args word operands rule
  exact built.mono fun _ _ gives => gives.1.mono fun _ _ => And.left

theorem buildExpr_gives (ks : List Rose) (fine : c.Fine ok)
    (carries : c.session.tree.Carries (ks ++ rest)) {kind : Kind}
    (isExpr : kind.isExpression = true) (named : c.session.types.Named type) (category : Category)
    (near : Loose ok ∨ loc.Near) (args : List Int) (word : kind = .literal → args ≠ [])
    (operands : ∀ k ∈ ks, c.session.types.Operand ok k)
    (rule : (∀ k ∈ ks, c.session.Ruled names c.stringType k) → ∀ x, IsBuilt kind type category.word
      (args ++ [loc.start, loc.stop]) ks x → c.session.Rule names c.stringType x) :
    Ends ok (buildExpr kind type category loc args (ks.map fun k => c.session.tree.handle k.index))
    c (c.Gives ok rest (c.Typed names loc ks)) :=
  build_gives ks fine carries isExpr named category.word near args word operands rule

/-! ## Names and constants -/

theorem lookup_run (spelling : Int) (c : Checker) : lookup spelling c =
    .ok ((c.session.lookup spelling, c.session.identifier (c.session.lookup spelling)), c) :=
  rfl

theorem identifier_ends (fine : c.Fine ok) (carries : c.session.tree.Carries rest)
    (near : Loose ok ∨ loc.Near) (spelling : Int) :
    Ends ok (identifier spelling loc) c (c.Gives ok rest (c.Typed names loc [])) := by
  have shows := fine.regular.lookup spelling
  have named := fine.regular.named (c.session.lookup spelling)
  have undeclared :
      Ends ok (do refuse loc (.named .undeclared ((← currentSession).spellingText spelling))) c
      (c.Gives ok rest (c.Typed names loc [])) :=
    .step (currentSession_run c) (refuse_ends [] fine carries near _)
  rw [identifier]
  refine .step (lookup_run spelling c) ?_
  simp only
  split
  · exact undeclared
  next declared =>
    have inside : 0 < c.session.lookup spelling ∧
      c.session.lookup spelling < c.session.identifiers.size := by
      obtain ⟨low, high, -⟩ := shows
      simp only [beq_iff_eq] at declared
      omega
    have good {category : Category} (isKind :
        (category = .place ∧ (c.session.identifier (c.session.lookup spelling)).kind = .variable) ∨
        (category = .value ∧ (c.session.identifier (c.session.lookup spelling)).kind = .function)) :
        Ends ok (buildExpr .identifier (c.session.identifier (c.session.lookup spelling)).type
        category loc [c.session.lookup spelling] []) c (c.Gives ok rest (c.Typed names loc [])) :=
        by
      refine buildExpr_gives [] fine carries rfl named category near _ nofun nofun fun _ x built =>
        ?_
      have number : x.arg 2 = c.session.lookup spelling := built.arg 0
      unfold Session.Rule
      rw [built.kind, built.kids]
      refine ⟨by rwa [number], by rw [number, built.exprType], ?_⟩
      rw [number, built.place]
      rcases isKind with ⟨rfl, kind⟩ | ⟨rfl, kind⟩
      · exact .inl ⟨rfl, kind⟩
      · exact .inr ⟨rfl, kind⟩
    split
    next => exact refuse_ends [] fine carries near _
    next => exact undeclared
    next function => exact good (.inr ⟨rfl, function⟩)
    next notBuiltin notType notFunction =>
      exact good (.inl ⟨rfl, fine.regular.kind_of_shows shows notBuiltin notType notFunction⟩)

/-- A function that is not called is no value. -/
theorem value_ends (fine : c.Fine ok) (carries : c.session.tree.Carries (x :: rest))
    (operand : c.session.types.Operand ok x) : Ends ok (value (c.session.tree.handle x.index)) c
    (c.Gives ok rest (c.Typed names x.location [x])) := by
  have has := carries.has List.mem_cons_self
  rw [value]
  refine .step (isBroken_run _ c) ?_
  rw [carries.isBroken List.mem_cons_self]
  refine .step (types_run c) (.step (typeOf_run has) ?_)
  split
  next =>
    refine .pure ⟨fine, .refl c, .refl _ _, .inr ⟨rfl, x, rfl, carries, operand,
      fun before => before x List.mem_cons_self, spreads_self x⟩⟩
  next => exact .step (locationOf_run has) (refuse_ends [x] fine carries operand.node.near _)

theorem buildConstant_ends (fine : c.Fine ok)
    (carries : c.session.tree.Carries rest) (named : c.session.types.Named type)
    (arithmetic : TypeId.isArithmetic type = true) (near : Loose ok ∨ loc.Near) (word : Int) :
    Ends ok (buildConstant type word loc) c (c.Gives ok rest (c.Typed names loc [])) := by
  refine buildExpr_gives [] fine carries rfl named .value near _ (fun _ =>
    by simp) nofun fun _ x built => ?_
  unfold Session.Rule
  rw [built.kind, built.kids]
  exact ⟨by rwa [built.exprType], built.place⟩

theorem Fine.scalar (fine : c.Fine ok) {type : Int} (low : TypeId.void ≤ type)
    (high : type ≤ TypeId.undefined) : c.session.types.Named type :=
  TypeTable.named_scalar fine.regular.types low high

theorem constant_ends (fine : c.Fine ok) (carries : c.session.tree.Carries rest)
    (tok : Token) (near : Loose ok ∨ tok.loc.Near) :
    Ends ok (constant tok) c (c.Gives ok rest (c.Typed names tok.loc [])) := by
  rw [constant]
  split
  · exact buildConstant_ends fine carries (fine.scalar (by decide) (by decide)) rfl near _
  · exact buildConstant_ends fine carries (fine.scalar (by decide) (by decide)) rfl near _
  · refine .step (a := c) rfl (buildExpr_gives [] fine carries rfl fine.string.named
      .value near _ nofun nofun fun _ x built => ?_)
    unfold Session.Rule
    rw [built.kind, built.kids]
    exact ⟨built.exprType, built.place⟩
  · exact buildConstant_ends fine carries (fine.scalar (by decide) (by decide)) rfl near _

/-! ## Selections from arrays -/

theorem subscript_ends {base index : Rose} (fine : c.Fine ok)
    (carries : c.session.tree.Carries (base :: index :: rest))
    (first : c.session.types.Operand ok base) (second : c.session.types.Operand ok index)
    {opening close : Location} (near : Loose ok ∨ (opening.Near ∧ close.Near)) : Ends ok (subscript
      (c.session.tree.handle base.index) (c.session.tree.handle index.index) opening close) c
    (c.Gives ok rest (c.Typed names (Location.span base.location close) [base, index])) := by
  have hasBase := carries.has (r := base) (by simp)
  have hasIndex := carries.has (r := index) (by simp)
  rw [subscript]
  refine .step (anyBroken_run [base, index] (by simp [hasBase, hasIndex]))
    (.step (typeOf_run hasBase) (.step (types_run c) ?_))
  split
  next => exact refuse_ends [base, index] fine carries (near.imp_right And.left) _
  next isArray =>
    refine .step (typeOf_run hasIndex) ?_
    split
    next =>
      exact .step (locationOf_run hasIndex)
        (refuse_ends [base, index] fine carries second.node.near _)
    next integer =>
      obtain ⟨e, read, named, -⟩ := first.node.type.element
      refine .step (locationOf_run hasBase) (.step (types_run c) (.step (lift_run read) ?_))
      refine buildExpr_gives [base, index] fine carries rfl named .place ?_ _ nofun
        (by simp [first, second]) fun _ x built => ?_
      · exact (or_and first.node.near near).imp_right fun both => both.1.span both.2.2
      · unfold Session.Rule
        rw [built.kind, built.kids]
        exact ⟨by simpa using isArray, by rw [built.exprType]; exact read, by simpa using integer,
          built.place⟩

/-! ## Operands one after the other -/

/-- A rule ends with a report. -/
def Fails (ok : Fault → Prop) (c : Checker) (rest : List Rose) (c' : Checker) : Prop :=
  c.Gives ok rest (fun _ _ => False) .broken c'

theorem report_fails (junk : List Rose) (fine : c.Fine ok)
    (carries : c.session.tree.Carries (junk ++ rest)) (near : Loose ok ∨ loc.Near)
    (d : Diagnostic) : Ends ok (report loc d) c fun _ c' => c.Fails ok rest c' :=
  (report_ends fine near d).mono fun _ c' ⟨j, same, adds⟩ => by
    subst same
    exact ⟨fine.withJournal adds, onward_withJournal adds, fun _ _ => rfl,
      .inl ⟨rfl, (errors_withJournal adds).trans rfl, junk, carries⟩⟩

theorem Fails.gives {good : Session → Rose → Prop} (fails : c.Fails ok rest c') :
    c.Gives ok rest good .broken c' :=
  fails.mono fun _ _ => False.elim

/-- A rule that fails may leave more trees behind. -/
theorem Fails.drop (fails : c.Fails ok (x :: rest) c') : c.Fails ok rest c' := by
  refine ⟨fails.fine, fails.onward, fun r mem => fails.keeps r (List.mem_cons_of_mem x mem), ?_⟩
  obtain ⟨broken, errors, junk, carries⟩ | ⟨_, _, _, _, _, impossible⟩ := fails.outcome
  · exact .inl ⟨broken, errors, junk ++ [x], by simpa using carries⟩
  · exact impossible.elim

theorem Fails.after (fails : c₁.Fails ok rest c')
    (onward : c.Onward c₁) (errors : c₁.errors = c.errors)
    (keeps : c.session.tree.Keeps c₁.session.tree rest) : c.Fails ok rest c' :=
  Gives.after onward errors keeps fails

/-- What became of operands that were converted one after the other. -/
structure Reworked (ok : Fault → Prop) (c : Checker) (rest xs : List Rose) (ns : List Handle)
    (c' : Checker) (ys : List Rose) : Prop where
  same : ∃ t, c' = c.withTree t
  handles : ns = ys.map fun y => c'.session.tree.handle y.index
  carries : c'.session.tree.Carries (ys ++ rest)
  kept : ∀ i, c'.session.tree.generation i = c.session.tree.generation i
  operands : ∀ y ∈ ys, c.session.types.Operand ok y
  ruled : ∀ names str, (∀ x ∈ xs, c.session.Ruled names str x) →
    ∀ y ∈ ys, c.session.Ruled names str y
  places : List.Forall₂ InPlaceOf xs ys

/-- Operands were converted to what was wanted, or one of them was reported. -/
def Reworks {β : Type} (ok : Fault → Prop) (c : Checker)
    (rest xs : List Rose) (suits : β → Rose → Prop) (wanted : List β)
    (out : Option (List Handle)) (c' : Checker) : Prop :=
  match out with
  | none => c.Fails ok rest c'
  | some ns => ∃ ys, c.Reworked ok rest xs ns c' ys ∧ List.Forall₂ suits wanted ys

section Reworks

variable {β : Type} {suits : β → Rose → Prop} {w : β} {wanted : List β} {xs : List Rose} {t : Arena}
    {out : Option (List Handle)}

theorem reworks_nil (carries : c.session.tree.Carries rest) :
    c.Reworks ok rest [] suits [] (some []) c :=
  ⟨[], ⟨⟨c.session.tree, rfl⟩, rfl, carries, fun _ => rfl, nofun, fun _ _ => nofun, .nil⟩, .nil⟩

/-- One operand is converted, then the others are. -/
theorem Reworks.cons (swaps : Swaps c.session.tree t (xs ++ rest) y n)
    (operand : c.session.types.Operand ok y)
    (ruled : ∀ names str, c.session.Ruled names str x → c.session.Ruled names str y)
    (place : x.InPlaceOf y) (good : suits w y)
    (others : (c.withTree t).Reworks ok (y :: rest) xs suits wanted out c') :
    c.Reworks ok rest (x :: xs) suits (w :: wanted) (out.map (n :: ·)) c' := by
  have keeps : c.session.tree.Keeps t rest := fun r _ => swaps.same r.index
  cases out with
  | none => exact (Fails.drop others).after (onward_withTree c t) rfl keeps
  | some ns =>
    obtain ⟨ys, done, all⟩ := others
    obtain ⟨u, rfl⟩ := done.same
    have same : u.handle y.index = t.handle y.index := Arena.handle_kept done.kept y.index
    refine ⟨y :: ys, ⟨⟨u, rfl⟩, ?_, done.carries.perm List.perm_middle, fun i =>
      (done.kept i).trans (swaps.kept i), List.forall_mem_cons.mpr ⟨operand, done.operands⟩,
      fun names str before => ?_, .cons place done.places⟩, .cons good all⟩
    · rw [List.map_cons, swaps.handle, ← same, done.handles]
      rfl
    · obtain ⟨first, more⟩ := List.forall_mem_cons.mp before
      exact List.forall_mem_cons.mpr ⟨ruled names str first, done.ruled names str more⟩

end Reworks

theorem suits_of_matches {want : TypeId} (suits : Session.Matches want x) :
    TypeId.Suits want x.exprType := by
  rw [Session.Matches] at suits
  split at suits
  · exact .inr (.inr suits.symm)
  · exact suits

/-- Arguments are converted one after the other. The first one that does not fit what is wanted is
reported; if all of them fit, each becomes one of the wanted type. -/
theorem convertArguments_fits_ends {wanted : List (TypeId × (Diagnostic → Diagnostic))}
    {xs : List Rose} (fine : c.Fine ok) (named : ∀ w ∈ wanted, c.session.types.Named w.1)
    (carries : c.session.tree.Carries (xs ++ rest))
    (operands : ∀ x ∈ xs, c.session.types.Operand ok x) (count : wanted.length = xs.length) :
    Ends ok (convertArguments wanted (xs.map fun x => c.session.tree.handle x.index)) c
    fun out c' => c.Reworks ok rest xs
      (fun (p : (TypeId × (Diagnostic → Diagnostic)) × Rose) y =>
        Session.Matches p.1.1 y ∧ c.session.types.Becomes p.1.1 p.2 y) (wanted.zip xs) out c' ∧
      (out ≠ none ↔ List.Forall₂ (fun w x => c.session.types.Fits w.1 x) wanted xs) := by
  -- by induction on the types that are wanted; arguments that were converted wait among the others
  induction wanted generalizing c rest xs with
  | nil =>
    obtain rfl := List.length_eq_zero_iff.mp count.symm
    exact .pure ⟨reworks_nil carries, iff_of_true nofun .nil⟩
  | cons w wanted ih =>
    obtain ⟨x, xs, rfl⟩ := List.exists_cons_of_length_eq_add_one count.symm
    obtain ⟨type, complain⟩ := w
    obtain ⟨operand, operands⟩ := List.forall_mem_cons.mp operands
    obtain ⟨known, named⟩ := List.forall_mem_cons.mp named
    rw [List.cons_append] at carries
    rw [List.map_cons, convertArguments]
    refine (convert_fits_ends fine known carries operand).bind ?_
    rintro ⟨n, problem⟩ _ ⟨t, y, rfl, swaps, converted, unmoved, good, fits, becomes⟩
    have keeps : c.session.tree.Keeps t rest := fun r _ => swaps.same r.index
    dsimp only
    cases problem with
    | some d =>
      have same : t.handle y.index = c.session.tree.handle x.index := by
        rw [swaps.same, unmoved (by simp)]
      have located :
        locationOf (t.handle y.index) (c.withTree t) = .ok (y.location, c.withTree t) :=
        locationOf_run (c := c.withTree t) (swaps.carries.has List.mem_cons_self)
      rw [same] at located
      -- the first argument that does not fit is reported, and no other one is tried
      have unfit : ¬ List.Forall₂ (fun w x => c.session.types.Fits w.1 x)
          ((type, complain) :: wanted) (x :: xs) := by
        rintro (_ | ⟨first, _⟩)
        cases fits.mpr first
      refine .step located
        ((report_fails (y :: xs) (fine.withTree t) swaps.carries converted.node.near _).bind ?_)
      exact fun _ c' fails => .pure
        ⟨fails.after (onward_withTree c t) rfl keeps, iff_of_false (fun some => some rfl) unfit⟩
    | none =>
      obtain ⟨suits, ruled, place⟩ := good rfl
      have others := @ih (c.withTree t) (y :: rest) xs (fine.withTree t) named
        (swaps.carries.perm List.perm_middle.symm) operands (by simpa using count)
      have same : (xs.map fun x => (c.withTree t).session.tree.handle x.index) = xs.map fun x =>
        c.session.tree.handle x.index :=
        List.map_congr_left fun r _ => swaps.same r.index
      rw [same] at others
      refine others.bind fun out c' ⟨done, all⟩ => .pure ⟨?_, ?_⟩
      · exact Reworks.cons swaps converted ruled place ⟨suits, becomes rfl⟩ done
      · rw [List.forall₂_cons, and_iff_right (fits.mp rfl)]
        exact Iff.trans (by simp) all

/-- What is true of the elements of two lists and of a third one, pair by pair. -/
theorem forall₂_of_zip {α β γ : Type} {R : α → γ → Prop} {S : α × β → γ → Prop} {as : List α}
    {bs : List β} {cs : List γ} (all : List.Forall₂ S (as.zip bs) cs)
    (count : as.length = bs.length) (weaker : ∀ p c, S p c → R p.1 c) : List.Forall₂ R as cs := by
  induction as generalizing bs cs with
  | nil =>
    cases all
    exact .nil
  | cons a as ih =>
    obtain ⟨b, bs, rfl⟩ := List.exists_cons_of_length_eq_add_one count.symm
    cases all with
    | cons first others => exact .cons (weaker _ _ first) (ih others (by simpa using count))

theorem convertArguments_ends {wanted : List (TypeId × (Diagnostic → Diagnostic))}
    {xs : List Rose} (fine : c.Fine ok) (named : ∀ w ∈ wanted, c.session.types.Named w.1)
    (carries : c.session.tree.Carries (xs ++ rest))
    (operands : ∀ x ∈ xs, c.session.types.Operand ok x) (count : wanted.length = xs.length) :
    Ends ok (convertArguments wanted (xs.map fun x => c.session.tree.handle x.index)) c
    (c.Reworks ok rest xs (fun w y => TypeId.Suits w.1 y.exprType) wanted) := by
  refine (convertArguments_fits_ends fine named carries operands count).mono ?_
  rintro (_ | ns) c' ⟨done, -⟩
  · exact done
  · obtain ⟨ys, done, all⟩ := done
    exact ⟨ys, done, forall₂_of_zip all count fun _ _ good => suits_of_matches good.1⟩

/-! ## Calls and fields -/

theorem call_ends {callee : Rose} {args : List Rose} (fine : c.Fine ok)
    (carries : c.session.tree.Carries (callee :: (args ++ rest)))
    (first : c.session.types.Operand ok callee) (others : ∀ a ∈ args, c.session.types.Operand ok a)
    {opening close : Location} (near : Loose ok ∨ (opening.Near ∧ close.Near)) :
    Ends ok (call (c.session.tree.handle callee.index)
      (args.map fun a => c.session.tree.handle a.index) opening close) c
    (c.Gives ok rest (c.Typed names (Location.span callee.location close) (callee :: args))) := by
  have hasCallee := carries.has (r := callee) (by simp)
  have live := anyBroken_run (callee :: args) fun a mem =>
    carries.has (r := a) (by simp at mem ⊢; tauto)
  rw [call]
  refine .step live
    (.step (typeOf_run hasCallee) (.step (kindOf_run hasCallee) (.step (types_run c) ?_)))
  split
  next => exact refuse_ends (callee :: args) fine carries (near.imp_right And.left) _
  next isFunction =>
    obtain ⟨isName, isFunction⟩ : callee.kind = .identifier ∧
      c.session.types.isFunction callee.exprType = true := by
      simpa using isFunction
    have known := (TypeTable.parameters_ends first.node.type fine.short).learn
      fun parameters read all => And.intro read all
    refine .step (types_run c) (.lift known fun parameters ⟨read, all⟩ => ?_)
    split
    next => exact refuse_ends (callee :: args) fine carries (near.imp_right And.right) _
    next count =>
      have count : parameters.length = args.length := by simpa using count
      -- the arguments are converted in place; the callee waits behind them
      have moved : c.session.tree.Carries (args ++ callee :: rest) :=
        carries.perm List.perm_middle.symm
      refine (convertArguments_ends fine (by simpa using all) moved others
        (by simpa using count)).bind ?_
      rintro (_ | ns) c' done
      · exact .pure (Fails.drop done).gives
      · obtain ⟨ys, done, suits⟩ := done
        obtain ⟨t, rfl⟩ := done.same
        have keeps (r : Rose) : t.handle r.index = c.session.tree.handle r.index :=
          Arena.handle_kept done.kept r.index
        have back : t.Carries (callee :: ys ++ rest) := done.carries.perm List.perm_middle
        have located := locationOf_run (c := c.withTree t) (back.has List.mem_cons_self)
        rw [show (c.withTree t).session.tree.handle callee.index = _ from keeps callee] at located
        obtain ⟨result, readResult, named⟩ := first.node.type.result
        refine .step located (.step (types_run _) (.step (lift_run readResult) ?_))
        have handles : (callee :: ys).map (fun y => t.handle y.index) =
          c.session.tree.handle callee.index :: ns := by
          rw [done.handles, List.map_cons, keeps callee]
          rfl
        rw [← handles]
        have spanned : Loose ok ∨ (Location.span callee.location close).Near :=
          (or_and first.node.near near).imp_right fun both => both.1.span both.2.2
        have operands : ∀ y ∈ callee :: ys, c.session.types.Operand ok y :=
          List.forall_mem_cons.mpr ⟨first, done.operands⟩
        -- what the conversions did to the arguments is part of what the call does
        apply Ends.typed_after ?built (onward_withTree c t) rfl
        case keeps => exact fun r _ => keeps r
        case ruled =>
          intro before
          obtain ⟨ruledCallee, ruledArgs⟩ := List.forall_mem_cons.mp before
          exact List.forall_mem_cons.mpr ⟨ruledCallee, done.ruled _ _ ruledArgs⟩
        case spreads =>
          exact fun x spreads => spreads.after (.cons (inPlaceOf_self callee) done.places)
        case built =>
          refine buildExpr_gives (callee :: ys) (fine.withTree t) back rfl named .value spanned []
            nofun operands fun _ x built => ?_
          unfold Session.Rule
          rw [built.kind, built.kids]
          exact ⟨built.place, isName, isFunction, built.exprType ▸ readResult, parameters, read,
            List.forall₂_map_left_iff.mp suits⟩

/-- The structure that a field is selected from, and the category of the field. -/
def Selects (s : Session) (base : Rose) (arrow : Bool) (owner : TypeId) (category : Int) : Prop :=
  s.types.Named owner ∧ s.types.isStructure owner = true ∧
    ((arrow = false ∧ base.exprType = owner ∧ category = base.arg 1) ∨
    (arrow = true ∧ s.types.isPointer base.exprType = true ∧
    s.types.element base.exprType = .ok owner ∧ category = Category.place.word))

theorem memberBase_ends {base : Rose} (fine : c.Fine ok)
    (carries : c.session.tree.Carries (base :: rest)) (operand : c.session.types.Operand ok base)
    (arrow : Bool) {opLoc : Location} (near : Loose ok ∨ opLoc.Near) :
    Ends ok (memberBase (c.session.tree.handle base.index) arrow opLoc) c fun found c' =>
      (found = none ∧ c.Fails ok rest c') ∨
          (c' = c ∧ ∃ owner category, found = some (owner, category) ∧
            Selects c.session base arrow owner category) := by
  have has := carries.has (r := base) (by simp)
  have refused (d : Diagnostic) :
    Ends ok (do report opLoc d; return none : Check (Option (TypeId × Int))) c fun found c' =>
      (found = none ∧ c.Fails ok rest c') ∨
        (c' = c ∧ ∃ owner category, found = some (owner, category) ∧
        Selects c.session base arrow owner category) :=
    (report_fails [base] fine carries near d).bind fun _ _ fails => .pure (.inl ⟨rfl, fails⟩)
  rw [memberBase]
  refine .step (types_run c) (.step (typeOf_run has) ?_)
  split
  next arrow =>
    split
    next pointer =>
      obtain ⟨target, read, named, -⟩ := operand.node.type.element
      refine .step (lift_run read) ?_
      split
      next isStructure =>
        exact .pure (.inr ⟨rfl, _, _, rfl, named, isStructure, .inr ⟨arrow, pointer, read, rfl⟩⟩)
      next => exact refused _
    next => exact refused _
  next dot =>
    split
    next isStructure =>
      refine .step (tree_run c) (.step (lift_run (has.arg 1)) ?_)
      exact .pure
        (.inr ⟨rfl, _, _, rfl, operand.node.type, isStructure, .inl ⟨by simpa using dot, rfl, rfl⟩⟩)
    next => exact refused _

theorem member_ends {base : Rose} (fine : c.Fine ok)
    (carries : c.session.tree.Carries (base :: rest)) (operand : c.session.types.Operand ok base)
    (name : Int) (arrow : Bool) {opLoc nameLoc : Location}
    (near : Loose ok ∨ (opLoc.Near ∧ nameLoc.Near)) (ends : names nameLoc.stop name) :
    Ends ok (member (c.session.tree.handle base.index) name arrow opLoc nameLoc) c
    (c.Gives ok rest (c.Typed names (Location.span base.location nameLoc) [base])) := by
  have has := carries.has (r := base) (by simp)
  rw [member]
  refine .step (isBroken_run _ c) ?_
  rw [carries.isBroken List.mem_cons_self]
  refine (memberBase_ends fine carries operand arrow (near.imp_right And.left)).bind
    fun found c' outcome => ?_
  rcases outcome with ⟨rfl, fails⟩ | ⟨same, owner, category, rfl, named, isStructure, how⟩
  · exact .pure fails.gives
  subst same
  refine .step (types_run c') (.lift ((TypeTable.member_ends named fine.short name).learn
    fun found read typed => And.intro read typed) fun found ⟨read, typed⟩ => ?_)
  cases found with
  | none =>
    exact .step (currentSession_run c')
      (refuse_ends [base] fine carries (near.imp_right And.right) _)
  | some field =>
    obtain ⟨type, displacement⟩ := field
    refine .step (locationOf_run has) ?_
    refine build_gives [base] fine carries rfl (typed type displacement rfl) category ?_
      [displacement, flagWord arrow] nofun (by simpa using operand) fun _ x built => ?_
    · exact (or_and operand.node.near near).imp_right fun both => both.1.span both.2.2
    · have flag : x.arg 3 = flagWord arrow := built.arg 1
      unfold Session.Rule
      rw [built.kind, built.kids]
      have field : c'.session.types.member owner name = .ok (some (x.exprType, x.arg 2)) := by
        rw [built.exprType, built.arg 0]
        exact read
      refine ⟨owner, name, built.location ▸ ends, isStructure, field, ?_⟩
      rw [flag, built.place]
      rcases how with ⟨rfl, same, rfl⟩ | ⟨rfl, pointer, target, rfl⟩
      · exact .inl ⟨rfl, same, rfl⟩
      · exact .inr ⟨rfl, pointer, target, rfl⟩

end Checker

end BilingualC
