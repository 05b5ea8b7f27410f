import Mathlib
import BilingualC.Proofs.Checker.Library
import BilingualC.Proofs.Total.Operator

/-!
# Library calls that come to an end

Most library calls match their arguments against a signature; the printing functions and those on
identifiers have rules of their own. A call that is built follows the typing rule of its function.
-/

namespace BilingualC

open Guarded Rose

variable {ok : Fault → Prop}

namespace Checker

variable {c c' : Checker} {rest args : List Rose} {x : Rose} {b : Builtin} {type : TypeId}
    {loc : Location} {names : Session.NameEnds}

/-- The handles of some trees. -/
abbrev handles (c : Checker) (xs : List Rose) : List Handle :=
  xs.map fun x => c.session.tree.handle x.index

/-! ## Signatures -/

/-- A library function wants values of named types. -/
def Wanted.Known (t : TypeTable) : Wanted → Prop
  | .type id => t.Named id
  | .anyArray => True

theorem Fine.signature (fine : c.Fine ok) (b : Builtin) :
    c.session.types.Named (signature c.stringType b).1 ∧
    ∀ w ∈ (signature c.stringType b).2, w.Known c.session.types := by
  have scalar {type : Int} (low : TypeId.void ≤ type) (high : type ≤ TypeId.undefined) :
    c.session.types.Named type :=
    fine.scalar low high
  have float : (Wanted.type TypeId.float).Known c.session.types := scalar (by decide) (by decide)
  have int : (Wanted.type TypeId.int).Known c.session.types := scalar (by decide) (by decide)
  have text : (Wanted.type c.stringType).Known c.session.types := fine.string.named
  have array : Wanted.anyArray.Known c.session.types := trivial
  unfold Checker.signature
  split <;> dsimp only <;> exact ⟨scalar (by decide) (by decide), by simp [float, int, text, array]⟩

theorem matchArguments_ends {wanted : List Wanted} (fine : c.Fine ok)
    (known : ∀ w ∈ wanted, w.Known c.session.types)
    (carries : c.session.tree.Carries (args ++ rest))
    (operands : ∀ a ∈ args, c.session.types.Operand ok a)
    (count : wanted.length = args.length) : Ends ok (matchArguments wanted (c.handles args)) c
    (c.Reworks ok rest args c.session.Meets wanted) := by
  induction wanted generalizing c rest args with
  | nil =>
    obtain rfl := List.length_eq_zero_iff.mp count.symm
    exact .pure (reworks_nil carries)
  | cons w wanted ih =>
    obtain ⟨x, args, rfl⟩ := List.exists_cons_of_length_eq_add_one count.symm
    obtain ⟨operand, operands⟩ := List.forall_mem_cons.mp operands
    obtain ⟨here, known⟩ := List.forall_mem_cons.mp known
    have count : wanted.length = args.length := by simpa using count
    rw [List.cons_append] at carries
    -- What is left after an argument that is fine as `y` is matched with the rest.
    have go {t : Arena} {y : Rose} (swaps : Swaps c.session.tree t (args ++ rest) y
        (t.handle y.index)) (operand : c.session.types.Operand ok y)
        (ruled : ∀ names str, c.session.Ruled names str x → c.session.Ruled names str y)
        (place : x.InPlaceOf y) (good : c.session.Meets w y) : Ends ok (do
          return (← matchArguments wanted (c.handles args)).map (t.handle y.index :: ·))
            (c.withTree t)
        (c.Reworks ok rest (x :: args) c.session.Meets (w :: wanted)) := by
      have others := @ih (c.withTree t) (y :: rest) args (fine.withTree t) known
        (swaps.carries.perm List.perm_middle.symm) operands count
      have same : (c.withTree t).handles args = c.handles args :=
        List.map_congr_left fun r _ => swaps.same r.index
      rw [same] at others
      exact others.bind fun out c' done => .pure (Reworks.cons swaps operand ruled place good done)
    cases w with
    | anyArray =>
      have has := carries.has (r := x) (by simp)
      rw [handles, List.map_cons, matchArguments]
      refine .step (typeOf_run has) (.step (types_run c) ?_)
      split
      next =>
        refine .step (locationOf_run has)
          ((typeName_ends fine operand.node.type).bind fun _ _ same => ?_)
        subst same
        exact (report_fails (x :: args) fine carries operand.node.near _).bind fun _ _ fails =>
          .pure fails
      next isArray =>
        exact go (t := c.session.tree) ⟨carries, rfl, fun _ => rfl⟩ operand (fun _ _ ruled => ruled)
          (inPlaceOf_self x) (by simpa [Session.Meets] using isArray)
    | type id =>
      rw [handles, List.map_cons, matchArguments]
      refine (convert_ends fine here carries operand).bind ?_
      rintro ⟨n, problem⟩ _ ⟨t, y, rfl, swaps, converted, unmoved, good⟩
      obtain rfl := swaps.handle
      dsimp only
      cases problem with
      | some d =>
        have same : t.handle y.index = c.session.tree.handle x.index := by
          rw [swaps.same, unmoved (by simp)]
        have located :
          locationOf (t.handle y.index) (c.withTree t) = .ok (y.location, c.withTree t) :=
          locationOf_run (c := c.withTree t) (swaps.carries.has List.mem_cons_self)
        rw [same] at located
        refine .step located
          ((report_fails (y :: args) (fine.withTree t) swaps.carries converted.node.near _).bind ?_)
        exact fun _ c' fails =>
          .pure (fails.after (onward_withTree c t) rfl fun r _ => swaps.same r.index)
      | none =>
        obtain ⟨suits, ruled, place⟩ := good rfl
        exact go swaps converted ruled place (suits_of_matches suits)

/-- A library call is built above its arguments, and it is the one that was asked for. -/
theorem libraryCall_built (names : Session.NameEnds) (fine : c.Fine ok)
    (carries : c.session.tree.Carries (args ++ rest)) (listed : b.isListed = true)
    (operands : ∀ a ∈ args, c.session.types.Operand ok a)
    (named : c.session.types.Named type) (near : Loose ok ∨ loc.Near)
    (rule : ∀ y, y.builtin = b → y.exprType = type → y.isPlace = false → y.children = args →
      c.session.LibraryRule c.stringType y) :
    Ends ok (libraryCall b type (c.handles args) loc) c fun n c' => c.Gives ok rest (fun s x =>
      c.Typed names loc args s x ∧ x.kind = .builtin ∧ x.builtin = b ∧ x.children = args) n c' ∧
      n ≠ .broken := by
  have isB {y : Rose} (built : IsBuilt .builtin type Category.value.word
      ([b.number] ++ [loc.start, loc.stop]) args y) : y.builtin = b := by
    rw [Rose.builtin, show y.arg 2 = b.number from built.arg 0, Builtin.ofNumber_number listed]
  have isExpr : Kind.builtin.isExpression = true := rfl
  have word : Kind.builtin = .literal → [b.number] ≠ [] := fun _ => List.cons_ne_nil _ _
  refine (build_built names args fine carries isExpr named Category.value.word near [b.number] word
    operands fun _ y built => ?_).mono fun n c' gives => ?_
  · unfold Session.Rule
    rw [built.kind]
    exact rule y (isB built) built.exprType built.place built.kids
  · refine ⟨gives.1.mono fun s x good => ?_, gives.2⟩
    exact ⟨good.1, good.2.kind, isB good.2, good.2.kids⟩

/-- A library call is built above its arguments. -/
theorem libraryCall_ends (fine : c.Fine ok) (carries : c.session.tree.Carries (args ++ rest))
    (listed : b.isListed = true) (operands : ∀ a ∈ args, c.session.types.Operand ok a)
    (named : c.session.types.Named type) (near : Loose ok ∨ loc.Near)
    (rule : ∀ y, y.builtin = b → y.exprType = type → y.isPlace = false → y.children = args →
      c.session.LibraryRule c.stringType y) : Ends ok (libraryCall b type (c.handles args) loc) c
    (c.Gives ok rest (c.Typed names loc args)) := by
  have built := libraryCall_built names fine carries listed operands named near rule
  exact built.mono fun _ _ gives => gives.1.mono fun _ _ => And.left

/-! ## Calls with rules of their own -/

/-- What a call of `printf` demands: a format that can be read, and for each of its conversions an
argument that fits. -/
def Printable (c : Checker) (args : List Rose) (list : List Conversion) : Prop :=
  ∃ format values, args = format :: values ∧ format.kind = .string ∧ values.length ≤ maxPrinted ∧
    conversions (c.session.stringAt (format.arg 2)) = .ok list ∧
    List.Forall₂ (fun k x => c.session.types.Fits (k.type c.stringType) x) list values

/-- A call of `printf` above its format and what its other arguments became. -/
structure Prints (c : Checker) (args : List Rose) (list : List Conversion) (x : Rose) : Prop where
  kind : x.kind = .builtin
  builtin : x.builtin = .printf
  converted : ∃ format values ys, args = format :: values ∧ x.children = format :: ys ∧
    List.Forall₂ (fun k y => Session.Matches (k.type c.stringType) y) list ys ∧
    List.Forall₂ (fun (p : Conversion × Rose) y =>
      c.session.types.Becomes (p.1.type c.stringType) p.2 y) (list.zip values) ys

theorem printable_cons {format : Rose} {values : List Rose} {list : List Conversion} :
    c.Printable (format :: values) list ↔ format.kind = .string ∧ values.length ≤ maxPrinted ∧
      conversions (c.session.stringAt (format.arg 2)) = .ok list ∧
      List.Forall₂ (fun k x => c.session.types.Fits (k.type c.stringType) x) list values := by
  simp [Printable]

/-- The outcome of a call of `printf`: it gives an expression exactly if its arguments can be
printed. -/
def PrintOutcome (ok : Fault → Prop) (rest args : List Rose) (names : Session.NameEnds)
    (loc : Location) (c : Checker) (n : Handle) (c' : Checker) : Prop :=
  c.Gives ok rest (fun s x => c.Typed names loc args s x ∧
    ∃ list, c.Printable args list ∧ c.Prints args list x) n c' ∧
  (n = .broken → ∀ list, ¬ c.Printable args list)

theorem printf_fits_ends (names : Session.NameEnds) (fine : c.Fine ok)
    (carries : c.session.tree.Carries (args ++ rest))
    (operands : ∀ a ∈ args, c.session.types.Operand ok a) (near : Loose ok ∨ loc.Near) :
    Ends ok (printf (c.handles args) loc) c (PrintOutcome ok rest args names loc c) := by
  cases args with
  | nil =>
    refine (refuse_ends [] fine carries near _).mono fun _ _ gives => ⟨gives, ?_⟩
    rintro - list ⟨format, values, same, -⟩
    cases same
  | cons format values =>
    have has := carries.has (r := format) (by simp)
    -- a refusal is right if one of the four things that `Printable` asks for is missing
    have refused (d : Diagnostic) {at' : Location} (near : Loose ok ∨ at'.Near)
        (out : ∀ list, ¬ c.Printable (format :: values) list) :
        Ends ok (refuse at' d) c (PrintOutcome ok rest (format :: values) names loc c) :=
      (refuse_ends (format :: values) fine carries near d).mono fun _ _ gives =>
        ⟨gives, fun _ => out⟩
    obtain ⟨operand, operands⟩ := List.forall_mem_cons.mp operands
    simp only [printable_cons] at refused
    rw [handles, List.map_cons, printf]
    refine .step (kindOf_run has) ?_
    split
    next other => exact refused _ near fun list good => by simp [good.1] at other
    next isString =>
      have isString : format.kind = .string := by simpa using isString
      split
      next many => exact refused _ near fun list good => absurd good.2.1 (by simpa using many)
      next few =>
        have few : values.length ≤ maxPrinted := by simpa using few
        refine .step (currentSession_run c) (.step (payloadOf_run has) ?_)
        split
        next d wrong =>
          refine .step (locationOf_run has) (refused d operand.node.near fun list good => ?_)
          cases wrong.symm.trans good.2.2.1
        -- the conversions are a function of the format, so any list that is right is this one
        next list read =>
          have same {other : List Conversion}
              (again : conversions (c.session.stringAt (format.arg 2)) = .ok other) :
              other = list := Except.ok.inj (again.symm.trans read)
          split
          next differ =>
            refine refused _ near fun other good => ?_
            obtain rfl := same good.2.2.1
            simp [good.2.2.2.length_eq] at differ
          next count =>
            have count : list.length = values.length := by simpa using count
            refine .step (a := c) rfl ?_
            -- from here on only the types of the values can be wrong
            have named : ∀ w ∈ list.map fun conversion =>
              (conversion.type c.stringType, fun (_ : Diagnostic) =>
                Diagnostic.lettered .printfArgType conversion.letter.toNat),
                  c.session.types.Named w.1 := by
              intro w mem
              obtain ⟨conversion, -, rfl⟩ := List.mem_map.mp mem
              dsimp only
              rw [Conversion.type]
              split
              · exact fine.scalar (by decide) (by decide)
              · exact fine.scalar (by decide) (by decide)
              · exact fine.string.named
            have moved : c.session.tree.Carries (values ++ format :: rest) :=
              carries.perm List.perm_middle.symm
            refine
              (convertArguments_fits_ends fine named moved operands (by simpa using count)).bind ?_
            rintro (_ | ns) c' ⟨done, all⟩
            · refine .pure ⟨(Fails.drop done).gives, fun _ other good => ?_⟩
              obtain ⟨-, -, again, fits⟩ := printable_cons.1 good
              obtain rfl := same again
              exact all.mpr (List.forall₂_map_left_iff.mpr fits) rfl
            · obtain ⟨ys, done, suits⟩ := done
              obtain ⟨t, rfl⟩ := done.same
              have fits := List.forall₂_map_left_iff.mp (all.mp (Option.some_ne_none ns))
              -- the values were replaced by their conversions, the format stays where it is
              have keeps (r : Rose) : t.handle r.index = c.session.tree.handle r.index :=
                Arena.handle_kept done.kept r.index
              have handles : (c.withTree t).handles (format :: ys) =
                c.session.tree.handle format.index :: ns := by
                rw [handles, List.map_cons, done.handles]
                exact congrArg (· :: _) (keeps format)
              rw [List.zip_map_left, List.forall₂_map_left_iff] at suits
              have matching :
                List.Forall₂ (fun k y => Session.Matches (k.type c.stringType) y) list ys :=
                forall₂_of_zip suits count fun _ _ good => good.1
              dsimp only
              rw [← handles]
              have back : t.Carries (format :: ys ++ rest) := done.carries.perm List.perm_middle
              have operands : ∀ y ∈ format :: ys, c.session.types.Operand ok y :=
                List.forall_mem_cons.mpr ⟨operand, done.operands⟩
              refine (libraryCall_built names (fine.withTree t) back rfl operands
                (fine.scalar (by decide) (by decide)) near fun y isB typed value kids => ?rule).mono
                fun n c' gives => ⟨?given, fun broken => absurd broken gives.2⟩
              case rule =>
                refine ⟨value, ?_⟩
                rw [isB]
                exact ⟨typed, format, ys, list, kids, isString, read,
                  matching.imp fun _ _ => suits_of_matches⟩
              case given =>
                have later := gives.1.after (onward_withTree c t) rfl fun r _ => keeps r
                refine later.mono fun s x good => ⟨⟨fun before => ?_, ?_⟩, list, ?_⟩
                · obtain ⟨ruledFormat, ruledValues⟩ := List.forall_mem_cons.mp before
                  exact good.1.ruled
                    (List.forall_mem_cons.mpr ⟨ruledFormat, done.ruled _ _ ruledValues⟩)
                · exact good.1.spreads.after (.cons (inPlaceOf_self format) done.places)
                · obtain ⟨kind, builtin, kids⟩ := good.2
                  exact ⟨printable_cons.2 ⟨isString, few, read, fits⟩, kind, builtin, format,
                    values, ys, rfl, kids, matching, suits.imp fun _ _ => And.right⟩

theorem printf_ends (fine : c.Fine ok) (carries : c.session.tree.Carries (args ++ rest))
    (operands : ∀ a ∈ args, c.session.types.Operand ok a) (near : Loose ok ∨ loc.Near) :
    Ends ok (printf (c.handles args) loc) c (c.Gives ok rest (c.Typed names loc args)) :=
  (printf_fits_ends names fine carries operands near).mono fun _ _ gives =>
    gives.1.mono fun _ _ => And.left

/-- The first tree that a property was asked of and that has it. -/
theorem firstWith_run {property : Handle → Check Bool} {p : Rose → Bool} {xs : List Rose}
    (asked : ∀ x ∈ xs, property (c.session.tree.handle x.index) c = .ok (p x, c)) :
    firstWith property (c.handles xs) c =
    .ok ((xs.find? p).map fun x => c.session.tree.handle x.index, c) := by
  induction xs with
  | nil => rfl
  | cons x xs ih =>
    obtain ⟨first, others⟩ := List.forall_mem_cons.mp asked
    rw [handles, List.map_cons, firstWith, bind_run first]
    cases holds : p x with
    | true => simp [holds, pure, StateT.pure, Except.pure]
    | false => simpa [holds] using ih others

/-- A call that takes any number of arguments without a property. -/
theorem demand_ends {property : Handle → Check Bool}
    {p : Rose → Bool} {d : Diagnostic} (fine : c.Fine ok)
    (carries : c.session.tree.Carries (args ++ rest)) (listed : b.isListed = true)
    (operands : ∀ a ∈ args, c.session.types.Operand ok a) (near : Loose ok ∨ loc.Near)
    (asked : ∀ x ∈ args, property (c.session.tree.handle x.index) c = .ok (p x, c))
    (rule : ∀ y, y.builtin = b → y.exprType = TypeId.void → y.isPlace = false → y.children = args →
      (∀ a ∈ args, p a = false) → c.session.LibraryRule c.stringType y) : Ends ok (do
      match ← firstWith property (c.handles args) with
      | some n => refuse (← locationOf n) d
      | none =>
        libraryCall b TypeId.void (c.handles args) loc) c
          (c.Gives ok rest (c.Typed names loc args)) := by
  refine .step (firstWith_run asked) ?_
  cases found : args.find? p with
  | some x =>
    have mem := List.mem_of_find?_eq_some found
    have has := carries.has (List.mem_append_left rest mem)
    exact .step (locationOf_run has) (refuse_ends args fine carries (operands x mem).node.near d)
  | none =>
    have all : ∀ a ∈ args, p a = false := by simpa using List.find?_eq_none.mp found
    exact libraryCall_ends fine carries listed operands (fine.scalar (by decide) (by decide)) near
      fun y isB typed value kids => rule y isB typed value kids all

theorem print_ends (fine : c.Fine ok) (carries : c.session.tree.Carries (args ++ rest))
    (operands : ∀ a ∈ args, c.session.types.Operand ok a) (near : Loose ok ∨ loc.Near) :
    Ends ok (print (c.handles args) loc) c (c.Gives ok rest (c.Typed names loc args)) := by
  rw [print]
  split
  next => exact refuse_ends args fine carries near _
  next some =>
    have some : args ≠ [] := by simpa using some
    refine demand_ends (p := fun x => c.session.types.isPointer x.exprType) fine carries rfl
      operands near (fun x mem => ?_) fun y isB typed value kids all => ⟨value, ?_⟩
    · rw [bind_run (types_run c), bind_run (typeOf_run (carries.has (List.mem_append_left _ mem)))]
      rfl
    · rw [isB]
      exact ⟨typed, kids ▸ some, kids ▸ all⟩

theorem identifierCall_ends (fine : c.Fine ok) (carries : c.session.tree.Carries (args ++ rest))
    (which : b = .printid ∨ b = .getid) (operands : ∀ a ∈ args, c.session.types.Operand ok a)
    (near : Loose ok ∨ loc.Near) : Ends ok (identifierCall b (c.handles args) loc) c
    (c.Gives ok rest (c.Typed names loc args)) := by
  have listed : b.isListed = true := by rcases which with rfl | rfl <;> rfl
  rw [identifierCall]
  split
  next => exact refuse_ends args fine carries near _
  next some =>
    have some : args ≠ [] := by simpa using some
    refine demand_ends (p := fun x => x.kind != .identifier || !x.isPlace) fine carries listed
      operands near (fun x mem => ?_) fun y isB typed value kids all => ⟨value, ?_⟩
    · have has := carries.has (List.mem_append_left rest mem)
      rw [bind_run (kindOf_run has), bind_run (isPlace_run has)]
      rfl
    · have names : ∀ a ∈ y.children, a.kind = .identifier ∧ a.isPlace = true := by
        simpa [kids] using all
      rw [isB]
      rcases which with rfl | rfl <;> exact ⟨typed, kids ▸ some, names⟩

/-! ## Calls -/

/-- The functions that match their arguments against a signature. -/
def HasSignature (b : Builtin) : Prop :=
  b.isListed = true ∧ b ≠ .printf ∧ b ≠ .print ∧ b ≠ .printid ∧ b ≠ .getid ∧ b ≠ .abs

theorem signed_ends (fine : c.Fine ok)
    (carries : c.session.tree.Carries (args ++ rest)) (signed : HasSignature b)
    (operands : ∀ a ∈ args, c.session.types.Operand ok a) (near : Loose ok ∨ loc.Near) : Ends ok (do
      let (result, wanted) := signature (← get).stringType b
      if wanted.length != (c.handles args).length then
        return ← refuse loc (.counted .wrongArgCount wanted.length (c.handles args).length)
      match ← matchArguments wanted (c.handles args) with
      | none => return .broken
      | some args =>
        libraryCall b result args loc) c (c.Gives ok rest (c.Typed names loc args)) := by
  obtain ⟨named, known⟩ := fine.signature b
  refine .step (a := c) rfl ?_
  dsimp only
  split
  next => exact refuse_ends args fine carries near _
  next count =>
    refine (matchArguments_ends fine known carries operands (by simpa [handles] using count)).bind
      ?_
    rintro (_ | ns) c' done
    · exact .pure (Fails.gives done)
    · obtain ⟨ys, done, meets⟩ := done
      obtain ⟨t, rfl⟩ := done.same
      have keeps (r : Rose) : t.handle r.index = c.session.tree.handle r.index :=
        Arena.handle_kept done.kept r.index
      rw [done.handles]
      refine Ends.typed_after (libraryCall_ends (fine.withTree t) done.carries signed.1
        done.operands named near fun y isB typed value kids => ⟨value, ?_⟩) (onward_withTree c t)
        rfl (fun r _ => keeps r) (done.ruled _ _) fun x spreads => spreads.after done.places
      · have all : List.Forall₂ (fun w a => (c.withTree t).session.Meets w a)
          (signature c.stringType b).2 y.children :=
          kids ▸ meets
        obtain ⟨listed, notPrintf, notPrint, notPrintid, notGetid, notAbs⟩ := signed
        rw [isB]
        cases b <;> first | exact ⟨typed, all⟩ | contradiction

/-- The location of a library call. The absolute value ends with its operand. -/
def libraryPlace (b : Builtin) (args : List Rose) (loc : Location) : Location :=
  match b, args with
  | .abs, [x] => Location.span loc x.location
  | _, _ => loc

theorem libraryPlace_of_ne (notAbs : b ≠ .abs) : libraryPlace b args loc = loc := by
  unfold libraryPlace
  split
  next => exact absurd rfl notAbs
  next => rfl

theorem library_ends (fine : c.Fine ok) (carries : c.session.tree.Carries (args ++ rest))
    (listed : b.isListed = true) (operands : ∀ a ∈ args, c.session.types.Operand ok a)
    (near : Loose ok ∨ loc.Near) : Ends ok (library b (c.handles args) loc) c
    (c.Gives ok rest (c.Typed names (libraryPlace b args loc) args)) := by
  unfold library
  refine .step (anyBroken_run args fun a mem => carries.has (List.mem_append_left _ mem)) ?_
  simp only [Bool.false_eq_true, if_false]
  split
  next => exact printf_ends fine carries operands near
  next => exact print_ends fine carries operands near
  next => exact identifierCall_ends fine carries (.inl rfl) operands near
  next => exact identifierCall_ends fine carries (.inr rfl) operands near
  next n single =>
    obtain ⟨x, rfl, rfl⟩ : ∃ x, args = [x] ∧ c.session.tree.handle x.index = n := by
      obtain ⟨x, rfl, same⟩ := List.map_eq_singleton_iff.mp single
      exact ⟨x, rfl, same⟩
    have unlisted : ∀ n, UnaryOp.absolute ≠ .unlisted n := nofun
    exact unary_ends fine carries (operands x List.mem_cons_self) unlisted near
  next => exact refuse_ends args fine carries near _
  next notPrintf notPrint notPrintid notGetid notAbs _ =>
    rw [libraryPlace_of_ne notAbs]
    exact signed_ends fine carries ⟨listed, notPrintf, notPrint, notPrintid, notGetid,
      notAbs⟩ operands near

end Checker

end BilingualC
