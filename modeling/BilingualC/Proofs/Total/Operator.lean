import Mathlib
import BilingualC.Proofs.Checker.Expression
import BilingualC.Proofs.Total.Expression

/-!
# Operators that come to an end

The rules for unary and binary operators, conditional expressions and lists. A constant that takes
the place of its operands has an arithmetic type, so it follows its typing rule whatever its value
is.
-/

namespace BilingualC

open Guarded Rose

variable {ok : Fault → Prop}

namespace Checker

variable {c c' c₁ : Checker} {rest ks ops : List Rose} {x y l r : Rose} {n : Handle} {type : TypeId}
  {loc opLoc : Location} {names : Session.NameEnds}

/-! ## Folding -/

/-- A node is removed. -/
theorem discard_run (carries : c.session.tree.Carries (x :: rest)) :
    ∃ t, discard (c.session.tree.handle x.index) c = .ok ((), c.withTree t) ∧ t.Carries rest ∧
    c.session.tree.Keeps t rest := by
  obtain ⟨t, removed, done, keeps⟩ := carries.remove
  refine ⟨t, ?_, done, keeps⟩
  rw [discard, bind_run (tree_run c), bind_run (lift_run removed)]
  rfl

theorem folding_run (c : Checker) : ∃ fold, folding c = .ok (fold, c) := by
  rw [folding, bind_run (currentSession_run c)]
  cases c.session.options with
  | none => exact ⟨_, rfl⟩
  | some o => exact ⟨_, rfl⟩

theorem literalFloat_run {t : Arena} (has : t.Has x) :
    ∃ v, t.literalFloat (t.handle x.index) = .ok v := by
  rw [Arena.literalFloat, has.payload]
  simp only [bind, Except.bind]
  rw [has.exprType]
  exact ⟨_, rfl⟩

/-- The constant that a unary operator gives is floating or has the type of the expression. -/
theorem unaryConstant_ends (has : c.session.tree.Has x) (op : UnaryOp) (type : TypeId) :
    Ends ok (unaryConstant? op type (c.session.tree.handle x.index)) c fun found c' =>
      c' = c ∧ ∀ type' word, found = some (type', word) → type' = TypeId.float ∨ type' = type := by
  obtain ⟨fold, asked⟩ := folding_run c
  obtain ⟨v, float⟩ := literalFloat_run has
  rw [unaryConstant?]
  refine .step asked (.step (isLiteral_run has) ?_)
  split
  next => exact .pure ⟨rfl, by simp⟩
  refine .step (tree_run c) (.step (typeOf_run has) ?_)
  split
  next =>
    refine .step (lift_run float) (.pure ⟨rfl, fun type' word found => .inl ?_⟩)
    obtain ⟨_, _, same⟩ := Option.map_eq_some_iff.mp found
    exact (Prod.mk.inj same).1.symm
  next =>
    refine .step (lift_run has.payload) (.pure ⟨rfl, fun type' word found => .inr ?_⟩)
    obtain ⟨_, _, same⟩ := Option.map_eq_some_iff.mp found
    exact (Prod.mk.inj same).1.symm

/-! ## Unary operators -/

/-- A unary expression is built above its operand. -/
theorem buildUnary_ends {op : UnaryOp} (fine : c.Fine ok)
    (carries : c.session.tree.Carries (x :: rest)) (operand : c.session.types.Operand ok x)
    (listed : ∀ n, op ≠ .unlisted n) (named : c.session.types.Named type)
    (category : Category) (near : Loose ok ∨ loc.Near)
    (rule : ∀ y, y.unaryOp = op → y.exprType = type →
      y.isPlace = (category.word == Category.place.word) → c.session.UnaryRule y x) :
    Ends ok (buildExpr .unary type category loc [op.number] [c.session.tree.handle x.index]) c
    (c.Gives ok rest (c.Typed names loc [x])) := by
  refine buildExpr_gives [x] fine carries rfl named category near _ nofun
    (by simpa using operand) fun _ y built => ?_
  have isOp : y.unaryOp = op := by
    rw [Rose.unaryOp, show y.arg 2 = op.number from built.arg 0, UnaryOp.ofNumber_number listed]
  unfold Session.Rule
  rw [built.kind, built.kids]
  exact rule y isOp built.exprType built.place

theorem foldUnary_ends {op : UnaryOp} (fine : c.Fine ok)
    (carries : c.session.tree.Carries (x :: rest)) (operand : c.session.types.Operand ok x)
    (listed : ∀ n, op ≠ .unlisted n) (named : c.session.types.Named type)
    (arithmetic : TypeId.isArithmetic type = true) (near : Loose ok ∨ loc.Near)
    (rule : ∀ y, y.unaryOp = op → y.exprType = type → y.isPlace = false → c.session.UnaryRule y x) :
    Ends ok (foldUnary op type (c.session.tree.handle x.index) loc) c
    (c.Gives ok rest (c.Typed names loc [x])) := by
  rw [foldUnary]
  refine (unaryConstant_ends (carries.has List.mem_cons_self) op type).bind ?_
  rintro found c' ⟨rfl, typed⟩
  cases found with
  | none => exact buildUnary_ends fine carries operand listed named .value near rule
  | some constant =>
    obtain ⟨type', word⟩ := constant
    obtain ⟨t, removed, left, keeps⟩ := discard_run carries
    have literal : TypeId.isArithmetic type' = true ∧ c'.session.types.Named type' := by
      rcases typed type' word rfl with rfl | rfl
      · exact ⟨rfl, fine.scalar (by decide) (by decide)⟩
      · exact ⟨arithmetic, named⟩
    refine .step removed ?_
    exact (buildConstant_ends (fine.withTree t) left literal.2 literal.1 near word).typed_after
      (onward_withTree c' t) rfl keeps (by simp) fun y spreads => spreads.above [x]

/-- The address of a place has a pointer type, which may be new. -/
theorem address_ends (fine : c.Fine ok) (carries : c.session.tree.Carries (x :: rest))
    (operand : c.session.types.Operand ok x)
    (place : x.isPlace = true) (near : Loose ok ∨ loc.Near) : Ends ok (do
      let (s, pointer) := (← currentSession).pointerType x.exprType
      setSession s
      buildExpr .unary pointer .value loc [UnaryOp.address.number]
        [c.session.tree.handle x.index]) c
      (c.Gives ok rest (c.Typed names loc [x])) := by
  have gains := TypeTable.gains_pointer operand.node.type
  have advances : c.session.Advances ok (c.session.pointerType x.exprType).1 :=
    fine.regular.advances_types gains (.inr (by simp [TypeRecord.count, largestBlock]))
  refine .step (currentSession_run c) (.step (setSession_run _ c) ?_)
  have fine₁ := fine.withSession advances
  have onward : c.Onward (c.withSession (c.session.pointerType x.exprType).1) :=
    ⟨rfl, gains.continues, [], .refl _⟩
  have tiled := advances.regular.types
  have listed : ∀ n, UnaryOp.address ≠ .unlisted n := by simp
  refine Ends.typed_after (buildUnary_ends (c := c.withSession (c.session.pointerType x.exprType).1)
    fine₁ carries (operand.continue gains.continues tiled) listed gains.holds.named .value near
    fun y isOp typed value => ?_) onward rfl (.refl _ _) (fun before k mem => ?_) fun y => id
  · unfold Session.UnaryRule
    rw [isOp]
    refine ⟨place, ?_, ?_, value⟩
    · rw [typed]
      exact gains.holds.isPointer
    · rw [typed]
      exact gains.holds.element
  · obtain rfl := List.mem_singleton.mp mem
    exact (before k List.mem_cons_self).later operand onward.later tiled

/-- The location of a unary expression. -/
def unaryPlace (op : UnaryOp) (x : Rose) (opLoc : Location) : Location :=
  if op.isPostfix then Location.span x.location opLoc else Location.span opLoc x.location

theorem unary_ends {op : UnaryOp} (fine : c.Fine ok) (carries : c.session.tree.Carries (x :: rest))
    (operand : c.session.types.Operand ok x) (listed : ∀ n, op ≠ .unlisted n)
    (near : Loose ok ∨ opLoc.Near) : Ends ok (unary op (c.session.tree.handle x.index) opLoc) c
    (c.Gives ok rest (c.Typed names (unaryPlace op x opLoc) [x])) := by
  have has := carries.has (r := x) List.mem_cons_self
  have refused {loc : Location} (d : Diagnostic) :
    Ends ok (refuse opLoc d) c (c.Gives ok rest (c.Typed names loc [x])) :=
    refuse_ends [x] fine carries near d
  have both := or_and operand.node.near near
  have int : c.session.types.Named TypeId.int := fine.scalar (by decide) (by decide)
  rw [unary]
  refine .step (isBroken_run _ c) ?_
  rw [carries.isBroken List.mem_cons_self]
  refine .step (types_run c) (.step (typeOf_run has) (.step (locationOf_run has) ?_))
  have spanned : Loose ok ∨ (unaryPlace op x opLoc).Near := by
    refine both.imp_right fun near => ?_
    rw [unaryPlace]
    split
    · exact near.1.span near.2
    · exact near.2.span near.1
  rw [← unaryPlace]
  generalize unaryPlace op x opLoc = loc at spanned
  -- A step of a variable demands a place and arithmetic, whichever it is.
  have step (op : UnaryOp) (listed : ∀ n, op ≠ .unlisted n) (rule : ∀ y, y.unaryOp = op →
      x.isPlace = true → TypeId.isArithmetic x.exprType = true → y.exprType = x.exprType →
      y.isPlace = false → c.session.UnaryRule y x) : Ends ok (do
        if !(← isPlace (c.session.tree.handle x.index))
          then return ← refuse opLoc (.plain .incDecNotLvalue)
        if !TypeId.isArithmetic x.exprType then return ← refuse opLoc (.plain .notArithmetic)
        buildExpr .unary x.exprType .value loc [op.number] [c.session.tree.handle x.index]) c
          (c.Gives ok rest (c.Typed names loc [x])) := by
    refine .step (isPlace_run has) ?_
    split
    next => exact refused _
    next place =>
      split
      next => exact refused _
      next arithmetic =>
        exact buildUnary_ends fine carries operand listed operand.node.type
          .value spanned fun y isOp type value =>
          rule y isOp (by simpa using place) (by simpa using arithmetic) type value
  cases op with
  | unlisted n => exact (listed n rfl).elim
  | address =>
    refine .step (isPlace_run has) ?_
    split
    next => exact refused _
    next place => exact address_ends fine carries operand (by simpa using place) spanned
  | indirection =>
    dsimp only
    split
    next => exact refused _
    next pointer =>
      obtain ⟨e, read, named, -⟩ := operand.node.type.element
      have listed : ∀ n, UnaryOp.indirection ≠ .unlisted n := by simp
      refine .step (lift_run read) (buildUnary_ends fine carries operand listed named
        .place spanned fun y isOp type place => ?_)
      unfold Session.UnaryRule
      rw [isOp]
      exact ⟨by simpa using pointer, type ▸ read, place⟩
  | minus | absolute =>
    dsimp only
    split
    next => exact refused _
    next arithmetic =>
      have arithmetic : TypeId.isArithmetic x.exprType = true := by simpa using arithmetic
      refine foldUnary_ends fine carries operand
        (by simp) operand.node.type arithmetic spanned fun y isOp type value => ?_
      unfold Session.UnaryRule
      rw [isOp]
      exact ⟨arithmetic, type, value⟩
  | complement =>
    dsimp only
    split
    next => exact refused _
    next integer =>
      refine foldUnary_ends fine carries operand (by simp) int rfl spanned fun y isOp type value =>
        ?_
      unfold Session.UnaryRule
      rw [isOp]
      exact ⟨by simpa using integer, type, value⟩
  | logicalNot =>
    dsimp only
    split
    next => exact refused _
    next scalar =>
      refine foldUnary_ends fine carries operand (by simp) int rfl spanned fun y isOp type value =>
        ?_
      unfold Session.UnaryRule
      rw [isOp]
      exact ⟨by simpa using scalar, type, value⟩
  | postIncrement | postDecrement | preIncrement | preDecrement =>
    refine step _ (by simp) fun y isOp place arithmetic type value => ?_
    unfold Session.UnaryRule
    rw [isOp]
    exact ⟨place, arithmetic, type, value⟩

/-! ## Binary operators -/

/-- A state after warnings only. -/
structure Quiet (ok : Fault → Prop) (c c' : Checker) : Prop where
  same : ∃ j, c' = c.withJournal j
  fine : c'.Fine ok
  onward : c.Onward c'
  errors : c'.errors = c.errors

theorem Quiet.refl (fine : c.Fine ok) : c.Quiet ok c :=
  ⟨⟨c.session.journal, rfl⟩, fine, .refl c, rfl⟩

theorem warn_quiet (fine : c.Fine ok) (near : Loose ok ∨ loc.Near) (w : Warning) (d : Diagnostic) :
    Ends ok (warn w loc d) c fun _ c' => c.Quiet ok c' := by
  refine (warn_ends fine near w d).mono fun _ c' ⟨j, reports, same, adds, warnings⟩ => ?_
  subst same
  have none : reports.countP (fun r => r.severity == .error) = 0 :=
    List.countP_eq_zero.mpr fun r mem => by rw [warnings r mem]; exact nofun
  exact ⟨⟨j, rfl⟩, fine.withJournal adds, onward_withJournal adds,
    (errors_withJournal adds).trans (by rw [none]; rfl)⟩

/-- A warning that is given under a condition. -/
theorem warned_ends {β : Type} {R : β → Checker → Prop} {next : Unit → Check β}
    {w : Warning} {d : Diagnostic} {p : Prop} [Decidable p] (fine : c.Fine ok)
    (near : Loose ok ∨ loc.Near) (after : ∀ c', c.Quiet ok c' → Ends ok (next ()) c' R) :
    Ends ok (if p then warn w loc d >>= next else next ()) c R := by
  split
  · exact (warn_quiet fine near w d).bind fun _ c' quiet => after c' quiet
  · exact after c (.refl fine)

/-- The constant that a binary operator gives is arithmetic if the expression is. -/
theorem binaryConstant_ends (hasL : c.session.tree.Has l) (hasR : c.session.tree.Has r)
    (op : BinaryOp) (type : TypeId) : Ends ok (binaryConstant? op type
      (c.session.tree.handle l.index) (c.session.tree.handle r.index)) c fun found c' =>
      c' = c ∧ ∀ type' word cut, found = some (type', word, cut) → type' = TypeId.float ∨
          type' = TypeId.int ∨ type' = type := by
  obtain ⟨fold, asked⟩ := folding_run c
  obtain ⟨v, first⟩ := literalFloat_run hasL
  obtain ⟨w, second⟩ := literalFloat_run hasR
  rw [binaryConstant?]
  refine .step asked (.step (isLiteral_run hasL) (.step (isLiteral_run hasR) ?_))
  split
  next => exact .pure ⟨rfl, by simp⟩
  refine .step (tree_run c) (.step (typeOf_run hasL) ?_)
  split
  next =>
    refine .step (lift_run first) (.step (lift_run second) ?_)
    split
    next =>
      refine .pure ⟨rfl, fun type' word cut found => .inr (.inl ?_)⟩
      obtain ⟨_, _, same⟩ := Option.map_eq_some_iff.mp found
      exact (Prod.mk.inj same).1.symm
    next =>
      refine .pure ⟨rfl, fun type' word cut found => .inl ?_⟩
      obtain ⟨_, _, same⟩ := Option.map_eq_some_iff.mp found
      exact (Prod.mk.inj same).1.symm
  next =>
    refine .step (lift_run hasL.payload)
      (.step (lift_run hasR.payload) (.pure ⟨rfl, fun type' word cut found => .inr (.inr ?_)⟩))
    obtain ⟨v, _, same⟩ := Option.map_eq_some_iff.mp found
    split at same <;> exact (Prod.mk.inj same).1.symm

/-- A binary expression is built above its operands. -/
theorem buildBinary_ends {op : BinaryOp} (fine : c.Fine ok)
    (carries : c.session.tree.Carries (l :: r :: rest)) (left : c.session.types.Operand ok l)
    (right : c.session.types.Operand ok r) (listed : ∀ n, op ≠ .unlisted n)
    (named : c.session.types.Named type) (near : Loose ok ∨ loc.Near) (rule : ∀ y, y.binaryOp = op →
      y.exprType = type → y.isPlace = false → c.session.BinaryRule y l r) :
    Ends ok (buildExpr .binary type .value loc [op.number] [c.session.tree.handle l.index,
      c.session.tree.handle r.index]) c (c.Gives ok rest (c.Typed names loc [l, r])) := by
  refine buildExpr_gives [l, r] fine carries rfl named .value near _ nofun
    (by simp [left, right]) fun _ y built => ?_
  have isOp : y.binaryOp = op := by
    rw [Rose.binaryOp, show y.arg 2 = op.number from built.arg 0, BinaryOp.ofNumber_number listed]
  unfold Session.Rule
  rw [built.kind, built.kids]
  exact rule y isOp built.exprType built.place

theorem foldBinary_ends {op : BinaryOp} (fine : c.Fine ok)
    (carries : c.session.tree.Carries (l :: r :: rest)) (left : c.session.types.Operand ok l)
    (right : c.session.types.Operand ok r) (listed : ∀ n, op ≠ .unlisted n)
    (named : c.session.types.Named type) (arithmetic : TypeId.isArithmetic type = true)
    (near : Loose ok ∨ loc.Near) (rule : ∀ y, y.binaryOp = op →
      y.exprType = type → y.isPlace = false → c.session.BinaryRule y l r) :
    Ends ok (foldBinary op type (c.session.tree.handle l.index) (c.session.tree.handle r.index) loc)
    c (c.Gives ok rest (c.Typed names loc [l, r])) := by
  rw [foldBinary]
  refine (binaryConstant_ends (carries.has (by simp)) (carries.has (by simp)) op type).bind ?_
  rintro found c' ⟨rfl, typed⟩
  cases found with
  | none => exact buildBinary_ends fine carries left right listed named near rule
  | some constant =>
    obtain ⟨type', word, cut⟩ := constant
    have literal : TypeId.isArithmetic type' = true ∧ c'.session.types.Named type' := by
      rcases typed type' word cut rfl with rfl | rfl | rfl
      · exact ⟨rfl, fine.scalar (by decide) (by decide)⟩
      · exact ⟨rfl, fine.scalar (by decide) (by decide)⟩
      · exact ⟨arithmetic, named⟩
    refine warned_ends fine near fun c₁ quiet => ?_
    obtain ⟨j, rfl⟩ := quiet.same
    obtain ⟨t, removedR, leftL, keepsL⟩ :=
      discard_run (c := c'.withJournal j) (carries.perm (.swap r l rest))
    obtain ⟨u, removedL, left, keeps⟩ := discard_run (c := (c'.withJournal j).withTree t) leftL
    have same : t.handle l.index = c'.session.tree.handle l.index := keepsL l List.mem_cons_self
    rw [show ((c'.withJournal j).withTree t).session.tree.handle l.index = _ from same] at removedL
    refine .step removedR (.step removedL ?_)
    have onward := (quiet.onward.trans (onward_withTree _ t)).trans (onward_withTree _ u)
    refine (buildConstant_ends ((quiet.fine.withTree t).withTree u) left literal.2 literal.1
      near word).typed_after onward quiet.errors (fun x mem => ?_) (by simp) fun y spreads =>
      spreads.above [l, r]
    exact (keeps x mem).trans (keepsL x (List.mem_cons_of_mem l mem))

/-! ## A common type -/

theorem floating_iff : TypeId.isFloating type = true ↔ type = TypeId.float := by
  simp [TypeId.isFloating]

theorem integer_of_arithmetic (arithmetic : TypeId.isArithmetic type = true)
    (discrete : TypeId.isFloating type = false) : TypeId.isInteger type = true := by
  simpa [TypeId.isArithmetic, discrete] using arithmetic

/-- Two operands of a type that both have. -/
def Shared (l r : Rose) (type : TypeId) : Prop :=
  (TypeId.isFloating l.exprType = true ∧ TypeId.isFloating r.exprType = true ∧ type = TypeId.float)
    ∨ (TypeId.isInteger l.exprType = true ∧ TypeId.isInteger r.exprType = true ∧ type = TypeId.int)

theorem Shared.alike (shared : Shared l r type) : TypeId.Alike l.exprType r.exprType :=
  shared.imp (fun both => ⟨both.1, both.2.1⟩) fun both => ⟨both.1, both.2.1⟩

theorem Shared.arithmetic (shared : Shared l r type) : TypeId.isArithmetic type = true := by
  rcases shared with ⟨_, _, rfl⟩ | ⟨_, _, rfl⟩ <;> rfl

/-- What became of two operands that got a common type. -/
structure Unified (ok : Fault → Prop) (c : Checker) (rest : List Rose) (l r : Rose)
    (out : Handle × Handle × TypeId) (t : Arena) (l' r' : Rose) : Prop where
  left : out.1 = t.handle l'.index
  right : out.2.1 = t.handle r'.index
  carries : t.Carries (l' :: r' :: rest)
  kept : ∀ i, t.generation i = c.session.tree.generation i
  first : c.session.types.Operand ok l'
  second : c.session.types.Operand ok r'
  shared : Shared l' r' out.2.2
  ruled : ∀ names str, c.session.Ruled names str l → c.session.Ruled names str r →
    c.session.Ruled names str l' ∧ c.session.Ruled names str r'
  places : List.Forall₂ InPlaceOf [l, r] [l', r']

theorem unify_ends (carries : c.session.tree.Carries (l :: r :: rest))
    (left : c.session.types.Operand ok l) (right : c.session.types.Operand ok r)
    (first : TypeId.isArithmetic l.exprType = true)
    (second : TypeId.isArithmetic r.exprType = true) :
    Ends ok (unify (c.session.tree.handle l.index) (c.session.tree.handle r.index)) c fun out c' =>
      ∃ t l' r', c' = c.withTree t ∧ c.Unified ok rest l r out t l' r' := by
  have float : TypeId.isFloating TypeId.float = true := rfl
  rw [unify]
  refine .step (typeOf_run (carries.has (by simp))) (.step (typeOf_run (carries.has (by simp))) ?_)
  dsimp only
  split
  next mixed =>
    obtain ⟨floating, discrete⟩ : TypeId.isFloating l.exprType = true ∧
      TypeId.isFloating r.exprType = false := by
      simpa using mixed
    obtain ⟨t, r', run, swaps, recast⟩ := cast_swaps (carries.perm (.swap r l rest)) TypeId.float
    have type := recast.exprType right.node
    refine .step run (.pure ⟨t, l, r', rfl, (swaps.same _).symm, rfl,
      swaps.carries.perm (.swap l r' rest), swaps.kept, left, recast.operand right float,
      .inl ⟨floating, floating_iff.2 type, rfl⟩, fun names str ruledL ruledR => ⟨ruledL, ?_⟩,
      .cons (inPlaceOf_self l) (.cons (recast.inPlace right.node) .nil)⟩)
    exact recast.ruled right.node ruledR (integer_of_arithmetic second discrete) float
  next =>
    split
    next mixed =>
      obtain ⟨floating, discrete⟩ : TypeId.isFloating r.exprType = true ∧
        TypeId.isFloating l.exprType = false := by
        simpa using mixed
      obtain ⟨t, l', run, swaps, recast⟩ := cast_swaps carries TypeId.float
      have type := recast.exprType left.node
      refine .step run (.pure ⟨t, l', r, rfl, rfl, (swaps.same _).symm, swaps.carries, swaps.kept,
        recast.operand left float, right, .inl ⟨floating_iff.2 type, floating, rfl⟩,
        fun names str ruledL ruledR => ⟨?_, ruledR⟩,
        .cons (recast.inPlace left.node) (.cons (inPlaceOf_self r) .nil)⟩)
      exact recast.ruled left.node ruledL (integer_of_arithmetic first discrete) float
    next notLeft notRight =>
      refine .pure ⟨c.session.tree, l, r, rfl, rfl, rfl, carries, fun _ => rfl, left, right, ?_,
        fun _ _ a b => ⟨a, b⟩, .cons (inPlaceOf_self l) (.cons (inPlaceOf_self r) .nil)⟩
      cases isL : TypeId.isFloating l.exprType with
      | true =>
        have isR : TypeId.isFloating r.exprType = true := by simpa [isL] using notLeft
        exact .inl ⟨isL, isR, rfl⟩
      | false =>
        have isR : TypeId.isFloating r.exprType = false := by simpa [isL] using notRight
        exact .inr ⟨integer_of_arithmetic first isL, integer_of_arithmetic second isR, rfl⟩

/-- A rule goes on with two operands that got a common type. -/
theorem unified_ends (next : Handle → Handle → TypeId → Check Handle)
    (carries : c.session.tree.Carries (l :: r :: rest))
    (fine : c.Fine ok) (left : c.session.types.Operand ok l) (right : c.session.types.Operand ok r)
    (first : TypeId.isArithmetic l.exprType = true) (second : TypeId.isArithmetic r.exprType = true)
    (after : ∀ t l' r' type, (c.withTree t).Fine ok → t.Carries (l' :: r' :: rest) →
      (∀ i, t.generation i = c.session.tree.generation i) →
      c.session.types.Operand ok l' → c.session.types.Operand ok r' → Shared l' r' type →
      Ends ok (next (t.handle l'.index) (t.handle r'.index) type) (c.withTree t)
      ((c.withTree t).Gives ok rest ((c.withTree t).Typed names loc [l', r']))) : Ends ok (do
      let (l, r, type) ← unify (c.session.tree.handle l.index) (c.session.tree.handle r.index)
      next l r type) c (c.Gives ok rest (c.Typed names loc [l, r])) := by
  refine (unify_ends carries left right first second).bind ?_
  rintro ⟨n, m, type⟩ _ ⟨t, l', r', rfl, done⟩
  obtain rfl := done.left
  obtain rfl := done.right
  refine (after t l' r' type (fine.withTree t) done.carries done.kept done.first done.second
    done.shared).mono fun n c' gives => ?_
  refine gives.typed_after (onward_withTree c t) rfl (fun x _ =>
    Arena.handle_kept done.kept x.index) (fun before => ?_) fun x spreads =>
    spreads.after done.places
  obtain ⟨ruledL, ruledR⟩ := done.ruled names c.stringType (before l (by simp)) (before r (by simp))
  exact List.forall_mem_cons.mpr ⟨ruledL, List.forall_mem_singleton.mpr ruledR⟩

/-! ## Assignments -/

theorem Suits.integer {want got : TypeId} (suits : TypeId.Suits want got)
    (integer : TypeId.isInteger want = true) : TypeId.isInteger got = true := by
  rcases suits with ⟨float, -⟩ | ⟨-, same⟩ | rfl
  · obtain rfl := floating_iff.1 float
    cases integer
  · exact same
  · exact integer

theorem Suits.arithmetic {want got : TypeId} (suits : TypeId.Suits want got)
    (arithmetic : TypeId.isArithmetic want = true) : TypeId.isArithmetic got = true := by
  rcases suits with ⟨-, float⟩ | ⟨-, integer⟩ | rfl
  · simp [TypeId.isArithmetic, float]
  · simp [TypeId.isArithmetic, integer]
  · exact arithmetic

/-- A value is converted to the type of its place and stored there. -/
theorem store_ends (names : Session.NameEnds) {op : BinaryOp} (fine : c.Fine ok)
    (carries : c.session.tree.Carries (l :: r :: rest)) (left : c.session.types.Operand ok l)
    (right : c.session.types.Operand ok r) (listed : ∀ n, op ≠ .unlisted n)
    (isAssignment : op.isAssignment = true) (notArray : c.session.types.isArray l.exprType = false)
    (place : l.isPlace = true) (compound : op ≠ .assign → TypeId.isArithmetic l.exprType = true)
    (whole : op.isIntegerOnly = true → TypeId.isInteger l.exprType = true) : Ends ok (do
      let (value, problem) ← convert l.exprType (c.session.tree.handle r.index)
      match problem with
      | some d => refuse (← locationOf value) d
      | none =>
        let loc := Location.span (← locationOf (c.session.tree.handle l.index)) (← locationOf value)
        buildExpr .assignment l.exprType .value loc [op.number]
          [c.session.tree.handle l.index, value]) c
      (c.Gives ok rest (c.Typed names (Location.span l.location r.location) [l, r])) := by
  refine (convert_ends fine left.node.type (carries.perm (.swap r l rest)) right).bind ?_
  rintro ⟨n, problem⟩ _ ⟨t, v, rfl, swaps, converted, -, good⟩
  obtain rfl := swaps.handle
  have keeps : c.session.tree.Keeps t rest := fun x _ => swaps.same x.index
  have hasV := swaps.carries.has (r := v) (by simp)
  cases problem with
  | some d =>
    refine .step (locationOf_run (c := c.withTree t) hasV) ?_
    have refused : Ends ok (refuse v.location d) (c.withTree t)
      ((c.withTree t).Gives ok rest (c.Typed names (Location.span l.location r.location) [l, r])) :=
      refuse_ends [v, l] (fine.withTree t) swaps.carries converted.node.near d
    exact refused.mono fun n c' gives => gives.after (onward_withTree c t) rfl keeps
  | none =>
    -- the value may be another node now, but it stands in the place of the old one
    obtain ⟨suits, ruled, place'⟩ := good rfl
    have suits := suits_of_matches suits
    have located := locationOf_run (c := c.withTree t) (swaps.carries.has (r := l) (by simp))
    rw [show (c.withTree t).session.tree.handle l.index = _ from swaps.same l.index] at located
    refine .step located (.step (locationOf_run (c := c.withTree t) hasV) ?_)
    rw [← swaps.same l.index]
    have both := or_and left.node.near converted.node.near
    rw [← place'.location]
    refine Ends.typed_after (buildExpr_gives (c := c.withTree t) [l, v] (fine.withTree t)
      (swaps.carries.perm (.swap l v rest)) rfl left.node.type .value (both.imp_right fun near =>
      near.1.span near.2) [op.number] nofun (List.forall_mem_cons.mpr ⟨left,
      List.forall_mem_singleton.mpr converted⟩) fun before y built => ?_)
      (onward_withTree c t) rfl keeps (fun before => ?_) fun x spreads =>
        spreads.after (.cons (inPlaceOf_self l) (.cons place' .nil))
    · have isOp : y.binaryOp = op := by
        rw [Rose.binaryOp, show y.arg 2 = op.number from built.arg 0,
          BinaryOp.ofNumber_number listed]
      unfold Session.Rule
      rw [built.kind, built.kids]
      refine ⟨built.place, by rwa [isOp], place, notArray, built.exprType, suits, ?_, ?_⟩
        <;> rw [isOp]
      · exact fun other => ⟨compound other, Suits.arithmetic suits (compound other)⟩
      · exact fun only => ⟨whole only, Suits.integer suits (whole only)⟩
    · exact List.forall_mem_cons.mpr ⟨before l (by simp),
        List.forall_mem_singleton.mpr (ruled _ _ (before r (by simp)))⟩

theorem assignment_ends {op : BinaryOp} (fine : c.Fine ok)
    (carries : c.session.tree.Carries (l :: r :: rest)) (left : c.session.types.Operand ok l)
    (right : c.session.types.Operand ok r) (listed : ∀ n, op ≠ .unlisted n)
    (isAssignment : op.isAssignment = true) (near : Loose ok ∨ opLoc.Near) :
    Ends ok (assignment op (c.session.tree.handle l.index) (c.session.tree.handle r.index) opLoc) c
    (c.Gives ok rest (c.Typed names (Location.span l.location r.location) [l, r])) := by
  have hasL := carries.has (r := l) (by simp)
  have hasR := carries.has (r := r) (by simp)
  have refused (d : Diagnostic) : Ends ok (refuse opLoc d) c
    (c.Gives ok rest (c.Typed names (Location.span l.location r.location) [l, r])) :=
    refuse_ends [l, r] fine carries near d
  rw [assignment]
  refine .step (typeOf_run hasL) (.step (typeOf_run hasR) (.step (types_run c) ?_))
  split
  next => exact refused _
  next notArray =>
    refine .step (isPlace_run hasL) ?_
    split
    next => exact refused _
    next place =>
      have store := store_ends names fine carries left right listed isAssignment
        (by simpa using notArray) (by simpa using place)
      dsimp only
      split
      next compound =>
        split
        next => exact refused _
        next whole =>
          split
          next => exact refused _
          next arithmetic =>
            refine store (fun _ => ?_) fun only => ?_
            · exact (by simpa using arithmetic : TypeId.isArithmetic l.exprType = true ∧ _).1
            · exact (by simpa [only] using whole : TypeId.isInteger l.exprType = true ∧ _).1
      next simple =>
        obtain rfl : op = .assign := by simpa using simple
        exact store (fun other => (other rfl).elim) fun remainder => by cases remainder

/-! ## Comparisons and arithmetic -/

theorem binaryRule_congr {s t : Session} (same : t.types = s.types) (rule : s.BinaryRule y l r) :
    t.BinaryRule y l r := by
  rw [Session.BinaryRule, same]
  exact rule

/-- An operator on two operands that get a common type. -/
theorem foldUnified_ends {op : BinaryOp} (fine : c.Fine ok)
    (carries : c.session.tree.Carries (l :: r :: rest)) (left : c.session.types.Operand ok l)
    (right : c.session.types.Operand ok r) (listed : ∀ n, op ≠ .unlisted n)
    (first : TypeId.isArithmetic l.exprType = true) (second : TypeId.isArithmetic r.exprType = true)
    (spanned : Loose ok ∨ loc.Near) (result : TypeId → TypeId) (arithmetic :
      ∀ type, TypeId.isArithmetic type = true → TypeId.isArithmetic (result type) = true)
    (rule : ∀ l r y type, Shared l r type → y.binaryOp = op → y.exprType = result type →
      y.isPlace = false → c.session.BinaryRule y l r) : Ends ok (do
      let (l, r, type) ← unify (c.session.tree.handle l.index) (c.session.tree.handle r.index)
      foldBinary op (result type) l r loc) c (c.Gives ok rest (c.Typed names loc [l, r])) := by
  refine unified_ends (fun l r type =>
    foldBinary op (result type) l r loc) carries fine left right first second ?_
  intro t l' r' type fine' carries' kept left' right' shared
  have known := arithmetic type shared.arithmetic
  have scalar : (c.withTree t).session.types.Named (result type) := by
    have cases : result type = TypeId.int ∨ result type = TypeId.char ∨
      result type = TypeId.float := by
      simpa [TypeId.isArithmetic, TypeId.isInteger, TypeId.isFloating, or_assoc] using known
    rcases cases with same | same | same <;> rw [same] <;>
      exact fine'.scalar (by decide) (by decide)
  exact foldBinary_ends (c := c.withTree t) fine' carries' left' right' listed scalar known spanned
    fun y isOp typed value =>
    binaryRule_congr rfl (rule l' r' y type shared isOp typed value)

/-- Two operands are compared for equality. -/
theorem compare_ends {op : BinaryOp} (fine : c.Fine ok)
    (carries : c.session.tree.Carries (l :: r :: rest)) (left : c.session.types.Operand ok l)
    (right : c.session.types.Operand ok r) (isEquality : op.isEquality = true)
    (near : Loose ok ∨ opLoc.Near) (spanned : Loose ok ∨ loc.Near) : Ends ok (do
      if TypeId.isArithmetic l.exprType && TypeId.isArithmetic r.exprType then
        let (l, r, _) ← unify (c.session.tree.handle l.index) (c.session.tree.handle r.index)
        return ← foldBinary op TypeId.int l r loc
      let types ← types
      if types.isPointer l.exprType then
        if ← types.equal l.exprType r.exprType then
          return ← buildExpr .binary TypeId.int .value loc [op.number]
              [c.session.tree.handle l.index, c.session.tree.handle r.index]
      refuse opLoc (.mismatch (← typeName l.exprType) (← typeName r.exprType))) c (c.Gives ok rest
          (c.Typed names loc [l, r])) := by
  have listed : ∀ n, op ≠ .unlisted n := fun n unlisted => by
    rw [unlisted] at isEquality
    cases isEquality
  -- equal operands of one type are right, whether they are numbers or pointers
  have rule (l r y : Rose) (isOp : y.binaryOp = op) (type : y.exprType = TypeId.int)
      (value : y.isPlace = false) (both : TypeId.Alike l.exprType r.exprType ∨
      (c.session.types.isPointer l.exprType = true ∧ l.exprType = r.exprType)) :
      c.session.BinaryRule y l r := by
    refine ⟨value, ?_⟩
    rw [isOp]
    cases op with
    | equal | notEqual => exact ⟨both, type⟩
    | _ => cases isEquality
  have refused :
      Ends ok (do refuse opLoc (.mismatch (← typeName l.exprType) (← typeName r.exprType))) c
      (c.Gives ok rest (c.Typed names loc [l, r])) := by
    refine (typeName_ends fine left.node.type).bind fun _ _ same => ?_
    subst same
    refine (typeName_ends fine right.node.type).bind fun _ _ same => ?_
    subst same
    exact refuse_ends [l, r] fine carries near _
  split
  next arithmetic =>
    obtain ⟨first, second⟩ : TypeId.isArithmetic l.exprType = true ∧
      TypeId.isArithmetic r.exprType = true := by
      simpa using arithmetic
    exact foldUnified_ends fine carries left right listed first second spanned
      (fun _ => TypeId.int) (fun _ _ => rfl) fun l r y type shared isOp typed value =>
      rule l r y isOp typed value (.inl shared.alike)
  next =>
    refine .step (types_run c) ?_
    split
    next pointer =>
      refine .lift (TypeTable.equal_ends fine.short left.node.type right.node.type)
        fun same equal => ?_
      subst equal
      split
      next equal =>
        have int : c.session.types.Named TypeId.int := fine.scalar (by decide) (by decide)
        exact buildBinary_ends fine carries left right listed int spanned fun y isOp typed value =>
          rule l r y isOp typed value (.inr ⟨pointer, by simpa using equal⟩)
      next => exact refused
    next => exact refused

theorem equality_ends {op : BinaryOp} (fine : c.Fine ok)
    (carries : c.session.tree.Carries (l :: r :: rest)) (left : c.session.types.Operand ok l)
    (right : c.session.types.Operand ok r) (isEquality : op.isEquality = true)
    (near : Loose ok ∨ opLoc.Near) (spanned : Loose ok ∨ loc.Near) :
    Ends ok (equality op (c.session.tree.handle l.index) (c.session.tree.handle r.index) opLoc loc)
    c (c.Gives ok rest (c.Typed names loc [l, r])) := by
  rw [equality]
  refine .step (typeOf_run (carries.has (by simp))) (.step (typeOf_run (carries.has (by simp)))
    (warned_ends fine near fun c₁ quiet => ?_))
  obtain ⟨j, rfl⟩ := quiet.same
  refine (compare_ends (c := c.withJournal j) quiet.fine carries left right isEquality near
    spanned).typed_after quiet.onward quiet.errors (.refl _ _) (fun before k mem => ?_) fun x => id
  have operand : c.session.types.Operand ok k := by
    rcases List.mem_pair.mp mem with rfl | rfl
    · exact left
    · exact right
  exact (before k mem).later operand quiet.onward.later fine.regular.types

theorem binary_ends {op : BinaryOp} (fine : c.Fine ok)
    (carries : c.session.tree.Carries (l :: r :: rest))
    (left : c.session.types.Operand ok l) (right : c.session.types.Operand ok r)
    (listed : ∀ n, op ≠ .unlisted n) (near : Loose ok ∨ opLoc.Near) :
    Ends ok (binary op (c.session.tree.handle l.index) (c.session.tree.handle r.index) opLoc) c
    (c.Gives ok rest (c.Typed names (Location.span l.location r.location) [l, r])) := by
  have hasL := carries.has (r := l) (by simp)
  have hasR := carries.has (r := r) (by simp)
  have refused (d : Diagnostic) : Ends ok (refuse opLoc d) c
    (c.Gives ok rest (c.Typed names (Location.span l.location r.location) [l, r])) :=
    refuse_ends [l, r] fine carries near d
  have int : c.session.types.Named TypeId.int := fine.scalar (by decide) (by decide)
  have spanned : Loose ok ∨ (Location.span l.location r.location).Near :=
    (or_and left.node.near right.node.near).imp_right fun near => near.1.span near.2
  rw [binary]
  refine .step (anyBroken_run [l, r] (by simp [hasL, hasR])) ?_
  simp only [Bool.false_eq_true, if_false]
  split
  next isAssignment => exact assignment_ends fine carries left right listed isAssignment near
  next simple =>
  refine .step (types_run c) (.step (typeOf_run hasL)
    (.step (typeOf_run hasR) (.step (locationOf_run hasL) (.step (locationOf_run hasR) ?_))))
  split
  -- the checks come in the order of the program, each for the operators that are left
  next comma =>
    obtain rfl : op = .comma := by simpa using comma
    refine buildBinary_ends fine carries left right listed right.node.type spanned
      fun y isOp typed value => ⟨value, ?_⟩
    rw [isOp]
    exact typed
  split
  next integerOnly =>
    split
    next => exact refused _
    next integers =>
      have integers : TypeId.isInteger l.exprType = true ∧ TypeId.isInteger r.exprType = true := by
        simpa using integers
      refine foldBinary_ends fine carries left right listed int rfl spanned
        fun y isOp typed value => ⟨value, ?_⟩
      rw [isOp]
      cases op with
      | rem | shl | shr | and | xor | or => exact ⟨integers.1, integers.2, typed⟩
      | remAssign | shlAssign | shrAssign | andAssign | xorAssign | orAssign =>
        exact (simple rfl).elim
      | _ => cases integerOnly
  split
  next logical =>
    split
    next => exact refused _
    next scalars =>
      have scalars : c.session.types.isScalar l.exprType = true ∧
        c.session.types.isScalar r.exprType = true := by
        simpa using scalars
      refine foldBinary_ends fine carries left right listed int rfl spanned
        fun y isOp typed value => ⟨value, ?_⟩
      rw [isOp]
      cases op with
      | logicalAnd | logicalOr => exact ⟨scalars.1, scalars.2, typed⟩
      | _ => cases logical
  split
  next isEquality => exact equality_ends fine carries left right isEquality near spanned
  -- what is left are the arithmetic operators and the orders, whose operands come to one type
  next notComma notInteger notLogical notEquality =>
    split
    next => exact refused _
    next arithmetic =>
      obtain ⟨first, second⟩ : TypeId.isArithmetic l.exprType = true ∧
        TypeId.isArithmetic r.exprType = true := by
        simpa using arithmetic
      refine foldUnified_ends fine carries left right listed first second spanned
        (fun type => if op.isComparison then TypeId.int else type) (fun type known =>
        ?_) fun l r y type shared isOp typed value => ⟨value, ?_⟩
      · split
        · rfl
        · exact known
      · rw [isOp]
        cases op with
        | unlisted n => exact (listed n rfl).elim
        | mul | div | add | sub =>
          rw [show y.exprType = type from typed]
          exact shared
        | less | greater | lessEqual | greaterEqual => exact ⟨shared.alike, typed⟩
        | comma => exact (notComma rfl).elim
        | rem | shl | shr | and | xor | or => exact (notInteger rfl).elim
        | logicalAnd | logicalOr => exact (notLogical rfl).elim
        | equal | notEqual => exact (notEquality rfl).elim
        | _ => exact (simple rfl).elim

/-! ## Other expressions -/

/-- A conditional expression is built above its operands. -/
theorem buildTernary_ends {cond : Rose} (fine : c.Fine ok)
    (carries : c.session.tree.Carries (cond :: l :: r :: rest))
    (first : c.session.types.Operand ok cond)
    (left : c.session.types.Operand ok l) (right : c.session.types.Operand ok r)
    (named : c.session.types.Named type) (scalar : c.session.types.isScalar cond.exprType = true)
    (agrees : Shared l r type ∨ (type = l.exprType ∧ l.exprType = r.exprType)) : Ends ok (do
      buildExpr .ternary type .value
          (Location.span (← locationOf (c.session.tree.handle cond.index))
            (← locationOf (c.session.tree.handle r.index))) [] [c.session.tree.handle cond.index,
            c.session.tree.handle l.index, c.session.tree.handle r.index]) c
      (c.Gives ok rest (c.Typed names (Location.span cond.location r.location) [cond, l, r])) := by
  refine .step (locationOf_run (carries.has (by simp)))
    (.step (locationOf_run (carries.has (by simp))) ?_)
  refine buildExpr_gives [cond, l, r] fine carries rfl named .value ?_ [] nofun
    (by simp [first, left, right]) fun _ y built => ?_
  · exact (or_and first.node.near right.node.near).imp_right fun near => near.1.span near.2
  · unfold Session.Rule
    rw [built.kind, built.kids]
    refine ⟨built.place, scalar, ?_⟩
    rw [built.exprType]
    rcases agrees with (floating | integer) | same
    · exact .inl floating
    · exact .inr (.inl integer)
    · exact .inr (.inr same)

theorem ternary_ends {cond : Rose} (fine : c.Fine ok)
    (carries : c.session.tree.Carries (cond :: l :: r :: rest))
    (first : c.session.types.Operand ok cond) (left : c.session.types.Operand ok l)
    (right : c.session.types.Operand ok r) (near : Loose ok ∨ opLoc.Near) :
    Ends ok (ternary (c.session.tree.handle cond.index)
      (c.session.tree.handle l.index) (c.session.tree.handle r.index) opLoc) c
    (c.Gives ok rest (c.Typed names (Location.span cond.location r.location) [cond, l, r])) := by
  have hasC := carries.has (r := cond) (by simp)
  have hasL := carries.has (r := l) (by simp)
  have hasR := carries.has (r := r) (by simp)
  rw [ternary]
  refine .step (anyBroken_run [cond, l, r] (by simp [hasC, hasL, hasR]))
    (.step (types_run c) (.step (typeOf_run hasC) ?_))
  split
  next =>
    exact .step (locationOf_run hasC) (refuse_ends [cond, l, r] fine carries first.node.near _)
  next scalar =>
    have scalar : c.session.types.isScalar cond.exprType = true := by simpa using scalar
    refine .step (typeOf_run hasL) (.step (typeOf_run hasR) ?_)
    dsimp only
    split
    next arithmetic =>
      obtain ⟨arithmeticL, arithmeticR⟩ : TypeId.isArithmetic l.exprType = true ∧
        TypeId.isArithmetic r.exprType = true := by
        simpa using arithmetic
      -- the two values are unified in front of the condition, and the condition is put back first
      have order : (cond :: l :: r :: rest).Perm (l :: r :: cond :: rest) :=
        (@List.perm_middle _ cond [l, r] rest).symm
      refine (unify_ends (carries.perm order) left right arithmeticL arithmeticR).bind ?_
      rintro ⟨n, m, type⟩ _ ⟨t, l', r', rfl, done⟩
      obtain rfl := done.left
      obtain rfl := done.right
      have back : (l' :: r' :: cond :: rest).Perm (cond :: l' :: r' :: rest) :=
        @List.perm_middle _ cond [l', r'] rest
      have same (x : Rose) : t.handle x.index = c.session.tree.handle x.index :=
        Arena.handle_kept done.kept x.index
      have named : c.session.types.Named type := by
        rcases done.shared with ⟨_, _, rfl⟩ | ⟨_, _, rfl⟩ <;>
          exact fine.scalar (by decide) (by decide)
      rw [← same cond]
      obtain ⟨-, placeR⟩ : l.InPlaceOf l' ∧ r.InPlaceOf r' := by simpa using done.places
      rw [← placeR.location]
      refine (buildTernary_ends (c := c.withTree t) (fine.withTree t) (done.carries.perm back)
        first done.first done.second named scalar (.inl done.shared)).typed_after
        (onward_withTree c t) rfl (fun x _ => same x) (fun before => ?_) fun x spreads =>
        spreads.after (.cons (inPlaceOf_self cond) done.places)
      obtain ⟨ruledL, ruledR⟩ :=
        done.ruled names c.stringType (before l (by simp)) (before r (by simp))
      exact List.forall_mem_cons.mpr ⟨before cond (by simp),
        List.forall_mem_cons.mpr ⟨ruledL, List.forall_mem_singleton.mpr ruledR⟩⟩
    next =>
      refine .lift (TypeTable.equal_ends fine.short left.node.type right.node.type)
        fun same equal => ?_
      subst equal
      split
      next equal =>
        exact buildTernary_ends fine carries first left right left.node.type scalar
          (.inr ⟨rfl, by simpa using equal⟩)
      next => exact refuse_ends [cond, l, r] fine carries near _

theorem initializerList_ends {elements : List Rose} (fine : c.Fine ok)
    (carries : c.session.tree.Carries (elements ++ rest))
    (operands : ∀ e ∈ elements, c.session.types.Operand ok e) {opening close : Location}
    (near : Loose ok ∨ (opening.Near ∧ close.Near)) :
    Ends ok (initializerList (elements.map fun e => c.session.tree.handle e.index) opening close) c
    (c.Gives ok rest (c.Typed names (Location.span opening close) elements)) := by
  rw [initializerList]
  split
  next => exact refuse_ends elements fine carries (near.imp_right And.left) _
  next =>
    refine .step (anyBroken_run elements fun e mem => carries.has (List.mem_append_left _ mem)) ?_
    refine buildExpr_gives elements fine carries rfl (fine.scalar (by decide) (by decide)) .value
      (near.imp_right fun both => both.1.span both.2) [] (by simp) operands fun _ y built => ?_
    unfold Session.Rule
    rw [built.kind]
    exact ⟨built.place, .inl built.exprType⟩

theorem emptyBound_ends (fine : c.Fine ok)
    (carries : c.session.tree.Carries rest) (near : Loose ok ∨ loc.Near) :
    Ends ok (emptyBound loc) c (c.Gives ok rest (c.Typed names loc [])) := by
  refine buildExpr_gives [] fine carries rfl (fine.scalar (by decide) (by decide)) .value near
    [] nofun nofun fun _ y built => ?_
  unfold Session.Rule
  rw [built.kind, built.kids]
  exact ⟨built.exprType, built.place⟩

end Checker

end BilingualC
