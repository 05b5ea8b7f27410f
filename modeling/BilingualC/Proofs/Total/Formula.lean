import Mathlib
import BilingualC.Grammar.Expression
import BilingualC.Proofs.Checker.Expression
import BilingualC.Proofs.Grammar.Expression
import BilingualC.Proofs.Total.Operator

/-!
# Formulas and their trees

A formula is an expression over integer variables. `Formula.Pictures` says which tree stands for it.
From trees for the operands of a formula the checker builds the tree of the formula, and that is all
it does: it reports nothing, and no tree is folded, because a formula has no constants.
-/

namespace BilingualC

open Guarded Grammar Rose

/-! ## Formulas -/

/-- The signs between two operands combine their values. -/
theorem Grammar.binaryOp_value {kind : TokenKind} {op : BinaryOp} {level : Nat}
    (found : binaryOp? kind = some (op, level)) : op.isAssignment = false ∧ op ≠ .comma := by
  cases kind <;> simp only [binaryOp?, Option.some.injEq, Prod.mk.injEq, reduceCtorEq] at found <;>
      obtain ⟨rfl, rfl⟩ :=
    found <;> decide

theorem Grammar.assignOp_stores {kind : TokenKind} {op : BinaryOp}
    (found : assignOp? kind = some op) : op.isAssignment = true := by
  cases kind <;> simp only [assignOp?, Option.some.injEq, reduceCtorEq] at found <;>
    subst found <;> rfl

/-- A sign of the table of binary operators. -/
structure BinarySign where
  kind : TokenKind
  op : BinaryOp
  /-- Its precedence. -/
  level : Nat
  listed : binaryOp? kind = some (op, level)

/-- A sign in front of an operand that it gives the value of an operation on. -/
structure UnarySign where
  kind : TokenKind
  op : UnaryOp
  listed : unaryOp? kind = some op
  value : op.givesValue = true

/-- A sign of an assignment. -/
structure StoreSign where
  kind : TokenKind
  op : BinaryOp
  listed : assignOp? kind = some op

/-- An expression over variables. A value is stored in a variable only. -/
inductive Formula where
  | name (spelling : Int)
  | unary (sign : UnarySign) (operand : Formula)
  | binary (sign : BinarySign) (left right : Formula)
  | conditional (test yes no : Formula)
  | store (sign : StoreSign) (target : Int) (value : Formula)
  | comma (left right : Formula)

namespace Formula

/-- The variables of a formula. -/
def names : Formula → List Int
  | name v => [v]
  | unary _ e => e.names
  | binary _ l r | comma l r => l.names ++ r.names
  | conditional t y n => t.names ++ y.names ++ n.names
  | store _ v e => v :: e.names

/-- A tree stands for a variable: it has the declaration of its name. -/
def IsName (s : Session) (spelling : Int) (x : Rose) : Prop :=
  x.kind = .identifier ∧ x.arg 2 = s.lookup spelling ∧ x.isPlace = true ∧ x.children = []

/-- A tree stands for a formula: it has the same operators and the same operands in the same
order. -/
def Pictures (s : Session) : Formula → Rose → Prop
  | name v, x => IsName s v x
  | unary sign e, x =>
    x.kind = .unary ∧ x.unaryOp = sign.op ∧ ∃ y, x.children = [y] ∧ e.Pictures s y
  | binary sign l r, x =>
    x.kind = .binary ∧ x.binaryOp = sign.op ∧ ∃ y z, x.children = [y, z] ∧ l.Pictures s y ∧
      r.Pictures s z
  | conditional t y n, x =>
    x.kind = .ternary ∧ ∃ a b c, x.children = [a, b, c] ∧ t.Pictures s a ∧ y.Pictures s b ∧
      n.Pictures s c
  | store sign v e, x =>
    x.kind = .assignment ∧ x.binaryOp = sign.op ∧ ∃ y z, x.children = [y, z] ∧ IsName s v y ∧
      e.Pictures s z
  | comma l r, x =>
    x.kind = .binary ∧ x.binaryOp = .comma ∧ ∃ y z, x.children = [y, z] ∧ l.Pictures s y ∧
      r.Pictures s z

/-- Only the declarations of the names matter. -/
theorem pictures_congr {s t : Session} {e : Formula} {x : Rose} (same : t.spellings = s.spellings) :
    e.Pictures t x ↔ e.Pictures s x := by
  have names (v : Int) (y : Rose) : IsName t v y ↔ IsName s v y := by
    simp only [IsName, Session.lookup, same]
  induction e generalizing x with
  | name v => exact names v x
  | unary sign e ih => simp only [Pictures, ih]
  | binary sign l r left right => simp only [Pictures, left, right]
  | conditional t y n test yes no => simp only [Pictures, test, yes, no]
  | store sign v e ih => simp only [Pictures, names, ih]
  | comma l r left right => simp only [Pictures, left, right]

end Formula

/-- A spelling is the name of an integer variable. -/
structure Session.NamesInt (s : Session) (spelling : Int) : Prop where
  declared : s.lookup spelling ≠ 0
  kind : (s.identifier (s.lookup spelling)).kind = .variable
  type : (s.identifier (s.lookup spelling)).type = TypeId.int

namespace Checker

variable {c : Checker} {rest : List Rose} {e : Formula} {x l r : Rose} {n : Handle}
    {loc opLoc : Location}

/-- A tree that stands for a formula, and it is of type integer. -/
structure Draws (c : Checker) (e : Formula) (x : Rose) : Prop where
  pictures : e.Pictures c.session x
  type : x.exprType = TypeId.int

/-- A step that puts a tree for a formula under the root and changes nothing else. -/
def Gains (c : Checker) (rest : List Rose) (e : Formula) (n : Handle) (c' : Checker) : Prop :=
  ∃ t x, c' = c.withTree t ∧ n = t.handle x.index ∧ t.Carries (x :: rest) ∧
    c.session.tree.Keeps t rest ∧ c.Draws e x

theorem namesInt_withTree {t : Arena} {v : Int} (int : c.session.NamesInt v) :
    (c.withTree t).session.NamesInt v :=
  ⟨int.declared, int.kind, int.type⟩

theorem draws_withTree {t : Arena} : (c.withTree t).Draws e x ↔ c.Draws e x := by
  have same : e.Pictures (c.withTree t).session x ↔ e.Pictures c.session x :=
    Formula.pictures_congr rfl
  exact ⟨fun draws => ⟨same.mp draws.pictures, draws.type⟩,
    fun draws => ⟨same.mpr draws.pictures, draws.type⟩⟩

/-- A step after which the trees under the root are still there. -/
theorem Gains.after {t : Arena} {c' : Checker} (keeps : c.session.tree.Keeps t rest)
    (gains : (c.withTree t).Gains rest e n c') : c.Gains rest e n c' := by
  obtain ⟨u, x, rfl, rfl, carries, kept, draws⟩ := gains
  exact ⟨u, x, rfl, rfl, carries, fun y mem => (kept y mem).trans (keeps y mem),
    draws_withTree.1 draws⟩

/-- Trees of formulas are neither constants nor lists. -/
theorem Draws.kind (draws : c.Draws e x) : x.kind ≠ .literal ∧ x.kind ≠ .initializer := by
  have pictures := draws.pictures
  cases e <;> (unfold Formula.Pictures at pictures; rw [pictures.1]; decide)

/-! ## Nodes -/

/-- A node is built above trees that are under the root. -/
theorem buildExpr_gains {kind : Kind} {args : List Int} (category : Category) (ks : List Rose)
    (carries : c.session.tree.Carries (ks ++ rest)) (listed : ∀ n, kind ≠ .unlisted n)
    (pictures : ∀ x : Rose, x.kind = kind → x.args = TypeId.int :: category.word ::
      (args ++ [loc.start, loc.stop]) → x.children = ks → e.Pictures c.session x) :
    Ends (fun _ => False) (buildExpr kind TypeId.int category loc args (ks.map fun k =>
      c.session.tree.handle k.index)) c (c.Gains rest e) := by
  have live : (ks.map fun k => c.session.tree.handle k.index).filter (· ≠ .broken) =
      ks.map fun k => c.session.tree.handle k.index := by
    refine List.filter_eq_self.mpr fun m mem => ?_
    obtain ⟨k, inside, rfl⟩ := List.mem_map.mp mem
    simpa using carries.ne_broken (List.mem_append_left _ inside)
  obtain ⟨t, i, run, done, keeps⟩ :=
    build_ends carries kind loc (TypeId.int :: category.word :: args) live
  refine .run run ⟨t, _, rfl, rfl, done, keeps, pictures _ ?_ rfl rfl, rfl⟩
  exact Kind.ofNumber_number listed

theorem Draws.not_literal (draws : c.Draws e x) (has : c.session.tree.Has x) :
    isLiteral (c.session.tree.handle x.index) c = .ok (false, c) := by
  rw [isLiteral_run has, beq_eq_false_iff_ne.mpr draws.kind.1]

/-! ## Steps -/

theorem identifier_gains {v : Int} (carries : c.session.tree.Carries rest)
    (int : c.session.NamesInt v) :
    Ends (fun _ => False) (identifier v loc) c (c.Gains rest (.name v)) := by
  rw [identifier]
  refine .step (lookup_run v c) ?_
  simp only [beq_eq_false_iff_ne.mpr int.declared, Bool.false_eq_true, if_false, int.kind, int.type]
  refine buildExpr_gains .place [] carries (by simp) fun x kind args kids => ⟨kind, ?_, ?_, kids⟩
  · rw [Rose.arg, args]
    rfl
  · rw [Rose.isPlace, Rose.arg, args]
    rfl

/-- No function is used as a value. -/
theorem value_run (carries : c.session.tree.Carries (x :: rest)) (type : x.exprType = TypeId.int) :
    value (c.session.tree.handle x.index) c = .ok (c.session.tree.handle x.index, c) := by
  have has := carries.has (r := x) List.mem_cons_self
  have plain : c.session.types.isFunction TypeId.int = false := by
    rw [TypeTable.isFunction, TypeTable.form_of_scalar (by decide)]
    rfl
  rw [value, bind_run (isBroken_run _ c), carries.isBroken List.mem_cons_self]
  simp only [Bool.false_eq_true, if_false]
  rw [bind_run (types_run c), bind_run (typeOf_run has), type, plain]
  rfl

theorem unary_gains {sign : UnarySign} (carries : c.session.tree.Carries (x :: rest))
    (draws : c.Draws e x) : Ends (fun _ => False)
    (unary sign.op (c.session.tree.handle x.index) opLoc) c (c.Gains rest (.unary sign e)) := by
  have has := carries.has (r := x) List.mem_cons_self
  rw [unary]
  refine .step (isBroken_run _ c) ?_
  rw [carries.isBroken List.mem_cons_self]
  refine .step (types_run c) (.step (typeOf_run has) (.step (locationOf_run has) ?_))
  rw [draws.type]
  have built (loc : Location) :
      Ends (fun _ => False) (foldUnary sign.op TypeId.int (c.session.tree.handle x.index) loc) c
      (c.Gains rest (.unary sign e)) := by
    obtain ⟨fold, asked⟩ := folding_run c
    have none :
      unaryConstant? sign.op TypeId.int (c.session.tree.handle x.index) c = .ok (none, c) := by
      rw [unaryConstant?, bind_run asked, bind_run (draws.not_literal has)]
      simp
      rfl
    rw [foldUnary]
    refine .step none (buildExpr_gains .value [x] carries (by simp) fun y kind args kids =>
      ⟨kind, ?_, x, kids, draws.pictures⟩)
    rw [Rose.unaryOp, Rose.arg, args]
    exact UnaryOp.ofNumber_number (unaryOp_listed sign.listed)
  have value := sign.value
  generalize sign.op = op at built value
  cases op with
  | minus | complement | logicalNot | absolute => exact built _
  | _ => cases value

section Pair

variable {a b : Formula} {op : BinaryOp}

theorem binaryNode_gains (carries : c.session.tree.Carries (l :: r :: rest))
    (listed : ∀ n, op ≠ .unlisted n) (pictures : ∀ x : Rose, x.kind = .binary →
      x.binaryOp = op → x.children = [l, r] → e.Pictures c.session x) :
    Ends (fun _ => False) (buildExpr .binary TypeId.int .value loc [op.number]
      [c.session.tree.handle l.index, c.session.tree.handle r.index]) c (c.Gains rest e) := by
  refine buildExpr_gains .value [l, r] carries (by simp) fun x kind args kids =>
    pictures x kind ?_ kids
  rw [Rose.binaryOp, Rose.arg, args]
  exact BinaryOp.ofNumber_number listed

theorem foldBinary_gains (carries : c.session.tree.Carries (l :: r :: rest)) (left : c.Draws a l)
    (listed : ∀ n, op ≠ .unlisted n) (pictures : ∀ x : Rose, x.kind = .binary →
      x.binaryOp = op → x.children = [l, r] → e.Pictures c.session x) :
    Ends (fun _ => False) (foldBinary op TypeId.int (c.session.tree.handle l.index)
      (c.session.tree.handle r.index) loc) c (c.Gains rest e) := by
  obtain ⟨fold, asked⟩ := folding_run c
  have none : binaryConstant? op TypeId.int (c.session.tree.handle l.index)
    (c.session.tree.handle r.index) c = .ok (none, c) := by
    rw [binaryConstant?, bind_run asked, bind_run (left.not_literal (carries.has (by simp))),
      bind_run (isLiteral_run (carries.has (by simp)))]
    simp
    rfl
  rw [foldBinary]
  exact .step none (binaryNode_gains carries listed pictures)

/-- Two integers are of one type. -/
theorem unify_run (carries : c.session.tree.Carries (l :: r :: rest))
    (left : l.exprType = TypeId.int) (right : r.exprType = TypeId.int) :
    unify (c.session.tree.handle l.index) (c.session.tree.handle r.index) c =
    .ok ((c.session.tree.handle l.index, c.session.tree.handle r.index, TypeId.int), c) := by
  rw [unify, bind_run (typeOf_run (carries.has (by simp))),
    bind_run (typeOf_run (carries.has (by simp))), left, right]
  rfl

/-- An integer is stored in an integer as it is. -/
theorem convert_run (carries : c.session.tree.Carries (x :: rest)) (draws : c.Draws e x) :
    convert TypeId.int (c.session.tree.handle x.index) c =
    .ok ((c.session.tree.handle x.index, none), c) := by
  have has := carries.has (r := x) List.mem_cons_self
  rw [convert, bind_run (tree_run c), Arena.walkBound, convertAt, bind_run (kindOf_run has)]
  simp only [bne_iff_ne.mpr draws.kind.2, if_true]
  rw [convertValue, bind_run (typeOf_run has), draws.type]
  rfl

theorem binary_gains {sign : BinarySign} (carries : c.session.tree.Carries (l :: r :: rest))
    (left : c.Draws a l) (right : c.Draws b r) : Ends (fun _ => False)
    (binary sign.op (c.session.tree.handle l.index) (c.session.tree.handle r.index) opLoc) c
    (c.Gains rest (.binary sign a b)) := by
  have hasL := carries.has (r := l) (by simp)
  have hasR := carries.has (r := r) (by simp)
  have listed := binaryOp_listed sign.listed
  have pictures (x : Rose) (kind : x.kind = .binary) (isOp : x.binaryOp = sign.op)
      (kids : x.children = [l, r]) : (Formula.binary sign a b).Pictures c.session x :=
    ⟨kind, isOp, l, r, kids, left.pictures, right.pictures⟩
  have value := binaryOp_value sign.listed
  have folded (loc : Location) :
      Ends (fun _ => False) (foldBinary sign.op TypeId.int (c.session.tree.handle l.index)
      (c.session.tree.handle r.index) loc) c (c.Gains rest (.binary sign a b)) :=
    foldBinary_gains carries left listed pictures
  rw [binary]
  refine .step (anyBroken_run [l, r] (by simp [hasL, hasR])) ?_
  simp only [Bool.false_eq_true, if_false, value.1]
  refine .step (types_run c) (.step (typeOf_run hasL)
    (.step (typeOf_run hasR) (.step (locationOf_run hasL) (.step (locationOf_run hasR) ?_))))
  rw [left.type, right.type]
  simp only [beq_eq_false_iff_ne.mpr value.2, Bool.false_eq_true, if_false]
  split
  next => exact folded _
  split
  next => exact folded _
  split
  next =>
    rw [equality]
    refine .step (typeOf_run hasL) (.step (typeOf_run hasR) ?_)
    rw [left.type, right.type]
    exact .step (unify_run carries left.type right.type) (folded _)
  next =>
    refine .step (unify_run carries left.type right.type) ?_
    simp only [ite_self]
    exact folded _

theorem comma_gains (carries : c.session.tree.Carries (l :: r :: rest)) (left : c.Draws a l)
    (right : c.Draws b r) : Ends (fun _ => False) (binary .comma (c.session.tree.handle l.index)
      (c.session.tree.handle r.index) opLoc) c (c.Gains rest (.comma a b)) := by
  have hasL := carries.has (r := l) (by simp)
  have hasR := carries.has (r := r) (by simp)
  rw [binary]
  refine .step (anyBroken_run [l, r] (by simp [hasL, hasR])) ?_
  refine .step (types_run c) (.step (typeOf_run hasL)
    (.step (typeOf_run hasR) (.step (locationOf_run hasL) (.step (locationOf_run hasR) ?_))))
  rw [right.type]
  exact binaryNode_gains carries (by simp) fun x kind isOp kids =>
    ⟨kind, isOp, l, r, kids, left.pictures, right.pictures⟩

/-- The value of an assignment to an integer variable is an integer already. -/
theorem stored_gains {sign : StoreSign} {v : Int}
    (carries : c.session.tree.Carries (l :: r :: rest)) (left : c.Draws (.name v) l)
    (right : c.Draws b r) : Ends (fun _ => False) (do
      let (value, problem) ← convert TypeId.int (c.session.tree.handle r.index)
      match problem with
      | some d => refuse (← locationOf value) d
      | none =>
        let loc := Location.span (← locationOf (c.session.tree.handle l.index)) (← locationOf value)
        buildExpr .assignment TypeId.int .value loc [sign.op.number]
          [c.session.tree.handle l.index, value]) c
      (c.Gains rest (.store sign v b)) := by
  have hasL := carries.has (r := l) (by simp)
  have hasR := carries.has (r := r) (by simp)
  refine .step (convert_run (carries.perm (.swap r l rest)) right)
    (.step (locationOf_run hasL) (.step (locationOf_run hasR) ?_))
  refine buildExpr_gains .value [l, r] carries (by simp) fun x kind args kids =>
    ⟨kind, ?_, l, r, kids, left.pictures, right.pictures⟩
  rw [Rose.binaryOp, Rose.arg, args]
  exact BinaryOp.ofNumber_number (assignOp_listed sign.listed)

theorem store_gains {sign : StoreSign} {v : Int} (carries : c.session.tree.Carries (l :: r :: rest))
    (left : c.Draws (.name v) l) (right : c.Draws b r) : Ends (fun _ => False)
    (binary sign.op (c.session.tree.handle l.index) (c.session.tree.handle r.index) opLoc) c
    (c.Gains rest (.store sign v b)) := by
  have hasL := carries.has (r := l) (by simp)
  have hasR := carries.has (r := r) (by simp)
  have stores := assignOp_stores sign.listed
  have plain : c.session.types.isArray TypeId.int = false := by
    rw [TypeTable.isArray, TypeTable.form_of_scalar (by decide)]
    rfl
  rw [binary]
  refine .step (anyBroken_run [l, r] (by simp [hasL, hasR])) ?_
  simp only [Bool.false_eq_true, if_false, stores, if_true]
  rw [assignment]
  refine .step (typeOf_run hasL) (.step (typeOf_run hasR) (.step (types_run c) ?_))
  rw [left.type, right.type, plain]
  refine .step (isPlace_run hasL) ?_
  rw [left.pictures.2.2.1]
  simp only [Bool.not_true, Bool.false_eq_true, if_false]
  split
  next =>
    split
    next wrong => simp [TypeId.isInteger, TypeId.int] at wrong
    next => exact stored_gains carries left right
  next => exact stored_gains carries left right

end Pair

theorem ternary_gains {t y n : Formula} {cond : Rose}
    (carries : c.session.tree.Carries (cond :: l :: r :: rest)) (test : c.Draws t cond)
    (left : c.Draws y l) (right : c.Draws n r) :
    Ends (fun _ => False) (ternary (c.session.tree.handle cond.index) (c.session.tree.handle
      l.index) (c.session.tree.handle r.index) opLoc) c (c.Gains rest (.conditional t y n)) := by
  have hasC := carries.has (r := cond) (by simp)
  have hasL := carries.has (r := l) (by simp)
  have hasR := carries.has (r := r) (by simp)
  have scalar : c.session.types.isScalar TypeId.int = true := rfl
  rw [ternary]
  refine .step (anyBroken_run [cond, l, r] (by simp [hasC, hasL, hasR]))
    (.step (types_run c) (.step (typeOf_run hasC) ?_))
  rw [test.type, scalar]
  refine .step (typeOf_run hasL) (.step (typeOf_run hasR) ?_)
  rw [left.type, right.type]
  have order : (cond :: l :: r :: rest).Perm (l :: r :: cond :: rest) :=
    (@List.perm_middle _ cond [l, r] rest).symm
  refine .step (unify_run (carries.perm order) left.type right.type)
    (.step (locationOf_run hasC) (.step (locationOf_run hasR) ?_))
  exact buildExpr_gains .value [cond, l, r] carries (by simp) fun x kind args kids =>
    ⟨kind, cond, l, r, kids, test.pictures, left.pictures, right.pictures⟩

/-- A step on two trees that were put under the root one after the other. -/
theorem pair_gains {a b : Formula} {t : Arena} {c' : Checker}
    {m : Handle} (step : Handle → Handle → Check Handle)
    (builds : ∀ {c : Checker} {l r : Rose}, c.session.tree.Carries (l :: r :: rest) →
      c.Draws a l → c.Draws b r → Ends (fun _ => False)
      (step (c.session.tree.handle l.index) (c.session.tree.handle r.index)) c (c.Gains rest e))
    (keeps : c.session.tree.Keeps t rest) (left : c.Draws a x)
    (right : (c.withTree t).Gains (x :: rest) b m c') :
    Ends (fun _ => False) (step (t.handle x.index) m) c' (c.Gains rest e) := by
  obtain ⟨u, y, rfl, rfl, carries, kept, draws⟩ := right
  have built := builds (c := (c.withTree t).withTree u) (carries.perm (.swap x y rest))
    (draws_withTree.2 (draws_withTree.2 left)) (draws_withTree.2 draws)
  rw [show ((c.withTree t).withTree u).session.tree.handle x.index = t.handle x.index
    from kept x List.mem_cons_self] at built
  refine built.mono fun n c' gains => Gains.after (t := u) (fun z mem => ?_) gains
  exact (kept z (List.mem_cons_of_mem x mem)).trans (keeps z mem)

/-- A conditional expression of three trees that were put under the root one after the other. -/
theorem triple_gains {a b d : Formula} {t u : Arena} {y : Rose}
    {c' : Checker} {m : Handle} (keeps : c.session.tree.Keeps t rest)
    (first : c.Draws a x) (kept : t.Keeps u (x :: rest)) (second : c.Draws b y)
    (third : ((c.withTree t).withTree u).Gains (y :: x :: rest) d m c') :
    Ends (fun _ => False) (ternary (t.handle x.index) (u.handle y.index) m opLoc) c'
    (c.Gains rest (.conditional a b d)) := by
  obtain ⟨v, z, rfl, rfl, carries, stay, draws⟩ := third
  set c₃ := ((c.withTree t).withTree u).withTree v
  have order : (z :: y :: x :: rest).Perm (x :: y :: z :: rest) :=
    (List.Perm.swap y z (x :: rest)).trans
      (((List.Perm.swap x z rest).cons y).trans (.swap x y (z :: rest)))
  have built : Ends (fun _ => False) (ternary (c₃.session.tree.handle x.index)
      (c₃.session.tree.handle y.index) (c₃.session.tree.handle z.index) opLoc) c₃
      (c₃.Gains rest (.conditional a b d)) :=
    ternary_gains (carries.perm order)
      (draws_withTree.2 (draws_withTree.2 (draws_withTree.2 first))) (draws_withTree.2
      (draws_withTree.2 (draws_withTree.2 second))) (draws_withTree.2 draws)
  have sameX : v.handle x.index = t.handle x.index := (stay x (by simp)).trans (kept x (by simp))
  have sameY : v.handle y.index = u.handle y.index := stay y (by simp)
  rw [show c₃.session.tree = v from rfl, sameX, sameY] at built
  refine built.mono fun n c' gains => Gains.after (t := v) (fun w mem => ?_) gains
  exact (stay w (by simp [mem])).trans ((kept w (by simp [mem])).trans (keeps w mem))

end Checker

end BilingualC
