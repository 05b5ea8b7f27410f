import Mathlib
import BilingualC.Proofs.Dispatch

/-!
# Code follows its meaning

The code of a tree does on the machine what the tree means. The variables live in the cells of the
frame, each in a cell of its own (`Represents`). `Evaluates.leads` is about values, `Changes.leads`
about assignments and steps, and `Runs.arrives` about statements: a statement that ends normally
leads to the end of its code, a break or a continue to the exit that the code around it has for it,
and a return out of the function.
-/

namespace BilingualC

open Rose Machine

/-! ## Variables in their cells -/

/-- The cells of the frame hold the values of the variables. -/
def Represents (s : Session) (V : Set Int) (cells : Int → Int) (σ : Store) : Prop :=
  ∀ id ∈ V, cells (s.displacementOf id) = σ id

/-- What a node on integers is: an expression has the type of integers, a variable is one of those
that have a cell, and the arithmetic of a switch can compare. -/
structure Rose.IsOnInts (A : Arithmetic) (s : Session) (V : Set Int) (r : Rose) : Prop where
  type : r.kind.isExpression = true → r.exprType = TypeId.int
  mentioned : r.kind = .identifier → r.arg 2 ∈ V
  declared : r.kind = .variable → r.arg 0 ∈ V ∧ (s.identifier (r.arg 0)).type = TypeId.int
  compares : r.kind = .switching → A.Compares

/-- All nodes of a tree are on integers. -/
def Rose.OnInts (A : Arithmetic) (s : Session) (V : Set Int) (r : Rose) : Prop :=
  ∀ x ∈ r.nodes, x.IsOnInts A s V

section Variables

variable {A : Arithmetic} {s : Session} {V : Set Int} {cells : Int → Int} {σ : Store} {r c : Rose}

theorem Rose.OnInts.self (h : r.OnInts A s V) : r.IsOnInts A s V := h r r.mem_nodes_self

theorem Rose.OnInts.child (h : r.OnInts A s V) (mem : c ∈ r.children) : c.OnInts A s V :=
  fun x inside =>
  h x (mem_nodes_child mem inside)

theorem Represents.update (own : Set.InjOn s.displacementOf V)
    (represents : Represents s V cells σ) {id : Int} (mem : id ∈ V) (v : Int) :
    Represents s V (Function.update cells (s.displacementOf id) v) (Function.update σ id v) := by
  intro other there
  by_cases same : other = id
  · rw [same, Function.update_self, Function.update_self]
  · have apart : s.displacementOf other ≠ s.displacementOf id :=
      fun equal => same (own there mem equal)
    rw [Function.update_of_ne apart, Function.update_of_ne same]
    exact represents other there

theorem isStructure_int (types : TypeTable) : types.isStructure TypeId.int = false := by
  simp [TypeTable.isStructure, TypeTable.form?, TypeId.int]

theorem sizeOf_int (s : Session) : s.sizeOf TypeId.int = 1 := by
  have plain : s.types.sizeOf TypeId.int = .ok 1 := by
    simp [TypeTable.sizeOf, TypeId.int, TypeId.void, TypeId.undefined]
    rfl
  rw [Session.sizeOf, plain]

end Variables

/-! ## Values -/

section Values

variable {A : Arithmetic} {M : List Int} {L : Links} {X : List Exit} {slot slot' : Option Nat}
    {s : Session} {V : Set Int} {r : Rose} {σ τ : Store} {v : Int} {a b : Nat} {cells : Int → Int}
    {stack : List Int}

theorem Evaluates.isExpression (value : Evaluates A σ r v) : r.kind.isExpression = true := by
  cases value with
  | literal kind | «variable» kind | unary kind | binary kind | ternaryYes kind | ternaryNo kind =>
    rw [kind]; rfl

theorem Evaluates.type (value : Evaluates A σ r v) (ints : r.OnInts A s V) :
    r.exprType = TypeId.int :=
  ints.self.type value.isExpression

/-- The operation of an operator with one operand. -/
theorem ofUnary_operation {op : UnaryOp} (value : op.givesValue = true) :
    ∃ o : Operation, Instruction.ofUnary op = .ok (.single o) ∧ o.unary? = some op := by
  cases op with
  | minus | complement | logicalNot | absolute => exact ⟨_, rfl, rfl⟩
  | _ => simp [UnaryOp.givesValue] at value

/-- The operation of an operator with two operands. -/
theorem ofBinary_operation {op : BinaryOp} (value : op.givesValue = true) :
    ∃ o : Operation, Instruction.ofBinary op = .ok (.single o) ∧ o.unary? = none ∧
    o.binary? = some op := by
  cases op <;> first
    | exact ⟨_, rfl, rfl, rfl⟩
    | simp [BinaryOp.givesValue, BinaryOp.isAssignment, BinaryOp.isLogical] at value

theorem stepped_int (i : Instruction) {type : Int} (int : type = TypeId.int) (d : Derivation)
    (more : Bool) : i.stepped (TypeId.isFloating type && more) d = i := by
  rw [int]
  rfl

/-- The code of a value pushes it. -/
theorem Evaluates.leads (value : Evaluates A σ r v)
    (ints : r.OnInts A s V) (represents : Represents s V cells σ)
    (lay : Lay M L X slot (r.toValue s) a b slot') (stack : List Int) :
    Leads A M (.running a stack cells) (.running b (v :: stack) cells) := by
  -- by induction on the evaluation: the operands are pushed in turn, on any stack
  induction value generalizing slot slot' a b stack with
  | literal kind =>
    rw [toValue_literal kind] at lay
    obtain ⟨code, -, -, rfl, -⟩ := lay.plain_inv
    exact leads_constant code
  | @«variable» r kind =>
    have plain : s.types.isStructure r.exprType = false := by
      rw [ints.self.type (by rw [kind]; rfl), isStructure_int]
    rw [toValue_identifier kind, plain] at lay
    obtain ⟨code, -, -, rfl, -⟩ := lay.plain_inv
    rw [← represents _ (ints.self.mentioned kind)]
    exact leads_load code
  | @unary r e v w kind kids op operand result ih =>
    have below : e.OnInts A s V := ints.child (by simp [kids])
    obtain ⟨o, chosen, carries⟩ := ofUnary_operation op
    have step := UnaryOp.isStep_of_givesValue op
    have other : r.unaryOp ≠ .address ∧ r.unaryOp ≠ .indirection := by
      constructor <;> intro same <;> simp [same, UnaryOp.givesValue] at op
    rw [toValue_unary kind kids] at lay
    simp only [unaryCode, other.1, other.2, step, chosen, chosen_ok, if_false, Bool.false_eq_true,
      stepped_int _ (operand.type below)] at lay
    obtain ⟨m, _, first, last⟩ := lay.seq_inv
    obtain ⟨code, -, -, rfl, -⟩ := last.plain_inv
    have computes : o.compute A (v :: stack) = some (w :: stack) := by
      simp [Operation.compute, carries, result]
    exact (ih below first stack).trans (leads_compute code computes)
  | @binary r l e u v w kind kids op left right result ihl ihr =>
    have onLeft : l.OnInts A s V := ints.child (by simp [kids])
    have onRight : e.OnInts A s V := ints.child (by simp [kids])
    obtain ⟨o, chosen, none, carries⟩ := ofBinary_operation op
    rw [toValue_binary kind kids, binaryCode_value op, chosen, chosen_ok,
      show TypeId.isFloating l.exprType = (TypeId.isFloating l.exprType && true) by simp,
      stepped_int _ (left.type onLeft)] at lay
    obtain ⟨m, _, first, rest⟩ := lay.seq_inv
    obtain ⟨k, _, second, last⟩ := rest.seq_inv
    obtain ⟨code, -, -, rfl, -⟩ := last.plain_inv
    have computes : o.compute A (v :: u :: stack) = some (w :: stack) := by
      simp [Operation.compute, none, carries, result]
    exact ((ihl onLeft first stack).trans (ihr onRight second (u :: stack))).trans
      (leads_compute code computes)
  | @ternaryYes r c y n u v kind kids test holds yes ihc ihy =>
    rw [toValue_ternary kind kids] at lay
    obtain ⟨m, k, _, _, first, branch, second, across, -⟩ := lay.choose_inv
    have tested := leads_branchIfZero A stack cells branch u
    rw [if_neg holds] at tested
    exact (((ihc (ints.child (by simp [kids])) first stack).trans tested).trans
      (ihy (ints.child (by simp [kids])) second stack)).trans (leads_branch across)
  | @ternaryNo r c y n v kind kids test no ihc ihn =>
    rw [toValue_ternary kind kids] at lay
    obtain ⟨m, k, _, _, first, branch, -, -, third⟩ := lay.choose_inv
    have tested := leads_branchIfZero A stack cells branch 0
    rw [if_pos rfl] at tested
    exact ((ihc (ints.child (by simp [kids])) first stack).trans tested).trans
      (ihn (ints.child (by simp [kids])) third stack)

end Values

/-! ## Assignments and steps -/

section Changes

variable {A : Arithmetic} {M : List Int} {L : Links} {X : List Exit} {slot slot' : Option Nat}
    {s : Session} {V : Set Int} {r : Rose} {σ τ : Store} {v : Int} {a b : Nat} {cells : Int → Int}
    {stack : List Int}

/-- The family of an assignment stores what the assignment stores. -/
theorem ofBinary_family {op : BinaryOp} (stores : op.stores = true) :
    ∃ f, Instruction.ofBinary op = .ok (.store f .base) ∧
    ∀ A old v new rest, op.stored A old v = some new →
    f.update A old (v :: rest) = some (new, rest) := by
  cases op <;> first
    | (refine ⟨_, rfl, fun A old v new rest result => ?_⟩
       simp_all [BinaryOp.stored, BinaryOp.underlying, Family.update, Family.binary?])
    | simp [BinaryOp.stores, BinaryOp.isAssignment] at stores

/-- The family of a step stores what the step stores. -/
theorem ofUnary_family {op : UnaryOp} (steps : op.steps = true) :
    ∃ f, Instruction.ofUnary op = .ok (.store f .base) ∧
    ∀ A old new rest, A.binary op.change old 1 = some new →
    f.update A old rest = some (new, rest) := by
  cases op <;> first
    | (refine ⟨_, rfl, fun A old new rest result => ?_⟩
       simp_all [UnaryOp.change, Family.update])
    | simp [UnaryOp.steps] at steps

/-- The member of a family that leaves nothing. -/
theorem stepped_void (f : Family) :
    (Instruction.store f .base).stepped true .toVoid = .store f .silent := by
  simp [Instruction.stepped, Instruction.derive, Instruction.deriveMember, Instruction.step,
    Member.base, Member.silent]

theorem Changes.isExpression (changes : Changes A σ r τ) : r.kind.isExpression = true := by
  cases changes with
  | assignment kind | step kind => rw [kind]; rfl

/-- The code of an assignment or a step changes the cell of its variable and leaves nothing. -/
theorem Changes.leads (own : Set.InjOn s.displacementOf V) (changes : Changes A σ r τ)
    (ints : r.OnInts A s V) (represents : Represents s V cells σ)
    (lay : Lay M L X slot (r.toEffect s) a b slot') (stack : List Int) :
    ∃ cells', Leads A M (.running a stack cells) (.running b stack cells') ∧
    Represents s V cells' τ := by
  have type := ints.self.type changes.isExpression
  cases changes with
  | @assignment t e v new kind kids target op value result =>
    have there : t.arg 2 ∈ V := (ints.child (by simp [kids])).self.mentioned target
    obtain ⟨f, chosen, stores⟩ := ofBinary_family op
    rw [toEffect_assignment kind kids] at lay
    simp only [assignmentCode, storeCode, target, type, isStructure_int, if_true,
      Bool.false_eq_true, if_false, chosen, chosen_ok] at lay
    obtain ⟨m, _, first, last⟩ := lay.seq_inv
    obtain ⟨code, -, -, rfl, -⟩ := last.plain_inv
    have void : ((Instruction.store f .base).stepped (TypeId.isFloating TypeId.int)
        .toFloat).stepped true .toVoid = .store f .silent :=
      stepped_void f
    rw [void] at code
    rw [← represents _ there] at result
    exact ⟨_, (value.leads (ints.child (by simp [kids])) represents first stack).trans
      (leads_store code (stores _ _ _ _ stack result)), represents.update own there new⟩
  | @step t new kind kids target op result =>
    have there : t.arg 2 ∈ V := (ints.child (by simp [kids])).self.mentioned target
    obtain ⟨f, chosen, stores⟩ := ofUnary_family op
    have step := UnaryOp.isStep_of_steps op
    have other : r.unaryOp ≠ .address ∧ r.unaryOp ≠ .indirection := by
      constructor <;> intro same <;> simp [same, UnaryOp.steps] at op
    rw [toEffect_step kind kids step] at lay
    simp only [unaryCode, storeCode, target, type, other.1, other.2, step, if_true, if_false,
      chosen, chosen_ok] at lay
    obtain ⟨m, _, first, last⟩ := lay.seq_inv
    obtain ⟨rfl, -⟩ := first.skip_inv
    obtain ⟨code, -, -, rfl, -⟩ := last.plain_inv
    have void : ((Instruction.store f .base).stepped (TypeId.isFloating TypeId.int)
        .toFloat).stepped true .toVoid = .store f .silent :=
      stepped_void f
    rw [void] at code
    rw [← represents _ there] at result
    exact ⟨_, leads_store code (stores _ _ _ stack result), represents.update own there new⟩

/-- A clause of a `for` statement that may be missing. -/
theorem ChangesIf.leads (own : Set.InjOn s.displacementOf V)
    {e : Option Rose} (changes : ChangesIf A σ e τ)
    (ints : ∀ r ∈ e, r.OnInts A s V) (represents : Represents s V cells σ)
    (lay : Lay M L X slot (clause (toEffect s) e) a b slot') (stack : List Int) :
    ∃ cells', Leads A M (.running a stack cells) (.running b stack cells') ∧
    Represents s V cells' τ := by
  cases changes with
  | none =>
    obtain ⟨rfl, -⟩ := lay.skip_inv
    exact ⟨cells, .refl, represents⟩
  | some changes => exact changes.leads own (ints _ rfl) represents lay stack

end Changes

/-! ## Statements -/

/-- Where control is after a statement whose code ends at `b`, inside the exits `X`. A break and a
continue are on the way to their exit; a continue has dropped the values of the switches that it
left. -/
inductive Arrives (s : Session) (V : Set Int) (X : List Exit) (stack : List Int) (b : Nat) :
    Ending → State → Prop
  | normal {τ : Store} {cells : Int → Int} (represents : Represents s V cells τ) :
      Arrives s V X stack b (.normal τ) (.running b stack cells)
  | breaking {τ : Store} {cells : Int → Int} {e : Exit} {Y : List Exit} (exits : X = e :: Y)
      (represents : Represents s V cells τ) :
      Arrives s V X stack b (.breaking τ) (.running e.breakTo.toNat stack cells)
  | continuing {τ : Store} {cells : Int → Int} {switches Y : List Exit}
      {e : Exit} {dropped rest : List Int} (exits : X = switches ++ e :: Y)
      (inner : ∀ x ∈ switches, Exit.isLoop x = false) (loop : e.isLoop = true)
      (values : stack = dropped ++ rest) (each : dropped.length = switches.length)
      (represents : Represents s V cells τ) :
      Arrives s V X stack b (.continuing τ) (.running e.continueTo.toNat rest cells)
  | returned {value : Option Int} {τ : Store} {cells : Int → Int}
      (represents : Represents s V cells τ) :
      Arrives s V X stack b (.returned value τ) (.returned value cells)

/-- Control gets from a state to where the ending leads. -/
def Ends (A : Arithmetic) (M : List Int) (s : Session) (V : Set Int) (X : List Exit)
    (stack : List Int) (b : Nat) (start : State) (o : Ending) : Prop :=
  ∃ stop, Leads A M start stop ∧ Arrives s V X stack b o stop

/-- The values of the switches between a statement and the innermost loop are on the stack. -/
def Deep (X : List Exit) (stack : List Int) : Prop :=
  (X.takeWhile fun x => !x.isLoop).length ≤ stack.length

/-- A property of all trees that there are to run. -/
def Work.Each (P : Rose → Prop) : Work → Prop
  | .tree r => P r
  | .trees rs => ∀ r ∈ rs, P r
  | .rounds cond body step => (∀ c ∈ cond, P c) ∧ P body ∧ ∀ e ∈ step, P e

/-- The code of what there is to run. -/
def Work.CodeAt (A : Arithmetic) (M : List Int) (L : Links) (X : List Exit) (s : Session)
    (stack : List Int) (a b : Nat) : Work → Prop
  | .tree r => ∃ slot slot', Lay M L X slot (r.toStatement s) a b slot'
  | .trees rs => Linked A M L X s stack rs a b
  | .rounds cond body step =>
    ∃ slot slot', Lay M L X slot
      (loopCode (cond.map (toValue s)) (body.toStatement s) (clause (toEffect s) step)) a b slot'

section Statements

variable {A : Arithmetic} {M : List Int} {L : Links} {X : List Exit} {slot slot' : Option Nat}
    {s : Session} {V : Set Int} {r : Rose} {σ τ : Store} {v : Int} {a b k : Nat} {cells : Int → Int}
    {stack : List Int} {o o' : Ending} {start mid : State}

theorem Ends.after (moved : Leads A M start mid) (ends : Ends A M s V X stack b mid o) :
    Ends A M s V X stack b start o := by
  obtain ⟨stop, further, arrives⟩ := ends
  exact ⟨stop, moved.trans further, arrives⟩

theorem Ends.normal (moved : Leads A M start (.running b stack cells))
    (represents : Represents s V cells τ) : Ends A M s V X stack b start (.normal τ) :=
  ⟨_, moved, .normal represents⟩

/-- A statement that does not end normally leads past the statements behind it. -/
theorem Ends.abrupt (ends : Ends A M s V X stack k start o) (leaves : ∀ τ, o ≠ .normal τ) :
    Ends A M s V X stack b start o := by
  obtain ⟨stop, moved, arrives⟩ := ends
  refine ⟨stop, moved, ?_⟩
  cases arrives with
  | normal => exact absurd rfl (leaves _)
  | breaking exits represents => exact .breaking exits represents
  | continuing exits inner loop values each represents =>
    exact .continuing exits inner loop values each represents
  | returned represents => exact .returned represents

/-- Control goes on from the end of a statement, if it gets there. -/
theorem Ends.andThen (ends : Ends A M s V X stack k start o)
    (moves : ∀ cells, Leads A M (.running k stack cells) (.running b stack cells)) :
    Ends A M s V X stack b start o := by
  obtain ⟨stop, moved, arrives⟩ := ends
  cases arrives with
  | normal represents => exact .normal (moved.trans (moves _)) represents
  | breaking exits represents => exact ⟨_, moved, .breaking exits represents⟩
  | continuing exits inner loop values each represents =>
    exact ⟨_, moved, .continuing exits inner loop values each represents⟩
  | returned represents => exact ⟨_, moved, .returned represents⟩

/-- The body of a loop ended and the loop goes on: control is behind the body or where a continue
leads. -/
theorem Ends.goesOn {e : Exit} (ends : Ends A M s V (e :: X) stack k start o) (goes : o.GoesOn τ)
    (loop : e.isLoop = true) :
    ∃ cells pc, Leads A M start (.running pc stack cells) ∧ (pc = k ∨ pc = e.continueTo.toNat) ∧
      Represents s V cells τ := by
  obtain ⟨stop, moved, arrives⟩ := ends
  cases goes with
  | normal =>
    cases arrives with
    | normal represents => exact ⟨_, _, moved, .inl rfl, represents⟩
  | continuing =>
    cases arrives with
    | @continuing _ _ switches Y e' dropped rest exits inner _ values each represents =>
      -- the innermost exit is the loop itself, so nothing was dropped
      cases switches with
      | nil =>
        obtain ⟨rfl, -⟩ := List.cons.inj exits
        obtain rfl := List.length_eq_zero_iff.mp each
        obtain rfl : stack = rest := values
        exact ⟨_, _, moved, .inr rfl, represents⟩
      | cons x switches =>
        obtain ⟨rfl, -⟩ := List.cons.inj exits
        simp [inner _ List.mem_cons_self] at loop

/-- The body of a loop ended the loop. -/
theorem Ends.leaves {e : Exit} (ends : Ends A M s V (e :: X) stack k start o) (left : o.EndsLoop o')
    (exit : e.breakTo = (b : Int)) : Ends A M s V X stack b start o' := by
  obtain ⟨stop, moved, arrives⟩ := ends
  cases left with
  | breaking =>
    cases arrives with
    | breaking exits represents =>
      obtain ⟨rfl, -⟩ := List.cons.inj exits
      rw [exit, Int.toNat_natCast] at moved
      exact .normal moved represents
  | returned =>
    cases arrives with
    | returned represents => exact ⟨_, moved, .returned represents⟩

theorem Deep.loop {e : Exit} (loop : e.isLoop = true) (stack : List Int) : Deep (e :: X) stack := by
  simp [Deep, loop]

theorem Deep.switch {e : Exit} (deep : Deep X stack) (switch : e.isLoop = false) :
    Deep (e :: X) (v :: stack) := by
  simpa [Deep, switch] using deep

/-- Dropping values. -/
theorem leads_drops (A : Arithmetic) (cells : Int → Int) {n : Nat}
    (drops : DropsAt M a n) (dropped rest : List Int) (each : dropped.length = n) :
    Leads A M (.running a (dropped ++ rest) cells) (.running (a + 2 * n) rest cells) := by
  induction n generalizing a dropped with
  | zero =>
    obtain rfl := List.length_eq_zero_iff.mp each
    exact .refl
  | succ n ih =>
    obtain ⟨x, dropped, rfl⟩ := List.exists_cons_of_length_eq_add_one each
    have later := ih drops.2 dropped (by simpa using each)
    rw [show a + 2 * (n + 1) = a + 2 + 2 * n by omega]
    exact (leads_drop drops.1 x).trans later

/-- Code one after the other is linked. -/
theorem linked_of_all {rs : List Rose}
    (lay : Lay M L X slot (.all (rs.map (toStatement s))) a b slot') :
    Linked A M L X s stack rs a b := by
  induction rs generalizing a slot with
  | nil =>
    obtain ⟨rfl, -⟩ := lay.skip_inv
    exact .nil .refl
  | cons r rs ih =>
    obtain ⟨m, _, first, rest⟩ := lay.seq_inv
    exact .cons .refl first (ih rest)

/-- The first clause of a `for` statement is an assignment or a step. -/
theorem ChangesIf.initCode {e : Option Rose} (changes : ChangesIf A σ e τ) :
    clause (Rose.initCode s) e = clause (toEffect s) e := by
  cases changes with
  | none => rfl
  | @some e _ changes =>
    have other : e.kind ≠ .declaration := fun same => by
      simpa [same, Kind.isExpression] using changes.isExpression
    simp only [clause, Rose.initCode, other, if_false]

/-- The test of a loop holds: control is at the start of the body. -/
theorem Holds.leads {cond : Option Rose} {body step : Piece} (holds : Holds A σ cond)
    (ints : ∀ c ∈ cond, c.OnInts A s V) (represents : Represents s V cells σ)
    (lay : Lay M L X slot (loopCode (cond.map (toValue s)) body step) a b slot')
    (stack : List Int) : ∃ (m n l : Nat) (s₁ s₂ s₃ : Option Nat), b = l + 2 ∧
    Leads A M (.running a stack cells) (.running m stack cells) ∧
    Lay M L (⟨true, (l + 2 : Nat), n⟩ :: X) s₁ body m n s₂ ∧
    Lay M L (⟨true, (l + 2 : Nat), n⟩ :: X) s₂ step n l s₃ ∧
    CellsAt M l [Operation.code .branch, a] := by
  cases holds with
  | none =>
    obtain ⟨n, l, s₁, rfl, inside, next, back⟩ := lay.endlessLoop_inv
    exact ⟨a, n, l, slot, s₁, slot', rfl, .refl, inside, next, back⟩
  | @some c v value nonzero =>
    obtain ⟨m, n, l, s₁, s₂, rfl, test, leave, inside, next, back⟩ := lay.forLoop_inv
    have tested := leads_branchIfZero A stack cells leave v
    rw [if_neg nonzero] at tested
    exact ⟨m + 2, n, l, s₁, s₂, slot', rfl,
      (value.leads (ints c rfl) represents test stack).trans tested, inside, next, back⟩

/-- The code of a switch leads through the statements that are taken, with the value of the switch
on the stack. -/
theorem switch_linked {c body : Rose} {items : List Item} (compares : A.Compares)
    (kind : r.kind = .switching) (kids : r.children = [c, body]) (block : body.kind = .block)
    (labelled : List.Forall₂ Labelled body.children items) (value : Evaluates A σ c v)
    (ints : r.OnInts A s V) (represents : Represents s V cells σ)
    (lay : Lay M L X slot (r.toStatement s) a b slot') (stack : List Int) :
    ∃ m e : Nat, b = e + 2 ∧ Leads A M (.running a stack cells) (.running m (v :: stack) cells) ∧
    Linked A M L (⟨false, e, 0⟩ :: X) s (v :: stack) (Dispatch.taken items v) m e ∧
    CellsAt M e [Operation.code .branchIfZero, (e + 2 : Nat)] := by
  rw [toStatement_switching kind kids, toStatement_block block] at lay
  obtain ⟨m, e, s₁, rfl, -, first, inside, fails, drop⟩ := lay.switch_inv
  have room : e ≤ M.length := by
    have there : M[e]? = some (Operation.code .branchIfZero) := drop.1
    exact Nat.le_of_lt (List.getElem?_eq_some_iff.mp there).1
  refine ⟨m, e, rfl, value.leads (ints.child (by simp [kids])) represents first stack, ?_, drop⟩
  exact linked_items compares labelled inside room fails ⟨rfl, rfl⟩

/-- The statements of a switch that are taken are statements behind labels. -/
theorem mem_takenFrom {p : Dispatch.Spot} {items : List Item} {c : Rose}
    (mem : c ∈ Dispatch.takenFrom v p items) : ∃ item ∈ items, item.statement = c := by
  induction items generalizing p with
  | nil => simp [Dispatch.takenFrom] at mem
  | cons item rest ih =>
    rw [Dispatch.takenFrom] at mem
    split at mem
    · rcases List.mem_cons.mp mem with rfl | later
      · exact ⟨item, List.mem_cons_self, rfl⟩
      · obtain ⟨other, there, same⟩ := ih later
        exact ⟨other, List.mem_cons_of_mem _ there, same⟩
    · obtain ⟨other, there, same⟩ := ih mem
      exact ⟨other, List.mem_cons_of_mem _ there, same⟩

theorem Labelled.mem_nodes {item : Item} (labelled : Labelled r item) :
    item.statement ∈ r.nodes := by
  induction labelled with
  | none => exact mem_nodes_self _
  | case _ kids _ _ ih => exact mem_nodes_child (by simp [kids]) ih
  | default _ kids _ ih => exact mem_nodes_child (by simp [kids]) ih

/-- The statements of a switch that are taken lie in its body. -/
theorem mem_nodes_taken {cs : List Rose} {items : List Item} {c : Rose}
    (labelled : List.Forall₂ Labelled cs items) (mem : c ∈ Dispatch.taken items v) :
    ∃ d ∈ cs, c ∈ d.nodes := by
  obtain ⟨item, there, rfl⟩ := mem_takenFrom mem
  obtain ⟨k, inside, same⟩ := List.getElem_of_mem there
  have short : k < cs.length := labelled.length_eq ▸ inside
  have own : Labelled cs[k] item := same ▸ labelled.get short inside
  exact ⟨cs[k], List.getElem_mem short, own.mem_nodes⟩

/-- The end of a switch: its value is dropped, and a break has led there. -/
theorem Ends.outOfSwitch {e : Nat} (ends : Ends A M s V (⟨false, e, 0⟩ :: X) (v :: stack) e start o)
    (drop : CellsAt M e [Operation.code .branchIfZero, (e + 2 : Nat)]) :
    Ends A M s V X stack (e + 2) start o.outOfSwitch := by
  obtain ⟨stop, moved, arrives⟩ := ends
  cases arrives with
  | normal represents => exact .normal (moved.trans (leads_drop drop v)) represents
  | breaking exits represents =>
    obtain ⟨rfl, -⟩ := List.cons.inj exits
    exact .normal (moved.trans (leads_drop drop v)) represents
  | @continuing τ cells switches Y e' dropped rest exits inner loop values each represents =>
    cases switches with
    | nil =>
      obtain ⟨rfl, -⟩ := List.cons.inj exits
      simp at loop
    | cons x switches =>
      obtain ⟨u, dropped, rfl⟩ := List.exists_cons_of_length_eq_add_one each
      obtain ⟨-, later⟩ := List.cons.inj exits
      obtain ⟨-, left⟩ := List.cons.inj values
      exact ⟨_, moved, .continuing later (fun y mem =>
        inner y (List.mem_cons_of_mem _ mem)) loop left (by simpa using each) represents⟩
  | returned represents => exact ⟨_, moved, .returned represents⟩

/-- Statements do on the machine what they mean. -/
theorem Runs.ends {w : Work} (own : Set.InjOn s.displacementOf V)
    (runs : Runs A Dispatch.taken w σ o)
    (ints : w.Each (OnInts A s V)) (code : w.CodeAt A M L X s stack a b) (deep : Deep X stack)
    (represents : Represents s V cells σ) : Ends A M s V X stack b (.running a stack cells) o := by
  -- by induction on the run: whatever the exits, the stack and the addresses are, the code of what
  -- is left to do begins at `a`, and the cells hold the values of the variables there
  induction runs generalizing X stack a b cells with
  | nil =>
    cases code with
    | nil moves => exact .normal (moves cells) represents
  | cons _ _ first rest =>
    cases code with
    | @cons _ _ _ m k _ _ _ moves statement later =>
      obtain ⟨stop, moved, arrives⟩ :=
        first (ints _ List.mem_cons_self) ⟨_, _, statement⟩ deep represents
      cases arrives with
      | normal after =>
        exact .after ((moves cells).trans moved)
          (rest (fun r mem => ints r (List.mem_cons_of_mem _ mem)) later deep after)
  -- a statement that leaves the list skips the code of those behind it
  | abrupt _ leaves first =>
    cases code with
    | @cons _ _ _ m k _ _ _ moves statement later =>
      have ends := first (ints _ List.mem_cons_self) ⟨_, _, statement⟩ deep represents
      exact (ends.after (moves cells)).abrupt leaves
  | block kind _ all =>
    obtain ⟨_, _, lay⟩ := code
    rw [toStatement_block kind] at lay
    exact all (fun c mem => OnInts.child ints mem) (linked_of_all lay) deep represents
  | null kind =>
    obtain ⟨_, _, lay⟩ := code
    rw [toStatement_null (.inl kind)] at lay
    obtain ⟨rfl, -⟩ := lay.skip_inv
    exact .normal .refl represents
  | declaration kind _ all =>
    obtain ⟨_, _, lay⟩ := code
    rw [toStatement_declaration kind] at lay
    exact all (fun c mem => OnInts.child ints mem) (linked_of_all lay) deep represents
  | «variable» form =>
    obtain ⟨_, _, lay⟩ := code
    rw [toStatement_variable form] at lay
    obtain ⟨rfl, -⟩ := Lay.skip_inv lay
    exact .normal .refl represents
  | @initialized r e σ v form value =>
    obtain ⟨_, _, lay⟩ := code
    obtain ⟨there, type⟩ := (OnInts.self ints).declared form.kind
    rw [toStatement_variable form] at lay
    simp only [if_true, Option.map_some, Option.getD_some, scalarCode, type, isStructure_int,
      Bool.false_eq_true, if_false] at lay
    obtain ⟨m, _, first, last⟩ := lay.seq_inv
    obtain ⟨stored, -, -, rfl, -⟩ := last.plain_inv
    have void : ((Instruction.store .assign .base).stepped (TypeId.isFloating TypeId.int)
        .toFloat).stepped true .toVoid = .store .assign .silent :=
      stepped_void .assign
    rw [void] at stored
    exact .normal ((value.leads (OnInts.child ints (by simp [form.kids])) represents
      first stack).trans (leads_store stored rfl)) (represents.update own there v)
  | change changes =>
    obtain ⟨_, _, lay⟩ := code
    rw [toStatement_expr changes.isExpression] at lay
    obtain ⟨cells', moved, after⟩ := changes.leads own ints represents lay stack
    exact .normal moved after
  -- from here on the value of a test is on the stack, and its branch takes it off
  | @ifOnlyYes r c y σ v o kind flag kids test nonzero _ yes =>
    obtain ⟨_, _, lay⟩ := code
    rw [toStatement_ifOnly kind flag kids] at lay
    obtain ⟨m, _, first, branch, second⟩ := lay.only_inv
    have tested := leads_branchIfZero A stack cells branch v
    rw [if_neg nonzero] at tested
    refine .after
      ((test.leads (OnInts.child ints (by simp [kids])) represents first stack).trans tested) ?_
    exact yes (OnInts.child ints (by simp [kids])) ⟨_, _, second⟩ deep represents
  | @ifOnlyNo r c y σ kind flag kids test =>
    obtain ⟨_, _, lay⟩ := code
    rw [toStatement_ifOnly kind flag kids] at lay
    obtain ⟨m, _, first, branch, -⟩ := lay.only_inv
    have tested := leads_branchIfZero A stack cells branch 0
    rw [if_pos rfl] at tested
    exact .normal ((test.leads (OnInts.child ints (by simp [kids])) represents first stack).trans
      tested) represents
  | @ifElseYes r c y n σ v o kind flag kids test nonzero _ yes =>
    obtain ⟨_, _, lay⟩ := code
    rw [toStatement_ifElse kind flag kids] at lay
    obtain ⟨m, k, _, _, first, branch, second, across, -⟩ := lay.choose_inv
    have tested := leads_branchIfZero A stack cells branch v
    rw [if_neg nonzero] at tested
    refine .after
      ((test.leads (OnInts.child ints (by simp [kids])) represents first stack).trans tested) ?_
    exact (yes (OnInts.child ints (by simp [kids])) ⟨_, _, second⟩ deep represents).andThen
        fun cells => leads_branch across
  | @ifElseNo r c y n σ o kind flag kids test _ no =>
    obtain ⟨_, _, lay⟩ := code
    rw [toStatement_ifElse kind flag kids] at lay
    obtain ⟨m, k, _, _, first, branch, -, -, third⟩ := lay.choose_inv
    have tested := leads_branchIfZero A stack cells branch 0
    rw [if_pos rfl] at tested
    refine .after
      ((test.leads (OnInts.child ints (by simp [kids])) represents first stack).trans tested) ?_
    exact no (OnInts.child ints (by simp [kids])) ⟨_, _, third⟩ deep represents
  | @whileDone r c body σ kind kids test =>
    obtain ⟨_, _, lay⟩ := code
    rw [toStatement_whileLoop kind kids] at lay
    obtain ⟨m, k, _, rfl, first, leave, -, -⟩ := lay.whileLoop_inv
    have tested := leads_branchIfZero A stack cells leave 0
    rw [if_pos rfl] at tested
    exact .normal ((test.leads (OnInts.child ints (by simp [kids])) represents first stack).trans
      tested) represents
  -- after a body that ends or continues, the machine is at the test with the code it began with
  | @whileRound r c body σ τ v o o' kind kids test nonzero _ goes _ inside again =>
    have lay := code
    obtain ⟨_, _, lay⟩ := lay
    rw [toStatement_whileLoop kind kids] at lay
    obtain ⟨m, k, _, rfl, first, leave, second, back⟩ := lay.whileLoop_inv
    have tested := leads_branchIfZero A stack cells leave v
    rw [if_neg nonzero] at tested
    have round :=
      inside (OnInts.child ints (by simp [kids])) ⟨_, _, second⟩ (Deep.loop rfl stack) represents
    obtain ⟨cells', pc, moved, place, after⟩ := round.goesOn goes rfl
    have returned : Leads A M (.running pc stack cells') (.running a stack cells') := by
      rcases place with rfl | rfl
      · exact leads_branch back
      · exact .refl
    refine .after (((test.leads (OnInts.child ints (by simp [kids])) represents first stack).trans
      tested).trans (moved.trans returned)) ?_
    exact again ints code deep after
  | @whileLeft r c body σ v o o' kind kids test nonzero _ left inside =>
    obtain ⟨_, _, lay⟩ := code
    rw [toStatement_whileLoop kind kids] at lay
    obtain ⟨m, k, _, rfl, first, leave, second, back⟩ := lay.whileLoop_inv
    have tested := leads_branchIfZero A stack cells leave v
    rw [if_neg nonzero] at tested
    refine .after
      ((test.leads (OnInts.child ints (by simp [kids])) represents first stack).trans tested) ?_
    exact (inside (OnInts.child ints (by simp [kids])) ⟨_, _, second⟩ (Deep.loop rfl stack)
      represents).leaves left rfl
  -- a `continue` in a `do` loop lands where the body ends, in front of the test
  | @doDone r body c σ τ o kind kids _ goes test inside =>
    obtain ⟨_, _, lay⟩ := code
    rw [toStatement_doWhile kind kids] at lay
    obtain ⟨m, k, _, rfl, first, second, back⟩ := lay.doWhile_inv
    have round :=
      inside (OnInts.child ints (by simp [kids])) ⟨_, _, first⟩ (Deep.loop rfl stack) represents
    obtain ⟨cells', pc, moved, place, after⟩ := round.goesOn goes rfl
    obtain rfl : pc = m := by simpa using place
    have tested := leads_branchUnlessZero A stack cells' back 0
    rw [if_pos rfl] at tested
    exact .normal ((moved.trans
      (test.leads (OnInts.child ints (by simp [kids])) after second stack)).trans tested) after
  | @doRound r body c σ τ v o o' kind kids _ goes test nonzero _ inside again =>
    have lay := code
    obtain ⟨_, _, lay⟩ := lay
    rw [toStatement_doWhile kind kids] at lay
    obtain ⟨m, k, _, rfl, first, second, back⟩ := lay.doWhile_inv
    have round :=
      inside (OnInts.child ints (by simp [kids])) ⟨_, _, first⟩ (Deep.loop rfl stack) represents
    obtain ⟨cells', pc, moved, place, after⟩ := round.goesOn goes rfl
    obtain rfl : pc = m := by simpa using place
    have tested := leads_branchUnlessZero A stack cells' back v
    rw [if_neg nonzero] at tested
    refine .after ((moved.trans
      (test.leads (OnInts.child ints (by simp [kids])) after second stack)).trans tested) ?_
    exact again ints code deep after
  | @doLeft r body c σ o o' kind kids _ left inside =>
    obtain ⟨_, _, lay⟩ := code
    rw [toStatement_doWhile kind kids] at lay
    obtain ⟨m, k, _, rfl, first, second, back⟩ := lay.doWhile_inv
    exact (inside (OnInts.child ints (by simp [kids])) ⟨_, _, first⟩ (Deep.loop rfl stack)
      represents).leaves left rfl
  -- what stands in front of a `for` loop runs once; its rounds are work of their own
  | @forLoop r body init cond step σ τ o kind kids hasInit hasCond hasStep begins _ rounds =>
    obtain ⟨_, _, lay⟩ := code
    have member {c : Rose} (mem : c ∈ init.toList ++ cond.toList ++ step.toList ++ [body]) :
      c ∈ r.children :=
      kids ▸ mem
    rw [toStatement_forLoop kind kids hasInit hasCond hasStep, begins.initCode] at lay
    obtain ⟨m, _, first, loop⟩ := lay.seq_inv
    obtain ⟨cells', moved, after⟩ := begins.leads own (fun e mem =>
      OnInts.child ints (member (by simp [Option.mem_def.mp mem]))) represents first stack
    refine .after moved (rounds ⟨fun c mem => OnInts.child ints
      (member (by simp [Option.mem_def.mp mem])), OnInts.child ints (member (by simp)), fun e mem =>
      OnInts.child ints (member (by simp [Option.mem_def.mp mem]))⟩ ⟨_, _, loop⟩ deep after)
  | @forDone body c step σ test =>
    obtain ⟨_, _, lay⟩ := code
    obtain ⟨m, n, l, _, _, rfl, first, leave, -, -, -⟩ := lay.forLoop_inv
    have tested := leads_branchIfZero A stack cells leave 0
    rw [if_pos rfl] at tested
    exact .normal ((test.leads (ints.1 c rfl) represents first stack).trans tested) represents
  -- the step comes behind the body, and the branch behind it goes back to the test
  | @forRound body cond step σ τ υ o o' holds _ goes next _ inside again =>
    have lay := code
    obtain ⟨_, _, lay⟩ := lay
    obtain ⟨m, n, l, _, _, _, rfl, tested, second, third, back⟩ :=
      holds.leads ints.1 represents lay stack
    have round := inside ints.2.1 ⟨_, _, second⟩ (Deep.loop rfl stack) represents
    obtain ⟨cells', pc, moved, place, after⟩ := round.goesOn goes rfl
    obtain rfl : pc = n := by simpa using place
    obtain ⟨cells'', stepped, later⟩ := next.leads own ints.2.2 after third stack
    exact .after ((tested.trans moved).trans (stepped.trans (leads_branch back)))
      (again ints code deep later)
  | @forLeft body cond step σ o o' holds _ left inside =>
    obtain ⟨_, _, lay⟩ := code
    obtain ⟨m, n, l, _, _, _, rfl, tested, second, -, -⟩ := holds.leads ints.1 represents lay stack
    exact .after tested
      ((inside ints.2.1 ⟨_, _, second⟩ (Deep.loop rfl stack) represents).leaves left rfl)
  -- the value of a switch lies below the stack of its body until the drop at its end
  | @switching r c body items σ v o kind kids value block labelled _ inside =>
    obtain ⟨_, _, lay⟩ := code
    have able : A.Compares := (OnInts.self ints).compares kind
    obtain ⟨m, e, rfl, moved, linked, drop⟩ :=
      switch_linked able kind kids block labelled value ints represents lay stack
    have body_ints : body.OnInts A s V := OnInts.child ints (by simp [kids])
    refine .after moved ((inside ?_ linked (deep.switch rfl) represents).outOfSwitch drop)
    intro d mem
    obtain ⟨child, there, inner⟩ := mem_nodes_taken labelled mem
    exact fun x below => body_ints.child there x (mem_nodes_trans below inner)
  | breaking kind =>
    obtain ⟨_, _, lay⟩ := code
    rw [toStatement_breaking kind] at lay
    obtain ⟨e, Y, rfl, jump, -, -⟩ := lay.breaking_inv
    exact ⟨_, leads_step (step_of_cells (Instruction.mem_all_single _) jump rfl),
      .breaking rfl represents⟩
  -- one drop for each switch between the statement and its loop
  | continuing kind =>
    obtain ⟨_, _, lay⟩ := code
    rw [toStatement_continuing kind] at lay
    obtain ⟨switches, e, Y, rfl, inner, loop, drops, jump, -, -⟩ := lay.continuing_inv
    have enough : switches.length ≤ stack.length := by
      have whole : (switches ++ e :: Y).takeWhile (fun x => !x.isLoop) = switches := by
        rw [List.takeWhile_append_of_pos (by simpa using inner)]
        simp [loop]
      rw [Deep, whole] at deep
      exact deep
    have dropped := leads_drops A cells drops (stack.take switches.length)
      (stack.drop switches.length) (by simpa using enough)
    rw [List.take_append_drop] at dropped
    exact ⟨_, dropped.trans (leads_step (step_of_cells (Instruction.mem_all_single _) jump rfl)),
      .continuing rfl inner loop (List.take_append_drop _ _).symm
      (by simpa using enough) represents⟩
  | returnVoid kind kids =>
    obtain ⟨_, _, lay⟩ := code
    rw [toStatement_returnVoid kind kids] at lay
    obtain ⟨back, -, -, -, -⟩ := lay.plain_inv
    exact ⟨_, leads_returnVoid back, .returned represents⟩
  | @returnValue r e σ v kind kids value =>
    obtain ⟨_, _, lay⟩ := code
    have below : e.OnInts A s V := OnInts.child ints (by simp [kids])
    rw [toStatement_returnValue kind kids, value.type below, sizeOf_int] at lay
    obtain ⟨m, _, first, last⟩ := lay.seq_inv
    obtain ⟨back, -, -, -, -⟩ := last.plain_inv
    exact ⟨_, (value.leads below represents first stack).trans (leads_returnValue back),
      .returned represents⟩

/-- In every switch of a tree the labels are in order. -/
def Rose.SwitchesOrdered (r : Rose) : Prop :=
  ∀ x ∈ r.nodes, x.kind = .switching →
    ∀ body ∈ x.children[1]?, Dispatch.Ordered (body.children.map caseLabels)

instance (r : Rose) : Decidable r.SwitchesOrdered :=
  inferInstanceAs (Decidable (∀ x ∈ r.nodes, x.kind = .switching → ∀ body ∈ x.children[1]?,
    Dispatch.Ordered (body.children.map caseLabels)))

theorem Rose.SwitchesOrdered.child {c : Rose} (h : r.SwitchesOrdered) (mem : c ∈ r.children) :
    c.SwitchesOrdered :=
  fun x inside => h x (mem_nodes_child mem inside)

theorem Rose.SwitchesOrdered.taken {c : Rose} {cs : List Rose} {items : List Item}
    (h : ∀ d ∈ cs, d.SwitchesOrdered) (labelled : List.Forall₂ Labelled cs items)
    (mem : c ∈ Dispatch.taken items v) : c.SwitchesOrdered := by
  obtain ⟨d, there, inside⟩ := mem_nodes_taken labelled mem
  exact fun x below => h d there x (mem_nodes_trans below inside)

/-- Where all labels are in order, the code executes what is meant. -/
theorem Runs.taken_of_meant {w : Work} (runs : Runs A Dispatch.meant w σ o)
    (ordered : w.Each SwitchesOrdered) : Runs A Dispatch.taken w σ o := by
  -- the two ways to run a body differ in switches only, and agree where labels are in order
  induction runs with
  | nil => exact .nil
  | cons _ _ first rest =>
    exact .cons (first (ordered _ List.mem_cons_self)) (rest fun r mem =>
      ordered r (List.mem_cons_of_mem _ mem))
  | abrupt _ leaves first => exact .abrupt (first (ordered _ List.mem_cons_self)) leaves
  | block kind _ all => exact .block kind (all fun c mem => SwitchesOrdered.child ordered mem)
  | null kind => exact .null kind
  | declaration kind _ all =>
    exact .declaration kind (all fun c mem => SwitchesOrdered.child ordered mem)
  | «variable» form => exact .variable form
  | initialized form value => exact .initialized form value
  | change changes => exact .change changes
  | ifOnlyYes kind flag kids test holds _ yes =>
    exact .ifOnlyYes kind flag kids test holds
      (yes (SwitchesOrdered.child ordered (by simp [kids])))
  | ifOnlyNo kind flag kids test => exact .ifOnlyNo kind flag kids test
  | ifElseYes kind flag kids test holds _ yes =>
    exact .ifElseYes kind flag kids test holds
      (yes (SwitchesOrdered.child ordered (by simp [kids])))
  | ifElseNo kind flag kids test _ no =>
    exact .ifElseNo kind flag kids test (no (SwitchesOrdered.child ordered (by simp [kids])))
  | whileDone kind kids test => exact .whileDone kind kids test
  | whileRound kind kids test holds _ goes _ body again =>
    exact .whileRound kind kids test holds
      (body (SwitchesOrdered.child ordered (by simp [kids]))) goes (again ordered)
  | whileLeft kind kids test holds _ ends body =>
    exact .whileLeft kind kids test holds
      (body (SwitchesOrdered.child ordered (by simp [kids]))) ends
  | doDone kind kids _ goes test body =>
    exact .doDone kind kids (body (SwitchesOrdered.child ordered (by simp [kids]))) goes test
  | doRound kind kids _ goes test holds _ body again =>
    exact .doRound kind kids (body (SwitchesOrdered.child ordered (by simp [kids]))) goes test holds
      (again ordered)
  | doLeft kind kids _ ends body =>
    exact .doLeft kind kids (body (SwitchesOrdered.child ordered (by simp [kids]))) ends
  | @forLoop r body init cond step σ τ o kind kids hasInit hasCond hasStep start _ rounds =>
    have member {c : Rose} (mem : c ∈ init.toList ++ cond.toList ++ step.toList ++ [body]) :
      c.SwitchesOrdered :=
      SwitchesOrdered.child ordered (kids ▸ mem)
    refine .forLoop kind kids hasInit hasCond hasStep start
      (rounds ⟨fun c mem => member ?_, member (by simp), fun c mem => member ?_⟩)
    · simp [Option.mem_def.mp mem]
    · simp [Option.mem_def.mp mem]
  | forDone test => exact .forDone test
  | forRound holds _ goes next _ body again =>
    exact .forRound holds (body ordered.2.1) goes next (again ordered)
  | forLeft holds _ ends body => exact .forLeft holds (body ordered.2.1) ends
  | @switching r c body items σ v o kind kids value block labelled _ inside =>
    have inOrder : Dispatch.Ordered (body.children.map caseLabels) :=
      ordered r r.mem_nodes_self kind body (by simp [kids])
    have same := Dispatch.taken_eq_meant (labels_of_labelled labelled ▸ inOrder) v
    have below : body.SwitchesOrdered := SwitchesOrdered.child ordered (by simp [kids])
    refine .switching kind kids value block labelled ?_
    rw [same]
    exact inside fun d mem => .taken (fun e there => below.child there) labelled (same ▸ mem)
  | breaking kind => exact .breaking kind
  | continuing kind => exact .continuing kind
  | returnVoid kind kids => exact .returnVoid kind kids
  | returnValue kind kids value => exact .returnValue kind kids value

end Statements

end BilingualC
