import Mathlib
import BilingualC.Operator
import BilingualC.Proofs.Lowering.Flow

/-!
# The stack machine

The part of the machine that runs code on integers: constants and frame cells are pushed, operators
replace their operands by the result, a store without a result changes a frame cell, tests take the
value on top, and a return ends the function. What the operators compute is left open.

An instruction that finds too few values, or an operator without a result, stops the machine.
-/

namespace BilingualC

/-- What the operators compute. -/
structure Arithmetic where
  unary : UnaryOp → Int → Option Int
  binary : BinaryOp → Int → Int → Option Int

/-- The arithmetic in which constants are evaluated. -/
def Arithmetic.words : Arithmetic := ⟨UnaryOp.onInt, BinaryOp.onInts⟩

/-! ## Instructions -/

/-- The operator with one operand that an operation carries out. -/
def Operation.unary? : Operation → Option UnaryOp
  | .negate => some .minus
  | .complement => some .complement
  | .logicalNot => some .logicalNot
  | .absolute => some .absolute
  | _ => none

/-- The operator with two operands that an operation carries out. -/
def Operation.binary? : Operation → Option BinaryOp
  | .rem => some .rem
  | .shl => some .shl
  | .shr => some .shr
  | .and => some .and
  | .xor => some .xor
  | .or => some .or
  | .logicalAnd => some .logicalAnd
  | .logicalOr => some .logicalOr
  | .equal => some .equal
  | .notEqual => some .notEqual
  | .less => some .less
  | .greater => some .greater
  | .lessEqual => some .lessEqual
  | .greaterEqual => some .greaterEqual
  | .add => some .add
  | .sub => some .sub
  | .mul => some .mul
  | .div => some .div
  | _ => none

/-- The operator that a family applies to the cell before it stores. -/
def Family.binary? : Family → Option BinaryOp
  | .rem => some .rem
  | .shl => some .shl
  | .shr => some .shr
  | .and => some .and
  | .xor => some .xor
  | .or => some .or
  | .add => some .add
  | .sub => some .sub
  | .mul => some .mul
  | .div => some .div
  | _ => none

/-- The stack after an operation on values. -/
def Operation.compute (A : Arithmetic) (o : Operation) (stack : List Int) : Option (List Int) :=
  match o.unary?, o.binary?, stack with
  | some op, _, v :: rest => (A.unary op v).map (· :: rest)
  | _, some op, right :: left :: rest => (A.binary op left right).map (· :: rest)
  | _, _, _ => none

/-- What a family stores in a cell, and the stack after it took its operand. -/
def Family.update (A : Arithmetic) (f : Family) (old : Int) (stack : List Int) :
    Option (Int × List Int) :=
  match f, stack with
  | .preIncrement, rest | .postIncrement, rest => (A.binary .add old 1).map (·, rest)
  | .preDecrement, rest | .postDecrement, rest => (A.binary .sub old 1).map (·, rest)
  | .assign, v :: rest => some (v, rest)
  | f, v :: rest =>
    match f.binary? with
    | some op => (A.binary op old v).map (·, rest)
    | none => none
  | _, [] => none

/-- The member of a family that stores an integer in a frame cell and leaves nothing. -/
def Member.silent : Member := ⟨false, false, true⟩

/-! ## Steps -/

namespace Machine

/-- A state of the machine: an address, the values on the stack and the cells of the frame; or the
value that a function has returned. -/
inductive State where
  | running (pc : Nat) (stack : List Int) (cells : Int → Int)
  | returned (value : Option Int) (cells : Int → Int)

/-- What an instruction does. The address behind it is `next`. -/
def execute (A : Arithmetic) (next : Nat) (stack : List Int) (cells : Int → Int) (i : Instruction)
    (operands : List Int) : Option State :=
  match i, operands, stack with
  | .single .loadConstant, [v], rest => some (.running next (v :: rest) cells)
  | .single .load, [d], rest => some (.running next (cells d :: rest) cells)
  | .single .duplicate, [], v :: rest => some (.running next (v :: v :: rest) cells)
  | .single .branch, [t], rest => some (.running t.toNat rest cells)
  | .single .branchIfZero, [t], v :: rest =>
    some (.running (if v = 0 then t.toNat else next) rest cells)
  | .single .branchUnlessZero, [t], v :: rest =>
    some (.running (if v = 0 then next else t.toNat) rest cells)
  | .single .returnVoid, [], _ => some (.returned none cells)
  | .single .returnValue, [1], v :: _ => some (.returned (some v) cells)
  | .single o, [], rest => (o.compute A rest).map (.running next · cells)
  | .store f m, [d], rest =>
    if m = .silent then
      (f.update A (cells d) rest).map fun new => .running next new.2 (Function.update cells d new.1)
    else none
  | _, _, _ => none

/-- One step. -/
def step (A : Arithmetic) (M : List Int) : State → Option State
  | .running pc stack cells =>
    match instructionAt M pc with
    | some (i, operands) => execute A (pc + 1 + operands.length) stack cells i operands
    | none => none
  | .returned _ _ => none

/-- A state is followed by another one after some steps. -/
def Leads (A : Arithmetic) (M : List Int) : State → State → Prop :=
  Relation.ReflTransGen fun before after => step A M before = some after

/-! ## Single instructions -/

section Instructions

variable {A : Arithmetic} {M : List Int} {a : Nat} {stack : List Int} {cells : Int → Int}

theorem step_of_cells {i : Instruction} {operands : List Int} (listed : i ∈ Instruction.all)
    (code : CellsAt M a (i.code :: operands)) (count : operands.length = i.operands) : step A M
    (.running a stack cells) = execute A (a + 1 + operands.length) stack cells i operands := by
  simp only [step, instructionAt_of_cells listed code count]

theorem leads_step {s t : State} (moves : step A M s = some t) : Leads A M s t := .single moves

theorem leads_constant {v : Int} (code : CellsAt M a [Operation.code .loadConstant, v]) :
    Leads A M (.running a stack cells) (.running (a + 2) (v :: stack) cells) :=
  leads_step (step_of_cells (Instruction.mem_all_single _) code rfl)

theorem leads_load {d : Int} (code : CellsAt M a [Operation.code .load, d]) :
    Leads A M (.running a stack cells) (.running (a + 2) (cells d :: stack) cells) :=
  leads_step (step_of_cells (Instruction.mem_all_single _) code rfl)

theorem leads_duplicate {v : Int} (code : CellsAt M a [Operation.code .duplicate]) :
    Leads A M (.running a (v :: stack) cells) (.running (a + 1) (v :: v :: stack) cells) :=
  leads_step (step_of_cells (Instruction.mem_all_single _) code rfl)

theorem leads_branch {t : Nat} (code : CellsAt M a [Operation.code .branch, (t : Int)]) :
    Leads A M (.running a stack cells) (.running t stack cells) :=
  leads_step (step_of_cells (Instruction.mem_all_single _) code rfl)

theorem leads_branchIfZero (A : Arithmetic) (stack : List Int) (cells : Int → Int) {t : Nat}
    (code : CellsAt M a [Operation.code .branchIfZero, (t : Int)]) (v : Int) :
    Leads A M (.running a (v :: stack) cells) (.running (if v = 0 then t else a + 2) stack cells) :=
  leads_step (step_of_cells (Instruction.mem_all_single _) code rfl)

theorem leads_branchUnlessZero (A : Arithmetic) (stack : List Int) (cells : Int → Int) {t : Nat}
    (code : CellsAt M a [Operation.code .branchUnlessZero, (t : Int)]) (v : Int) :
    Leads A M (.running a (v :: stack) cells) (.running (if v = 0 then a + 2 else t) stack cells) :=
  leads_step (step_of_cells (Instruction.mem_all_single _) code rfl)

theorem leads_returnVoid (code : CellsAt M a [Operation.code .returnVoid]) :
    Leads A M (.running a stack cells) (.returned none cells) :=
  leads_step (step_of_cells (Instruction.mem_all_single _) code rfl)

theorem leads_returnValue {v : Int} (code : CellsAt M a [Operation.code .returnValue, 1]) :
    Leads A M (.running a (v :: stack) cells) (.returned (some v) cells) :=
  leads_step (step_of_cells (Instruction.mem_all_single _) code rfl)

theorem leads_drop (code : CellsAt M a [Operation.code .branchIfZero, ((a + 2 : Nat) : Int)])
    (v : Int) : Leads A M (.running a (v :: stack) cells) (.running (a + 2) stack cells) := by
  have moved : Leads A M (.running a (v :: stack) cells)
    (.running (if v = 0 then a + 2 else a + 2) stack cells) :=
    leads_branchIfZero A stack cells code v
  rwa [ite_self] at moved

/-- An operation on values leads to the stack that it computes. -/
theorem leads_compute {o : Operation} {after : List Int} (code : CellsAt M a [o.code])
    (computes : o.compute A stack = some after) :
    Leads A M (.running a stack cells) (.running (a + 1) after cells) := by
  have operates : o.unary?.isSome = true ∨ o.binary?.isSome = true := by
    cases one : o.unary? with
    | some _ => exact .inl rfl
    | none =>
      cases two : o.binary? with
      | some _ => exact .inr rfl
      | none => simp [Operation.compute, one, two] at computes
  have count : ([] : List Int).length = o.operands := by
    cases o <;> first | rfl | simp [Operation.unary?, Operation.binary?] at operates
  have runs : execute A (a + 1) stack cells (.single o) [] =
    (o.compute A stack).map (.running (a + 1) · cells) := by
    cases o <;> first | rfl | simp [Operation.unary?, Operation.binary?] at operates
  refine leads_step ((step_of_cells (Instruction.mem_all_single o) code count).trans ?_)
  rw [List.length_nil, Nat.add_zero, runs, computes]
  rfl

/-- A store leads to the cells that it updates. -/
theorem leads_store {f : Family} {d new : Int} {after : List Int}
    (code : CellsAt M a [(Instruction.store f .silent).code, d])
    (updates : f.update A (cells d) stack = some (new, after)) :
    Leads A M (.running a stack cells) (.running (a + 2) after (Function.update cells d new)) := by
  have count : [d].length = (Instruction.store f .silent).operands := by
    cases f <;> first | rfl | (cases stack <;> simp [Family.update, Family.binary?] at updates)
  refine leads_step
    ((step_of_cells (Instruction.mem_all_store (by simp [Member.silent])) code count).trans ?_)
  simp only [execute, if_true, updates, Option.map_some, List.length_singleton]

end Instructions

end Machine

end BilingualC
