import Mathlib
import BilingualC.Proofs.Lowering.Code
import BilingualC.Proofs.Lowering.Put

/-!
# The chosen instructions

Every operator of a well-formed expression has an instruction, and every step that the generator
takes from it leads to an instruction. The code of a well-formed tree is therefore proper: each
instruction has the operands that it needs.
-/

namespace BilingualC

namespace Instruction

/-- A step exists, if it is taken at all. -/
def CanStep (condition : Bool) (d : Derivation) (i : Instruction) : Prop :=
  condition = true → ∃ out, i.derive d = .ok out

/-- An instruction that stores to a displacement and takes `extra` further operands. -/
def Stores (i : Instruction) (extra : Nat) : Prop :=
  ∃ f m, i = .store f m ∧ m.address = false ∧ f.operands = extra + 1 ∧
    (m.float = true → f.hasFloat = true)

/-- An instruction that only works on the stack. -/
def IsSimple (i : Instruction) : Prop :=
  ∃ o : Operation, i = .single o ∧ o.operands = 0 ∧ o.isControl = false

theorem IsSimple.flat {i : Instruction} (simple : i.IsSimple) : (Piece.plain i []).Flat := by
  obtain ⟨o, rfl, count, plain⟩ := simple
  exact ⟨count.symm, by simp [isPlain, plain]⟩

variable {i : Instruction} {extra : Nat}

theorem Stores.toVoid (stores : i.Stores extra) (void : Bool) :
    i.CanStep void .toVoid ∧ (i.stepped void .toVoid).Stores extra := by
  obtain ⟨f, m, rfl, address, count, float⟩ := stores
  have listed : (f.hasFloat || !m.float) = true := by
    cases flag : m.float <;> simp_all
  have step : derive .toVoid (.store f m) = .ok (.store f { m with void := true }) := by
    simp only [derive, deriveMember, Instruction.step, listed, if_true]
  cases void
  · exact ⟨nofun, f, m, rfl, address, count, float⟩
  · refine ⟨fun _ => ⟨_, step⟩, f, { m with void := true }, ?_, address, count, float⟩
    simp only [stepped, step, if_true]

theorem Stores.toFloat (stores : i.Stores extra) (isFloat : Bool)
    (has : isFloat = true → ∃ f m, i = .store f m ∧ f.hasFloat = true) :
    i.CanStep isFloat .toFloat ∧ (i.stepped isFloat .toFloat).Stores extra := by
  cases isFloat
  · exact ⟨nofun, stores⟩
  · obtain ⟨f, m, rfl, address, count, _⟩ := stores
    obtain ⟨_, _, same, listed⟩ := has rfl
    cases same
    have step : derive .toFloat (.store f m) = .ok (.store f { m with float := true }) := by
      simp only [derive, deriveMember, Instruction.step, listed, Bool.true_or, if_true]
    refine ⟨fun _ => ⟨_, step⟩, f, { m with float := true }, ?_, address, count, fun _ => listed⟩
    simp only [stepped, step, if_true]

/-- The instruction that stores through an address has one operand less. -/
theorem Stores.toAddress (stores : i.Stores extra) :
    i.CanStep true .toAddress ∧ (i.stepped true .toAddress).operands = extra ∧
      (i.stepped true .toAddress).isPlain = true := by
  obtain ⟨f, m, rfl, address, count, float⟩ := stores
  have listed : (f.hasFloat || !m.float) = true := by
    cases flag : m.float <;> simp_all
  have step : derive .toAddress (.store f m) = .ok (.store f { m with address := true }) := by
    simp only [derive, deriveMember, Instruction.step, listed, if_true]
  refine ⟨fun _ => ⟨_, step⟩, ?_⟩
  simp only [stepped, step, if_true, operands, count, isPlain]
  exact ⟨rfl, listed⟩

theorem Stores.operands (stores : i.Stores extra) : i.operands = extra + 1 ∧ i.isPlain = true := by
  obtain ⟨f, m, rfl, address, count, float⟩ := stores
  refine ⟨by simp [Instruction.operands, address, count], ?_⟩
  cases flag : m.float <;> simp_all [isPlain]

/-! ## Operators -/

theorem stores_record : (Instruction.store .record .base).Stores 1 := ⟨_, _, rfl, rfl, rfl, nofun⟩

theorem stores_assign : (Instruction.store .assign .base).Stores 0 := ⟨_, _, rfl, rfl, rfl, nofun⟩

theorem ofBinary_stores {op : BinaryOp} (stores : op.stores = true) :
    ∃ f, ofBinary op = .ok (.store f .base) ∧ f.operands = 1 ∧ f.hasFloat = !op.isIntegerOnly := by
  cases op with
  | unlisted n => exact absurd stores (by simp [BinaryOp.stores])
  | _ => first | exact absurd stores (by decide) | exact ⟨_, rfl, rfl, rfl⟩

theorem ofUnary_steps {op : UnaryOp} (steps : op.steps = true) :
    ∃ f, ofUnary op = .ok (.store f .base) ∧ f.operands = 1 ∧ f.hasFloat = true := by
  cases op with
  | unlisted n => exact absurd steps (by simp [UnaryOp.steps])
  | _ => first | exact absurd steps (by decide) | exact ⟨_, rfl, rfl, rfl⟩

theorem ofUnary_value {op : UnaryOp} (value : op.givesValue = true) (isFloat : Bool)
    (integer : op = .complement → isFloat = false) (logical : op = .logicalNot → isFloat = false) :
    ∃ i, ofUnary op = .ok i ∧ i.CanStep isFloat .toFloat ∧
    (i.stepped isFloat .toFloat).IsSimple := by
  cases op with
  | minus | absolute => cases isFloat <;> exact ⟨_, rfl, fun _ => ⟨_, rfl⟩, _, rfl, rfl, rfl⟩
  | complement =>
    cases integer rfl
    exact ⟨_, rfl, nofun, _, rfl, rfl, rfl⟩
  | logicalNot =>
    cases logical rfl
    exact ⟨_, rfl, nofun, _, rfl, rfl, rfl⟩
  | _ => exact absurd value (by simp [UnaryOp.givesValue])

theorem ofBinary_value {op : BinaryOp} (value : op.givesValue = true) {isFloat : Bool}
    (integer : op.isIntegerOnly = true → isFloat = false) : ∃ i, ofBinary op = .ok i ∧
    i.CanStep isFloat .toFloat ∧ (i.stepped isFloat .toFloat).IsSimple := by
  cases op with
  | rem | shl | shr | and | xor | or =>
    cases integer rfl
    exact ⟨_, rfl, nofun, _, rfl, rfl, rfl⟩
  | mul | div | add | sub | less | greater | lessEqual | greaterEqual | equal | notEqual =>
    cases isFloat <;> exact ⟨_, rfl, fun _ => ⟨_, rfl⟩, _, rfl, rfl, rfl⟩
  | _ =>
    exact absurd value (by simp [BinaryOp.givesValue, BinaryOp.isAssignment, BinaryOp.isLogical])

theorem ofBuiltin_listed {b : Builtin} (listed : b.isListed = true)
    (plain : b ≠ .printf ∧ b ≠ .print ∧ b ≠ .printid ∧ b ≠ .getid) :
    ∃ i, ofBuiltin b = .ok i ∧ i.IsSimple := by
  cases b with
  | printf | print | printid | getid => simp at plain
  | unlisted n => exact absurd listed (by simp [Builtin.isListed])
  | _ => exact ⟨_, rfl, _, rfl, rfl, rfl⟩

/-- The instruction of an assignment after its steps. -/
theorem stores_assignment {op : BinaryOp} (stores : op.stores = true) {isFloat : Bool}
    (integer : op.isIntegerOnly = true → isFloat = false) : ∃ i, ofBinary op = .ok i ∧
    i.CanStep isFloat .toFloat ∧ (i.stepped isFloat .toFloat).Stores 0 := by
  obtain ⟨f, chosen, count, float⟩ := ofBinary_stores stores
  have base : (Instruction.store f .base).Stores 0 := ⟨f, .base, rfl, rfl, count, nofun⟩
  refine ⟨_, chosen, base.toFloat _ fun isFloat => ⟨f, _, rfl, ?_⟩⟩
  cases only : op.isIntegerOnly
  · simp [float, only]
  · simp [integer only] at isFloat

theorem stores_step {op : UnaryOp} (steps : op.steps = true) (isFloat : Bool) :
    ∃ i, ofUnary op = .ok i ∧ i.CanStep isFloat .toFloat ∧
    (i.stepped isFloat .toFloat).Stores 0 := by
  obtain ⟨f, chosen, count, float⟩ := ofUnary_steps steps
  have base : (Instruction.store f .base).Stores 0 := ⟨f, .base, rfl, rfl, count, nofun⟩
  exact ⟨_, chosen, base.toFloat _ fun _ => ⟨f, _, rfl, float⟩⟩

end Instruction

open Instruction

theorem UnaryOp.isStep_of_steps {op : UnaryOp} (steps : op.steps = true) : op.isStep = true := by
  cases op <;> simp_all [UnaryOp.steps, UnaryOp.isStep]

theorem UnaryOp.isStep_of_givesValue {op : UnaryOp} (value : op.givesValue = true) :
    op.isStep = false := by
  cases op <;> simp_all [UnaryOp.givesValue, UnaryOp.isStep]

/-! ## Flat code -/

namespace Rose

variable {s : Session}

theorem flat_op {o : Operation} {operands : List Int} (count : operands.length = o.operands)
    (plain : o.isControl = false) : (Piece.op o operands).Flat :=
  ⟨count, by simp [isPlain, plain]⟩

theorem flat_all {cs : List Piece} (each : ∀ c ∈ cs, c.Flat) : (Piece.all cs).Flat := by
  induction cs with
  | nil => trivial
  | cons c cs ih =>
    exact ⟨each c List.mem_cons_self, ih fun d mem => each d (List.mem_cons_of_mem _ mem)⟩

theorem flat_loadCode (s : Session) (type : Int) : (loadCode s type).Flat := by
  rw [loadCode]
  split <;> exact flat_op rfl rfl

theorem flat_storeCode {target : Rose} {address stored : Piece} {i : Instruction} {extra : List Int}
    (stores : i.Stores extra.length) (place : target.kind ≠ .identifier → address.Flat)
    (value : stored.Flat) : (storeCode s target address stored i extra).Flat := by
  rw [storeCode]
  split
  · exact ⟨value, by rw [stores.operands.1]; rfl, stores.operands.2⟩
  · next other => exact ⟨place other, value, stores.toAddress.2.1.symm, stores.toAddress.2.2⟩

theorem chosen_ok (i : Instruction) : chosen (.ok i) = i := rfl

theorem flat_assignmentCode {r target : Rose} {address stored : Piece} (void : Bool)
    (op : r.binaryOp.stores = true)
    (integer : r.binaryOp.isIntegerOnly = true → TypeId.isFloating r.exprType = false)
    (place : target.kind ≠ .identifier → address.Flat) (value : stored.Flat) :
    (assignmentCode s r target address stored void).Flat := by
  rw [assignmentCode]
  split
  · exact flat_storeCode (stores_record.toVoid void).2 place value
  · obtain ⟨i, chosen, _, stores⟩ := stores_assignment op integer
    rw [chosen, chosen_ok]
    exact flat_storeCode (stores.toVoid void).2 place value

theorem flat_stepCode {r operand : Rose} {codes : Codes} (void : Bool) (op : r.unaryOp.steps = true)
    (place : operand.kind ≠ .identifier → codes.address.Flat) :
    (unaryCode s r operand codes void).Flat := by
  obtain ⟨i, chosen, _, stores⟩ := stores_step op (TypeId.isFloating r.exprType)
  have step := UnaryOp.isStep_of_steps op
  have other : r.unaryOp ≠ .address ∧ r.unaryOp ≠ .indirection := by
    constructor <;> intro same <;> simp [same, UnaryOp.steps] at op
  simp only [unaryCode, other.1, other.2, step, if_false, if_true, chosen, chosen_ok]
  exact flat_storeCode (stores.toVoid void).2 place trivial

theorem binaryCode_value {r left : Rose} {l e : Codes} (op : r.binaryOp.givesValue = true) :
    binaryCode r left l e = .seq l.value (.seq e.value (.plain
      ((chosen (ofBinary r.binaryOp)).stepped (TypeId.isFloating left.exprType) .toFloat) [])) := by
  rw [binaryCode]
  split
  · next same => simp [same, BinaryOp.givesValue] at op
  · next same => simp [same, BinaryOp.givesValue, BinaryOp.isLogical] at op
  · next same => simp [same, BinaryOp.givesValue, BinaryOp.isLogical] at op
  · rfl

theorem libraryCode_other {r : Rose} {codes : List Codes}
    (other : r.builtin ≠ .printf ∧ r.builtin ≠ .print ∧ r.builtin ≠ .printid ∧ r.builtin ≠ .getid) :
    libraryCode s r codes =
      .seq (.all (codes.map (·.value))) (.plain (chosen (ofBuiltin r.builtin)) []) := by
  rw [libraryCode]
  split
  · next same => exact absurd same other.1
  · next same => exact absurd same other.2.1
  · next same => exact absurd same other.2.2.1
  · next same => exact absurd same other.2.2.2
  · rfl

theorem flat_libraryCode {r : Rose} (listed : r.builtin.isListed = true)
    (each : ∀ c ∈ r.children, (c.toValue s).Flat) :
    (libraryCode s r (r.children.map (codes s))).Flat := by
  have values : (Piece.all ((r.children.map (codes s)).map (·.value))).Flat := by
    refine flat_all fun c mem => ?_
    rw [List.map_map] at mem
    obtain ⟨a, there, rfl⟩ := List.mem_map.mp mem
    exact each a there
  rw [libraryCode]
  split
  · exact ⟨values, flat_op rfl rfl⟩
  · refine flat_all fun c mem => ?_
    rw [List.map_map, List.zipWith_map_right, List.zipWith_self] at mem
    obtain ⟨a, there, rfl⟩ := List.mem_map.mp mem
    exact ⟨each a there, flat_op rfl rfl⟩
  · refine flat_all fun c mem => ?_
    obtain ⟨a, there, rfl⟩ := List.mem_map.mp mem
    exact flat_op rfl rfl
  · refine flat_all fun c mem => ?_
    obtain ⟨a, there, rfl⟩ := List.mem_map.mp mem
    exact flat_op rfl rfl
  · next other₁ other₂ other₃ other₄ =>
    obtain ⟨i, chosen, simple⟩ := ofBuiltin_listed listed ⟨other₁, other₂, other₃, other₄⟩
    rw [chosen, chosen_ok]
    exact ⟨values, simple.flat⟩

/-- The code of an expression is flat. -/
theorem flat_expr {r : Rose} (expr : IsExpr r) (s : Session) :
    (r.toValue s).Flat ∧ (r.isPlace = true → (r.toAddress s).Flat) ∧ (r.toEffect s).Flat := by
  -- only assignments, steps and commas have a code of their own where no value is wanted
  have effect {r : Rose} (assignment : r.kind ≠ .assignment) (step : r.kind = .unary →
      r.unaryOp.isStep = false) (comma : r.kind = .binary → r.binaryOp ≠ .comma)
      (value : (r.toValue s).Flat) : (r.toEffect s).Flat := by
    rwa [toEffect_other assignment step comma]
  induction expr with
  | @literal r kind value _ =>
    have flat : (r.toValue s).Flat := by
      rw [toValue_literal kind]
      exact flat_op rfl rfl
    exact ⟨flat, by simp [value], effect (by simp [kind]) (by simp [kind]) (by simp [kind]) flat⟩
  | @string r kind value _ =>
    have flat : (r.toValue s).Flat := by
      rw [toValue_string kind]
      trivial
    exact ⟨flat, by simp [value], effect (by simp [kind]) (by simp [kind]) (by simp [kind]) flat⟩
  | @identifier r kind _ =>
    have flat : (r.toValue s).Flat := by
      rw [toValue_identifier kind]
      split <;> exact flat_op rfl rfl
    refine ⟨flat, fun _ => ?_, effect (by simp [kind]) (by simp [kind]) (by simp [kind]) flat⟩
    rw [toAddress_identifier kind]
    exact flat_op rfl rfl
  | @cast r e kind value kids _ _ _ ih =>
    have flat : (r.toValue s).Flat := by
      rw [toValue_cast kind kids]
      exact ⟨ih.1, flat_op rfl rfl⟩
    exact ⟨flat, by simp [value], effect (by simp [kind]) (by simp [kind]) (by simp [kind]) flat⟩
  | @subscript r b x kind kids _ _ base index =>
    have place : (r.toAddress s).Flat := by
      rw [toAddress_subscript kind kids]
      exact ⟨base.1, index.1, flat_op rfl rfl⟩
    have flat : (r.toValue s).Flat := by
      rw [toValue_subscript kind]
      exact ⟨place, flat_loadCode _ _⟩
    exact ⟨flat, fun _ => place, effect (by simp [kind]) (by simp [kind]) (by simp [kind]) flat⟩
  | @call r f args kind value kids _ _ _ each =>
    have flat : (r.toValue s).Flat := by
      rw [toValue_call kind kids]
      refine ⟨flat_op rfl rfl, flat_all fun c mem => ?_, trivial⟩
      obtain ⟨a, there, rfl⟩ := List.mem_map.mp mem
      exact (each a there).1
    exact ⟨flat, by simp [value], effect (by simp [kind]) (by simp [kind]) (by simp [kind]) flat⟩
  | @member r b kind kids _ place base =>
    -- an arrow computes its base, a dot the place of its base if it has one
    have through (way : r.arg 3 ≠ 0 ∨ b.isPlace = true) : (r.toAddress s).Flat := by
      rw [toAddress_member kind kids]
      refine ⟨?_, flat_op rfl rfl⟩
      split
      · exact base.1
      · next direct => exact base.2.1 (way.resolve_left direct)
    have flat : (r.toValue s).Flat := by
      rw [toValue_member kind kids]
      split
      · exact ⟨base.1, flat_op rfl rfl⟩
      · next way =>
        refine ⟨through ?_, flat_loadCode _ _⟩
        by_cases direct : r.arg 3 = 0
        · exact .inr (by simpa [direct] using way)
        · exact .inl direct
    exact ⟨flat, fun isPlace => through (place isPlace),
      effect (by simp [kind]) (by simp [kind]) (by simp [kind]) flat⟩
  | @address r e kind value kids op _ place ih =>
    have flat : (r.toValue s).Flat := by
      simp only [toValue_unary kind kids, unaryCode, op, if_true]
      exact ih.2.1 place
    exact ⟨flat, by simp [value],
      effect (by simp [kind]) (by simp [op, UnaryOp.isStep]) (by simp [kind]) flat⟩
  | @indirection r e kind kids op _ ih =>
    have flat : (r.toValue s).Flat := by
      simp only [toValue_unary kind kids, unaryCode, op, reduceCtorEq, if_false, if_true]
      exact ⟨ih.1, flat_loadCode _ _⟩
    refine ⟨flat, fun _ => ?_,
      effect (by simp [kind]) (by simp [op, UnaryOp.isStep]) (by simp [kind]) flat⟩
    rw [toAddress_unary kind kids]
    exact ih.1
  | @step r e kind value kids op _ place ih =>
    refine ⟨?_, by simp [value], ?_⟩
    · rw [toValue_unary kind kids]
      exact flat_stepCode false op fun _ => ih.2.1 place
    · rw [toEffect_step kind kids (UnaryOp.isStep_of_steps op)]
      exact flat_stepCode true op fun _ => ih.2.1 place
  | @unary r e kind value kids op _ integer ih =>
    have flat : (r.toValue s).Flat := by
      obtain ⟨i, chosen, _, simple⟩ := ofUnary_value op
        (TypeId.isFloating e.exprType && r.unaryOp != .logicalNot)
        (fun same => by simp [integer same]) (fun same => by simp [same])
      have other : r.unaryOp ≠ .address ∧ r.unaryOp ≠ .indirection := by
        constructor <;> intro same <;> simp [same, UnaryOp.givesValue] at op
      simp only [toValue_unary kind kids, unaryCode, other.1, other.2,
        UnaryOp.isStep_of_givesValue op, if_false, chosen, chosen_ok]
      exact ⟨ih.1, simple.flat⟩
    exact ⟨flat, by simp [value],
      effect (by simp [kind]) (by simp [UnaryOp.isStep_of_givesValue op]) (by simp [kind]) flat⟩
  | @comma r l e kind value kids op _ _ left right =>
    refine ⟨?_, by simp [value], ?_⟩
    · simp only [toValue_binary kind kids, binaryCode, op]
      exact ⟨left.2.2, right.1⟩
    · rw [toEffect_comma kind kids op]
      exact ⟨left.2.2, right.2.2⟩
  | @logical r l e kind value kids op _ _ left right =>
    have flat : (r.toValue s).Flat := by
      rw [toValue_binary kind kids, binaryCode]
      cases at_ : r.binaryOp <;> simp [at_, BinaryOp.isLogical] at op
      · exact ⟨.inl rfl, .inl rfl, left.1, right.1⟩
      · exact ⟨.inr rfl, .inr rfl, left.1, right.1⟩
    exact ⟨flat, by simp [value], effect (by simp [kind]) (by simp [kind])
      (fun _ same => by simp [same, BinaryOp.isLogical] at op) flat⟩
  | @binary r l e kind value kids op _ _ integer left right =>
    have flat : (r.toValue s).Flat := by
      obtain ⟨i, chosen, _, simple⟩ := ofBinary_value op integer
      rw [toValue_binary kind kids, binaryCode_value op, chosen, chosen_ok]
      exact ⟨left.1, right.1, simple.flat⟩
    exact ⟨flat, by simp [value], effect (by simp [kind]) (by simp [kind])
      (fun _ same => by simp [same, BinaryOp.givesValue] at op) flat⟩
  | @assignment r t v kind value kids op _ _ place integer target stored =>
    refine ⟨?_, by simp [value], ?_⟩
    · rw [toValue_assignment kind kids]
      exact flat_assignmentCode false op integer (fun _ => target.2.1 place) stored.1
    · rw [toEffect_assignment kind kids]
      exact flat_assignmentCode true op integer (fun _ => target.2.1 place) stored.1
  | @ternary r c y n kind value kids _ _ _ test yes no =>
    have flat : (r.toValue s).Flat := by
      rw [toValue_ternary kind kids]
      exact ⟨test.1, yes.1, no.1⟩
    exact ⟨flat, by simp [value], effect (by simp [kind]) (by simp [kind]) (by simp [kind]) flat⟩
  | @library r kind value listed _ each =>
    have flat : (r.toValue s).Flat := by
      rw [toValue_library kind]
      exact flat_libraryCode listed fun c mem => (each c mem).1
    exact ⟨flat, by simp [value], effect (by simp [kind]) (by simp [kind]) (by simp [kind]) flat⟩

/-! ## Declarations and statements -/

theorem isExpr_kind {r : Rose} (expr : IsExpr r) : r.kind.isExpression = true ∧
    r.kind ≠ .initializer := by
  cases expr <;> simp [*, Kind.isExpression]

theorem flat_initializer {r : Rose} (init : IsInitializer r) (s : Session) :
    (r.toInitializer s).Flat := by
  induction init with
  | expr expr =>
    rw [toInitializer_expr (isExpr_kind expr).2]
    exact (flat_expr expr s).1
  | list kind _ each =>
    rw [toInitializer_list kind]
    refine ⟨?_, flat_all fun c mem => ?_⟩
    · split
      · exact flat_op rfl rfl
      · trivial
    · obtain ⟨a, there, rfl⟩ := List.mem_map.mp mem
      exact each a there

theorem flat_initializer_value {r : Rose} (init : IsInitializer r) (s : Session) :
    (r.toValue s).Flat := by
  cases init with
  | expr expr => exact (flat_expr expr s).1
  | list kind _ =>
    rw [toValue_list kind]
    trivial

theorem flat_bound {b : Rose} (bound : IsBound b) (s : Session) : (boundCode s b).Flat := by
  rw [boundCode]
  split
  · trivial
  · next written => exact (flat_expr (bound.resolve_left fun open_ => written open_.1) s).1

theorem flat_variable {r : Rose} {bounds : List Rose} {init : Option Rose}
    (h : IsVariable r bounds init) (s : Session) : (r.toStatement s).Flat := by
  rw [toStatement_variable h]
  split
  · cases init with
    | none => trivial
    | some i =>
      have starts := h.init i rfl
      simp only [Option.map_some, Option.getD_some, scalarCode]
      split
      · obtain ⟨count, plain⟩ := (stores_record.toVoid true).2.operands
        exact ⟨flat_initializer starts s, count.symm, plain⟩
      · obtain ⟨_, float⟩ := stores_assign.toFloat (TypeId.isFloating (s.identifier (r.arg 0)).type)
          fun _ => ⟨_, _, rfl, rfl⟩
        obtain ⟨count, plain⟩ := (float.toVoid true).2.operands
        exact ⟨flat_initializer_value starts s, count.symm, plain⟩
  · refine ⟨flat_all fun c mem => ?_, flat_op rfl rfl, ?_⟩
    · obtain ⟨b, there, rfl⟩ := List.mem_map.mp mem
      exact flat_bound (h.bounds b there) s
    · cases init with
      | none => trivial
      | some i =>
        have starts := h.init i rfl
        simp only [Option.map_some, Option.getD_some, arrayInitCode]
        split
        · exact ⟨flat_initializer_value starts s, flat_op rfl rfl⟩
        · exact ⟨flat_initializer starts s, flat_op rfl rfl⟩

theorem flat_declaration {r : Rose} (h : IsDeclaration r) (s : Session) :
    (r.toStatement s).Flat := by
  rw [toStatement_declaration h.kind]
  refine flat_all fun c mem => ?_
  obtain ⟨a, there, rfl⟩ := List.mem_map.mp mem
  rcases h.all a there with ⟨kind, _⟩ | ⟨bounds, init, isVariable⟩
  · rw [toStatement_null (.inr kind)]
    trivial
  · exact flat_variable isVariable s

/-- The first clause of a `for` statement. -/
theorem flat_init {init : Option Rose} (form : ∀ i ∈ init, IsDeclaration i ∨ IsExpr i)
    (s : Session) : (clause (initCode s) init).Flat := by
  cases init with
  | none => trivial
  | some i =>
    rw [clause, initCode]
    split
    · next same =>
      refine flat_declaration ((form i rfl).resolve_right fun expr => ?_) s
      simpa [same, Kind.isExpression] using (isExpr_kind expr).1
    · next other =>
        exact (flat_expr ((form i rfl).resolve_left fun declared => other declared.kind) s).2.2

/-- The last clause of a `for` statement. -/
theorem flat_step {step : Option Rose} (form : ∀ e ∈ step, IsExpr e) (s : Session) :
    (clause (toEffect s) step).Flat := by
  cases step with
  | none => trivial
  | some e => exact (flat_expr (form e rfl) s).2.2

theorem proper_all {cs : List Piece} {inLoop inSwitch : Bool}
    (each : ∀ c ∈ cs, c.Proper inLoop inSwitch) : (Piece.all cs).Proper inLoop inSwitch := by
  induction cs with
  | nil => trivial
  | cons c cs ih =>
    exact ⟨each c List.mem_cons_self, ih fun d mem => each d (List.mem_cons_of_mem _ mem)⟩

/-- The code of a statement is proper inside the loops and switches that surround the statement. -/
theorem proper_statement {r : Rose} {inLoop inSwitch : Bool} (h : IsStatement inLoop inSwitch r)
    (s : Session) : (r.toStatement s).Proper inLoop inSwitch := by
  induction h with
  | block kind _ each =>
    rw [toStatement_block kind]
    refine proper_all fun c mem => ?_
    obtain ⟨a, there, rfl⟩ := List.mem_map.mp mem
    exact each a there
  | null kind _ =>
    rw [toStatement_null (.inl kind)]
    trivial
  | declaration declared => exact (flat_declaration declared s).proper _ _
  | ifOnly kind flag kids test _ yes =>
    rw [toStatement_ifOnly kind flag kids]
    exact ⟨(flat_expr test s).1, yes⟩
  | ifElse kind flag kids test _ _ yes no =>
    rw [toStatement_ifElse kind flag kids]
    exact ⟨(flat_expr test s).1, yes, no⟩
  | whileLoop kind kids test _ body =>
    rw [toStatement_whileLoop kind kids]
    exact ⟨(flat_expr test s).1, body⟩
  | doWhile kind kids _ test body =>
    rw [toStatement_doWhile kind kids]
    exact ⟨body, (flat_expr test s).1⟩
  -- what stands in front of the rounds is flat, so the loop need not be open there
  | @forLoop inLoop inSwitch r b init cond step kind kids hasInit hasCond hasStep first tested
      next _ body =>
    rw [toStatement_forLoop kind kids hasInit hasCond hasStep]
    refine ⟨(flat_init first s).proper _ _, ?_⟩
    cases cond with
    | none => exact ⟨body, flat_step next s⟩
    | some c => exact ⟨(flat_expr (tested c rfl) s).1, body, flat_step next s⟩
  | switching kind kids value _ body =>
    rw [toStatement_switching kind kids]
    exact ⟨(flat_expr value s).1, body⟩
  | caseLabel kind kids value _ body =>
    rw [toStatement_caseLabel kind kids]
    exact ⟨rfl, (flat_expr value s).1, body⟩
  | defaultLabel kind kids _ body =>
    rw [toStatement_defaultLabel kind kids]
    exact ⟨rfl, body⟩
  | breaking kind inside _ =>
    rw [toStatement_breaking kind]
    exact inside
  | continuing kind _ =>
    rw [toStatement_continuing kind]
    exact rfl
  | jump kind _ =>
    rw [toStatement_jump kind]
    trivial
  | label kind kids _ body =>
    rw [toStatement_label kind kids]
    exact body
  | returnVoid kind kids =>
    rw [toStatement_returnVoid kind kids]
    exact (flat_op rfl rfl : (Piece.op .returnVoid []).Flat).proper _ _
  | returnValue kind kids value =>
    rw [toStatement_returnValue kind kids]
    exact ⟨(flat_expr value s).1.proper _ _,
      (flat_op rfl rfl : (Piece.op .returnValue [_]).Flat).proper _ _⟩
  | expr expr =>
    rw [toStatement_expr (isExpr_kind expr).1]
    exact (flat_expr expr s).2.2.proper _ _

end Rose

/-- Code that opens no frames has no case tests. -/
theorem Lay.slot_of_flat {M : List Int} {L : Links} {X : List Exit} {slot slot' : Option Nat}
    {c : Piece} {a b : Nat} (lay : Lay M L X slot c a b slot') (flat : c.Flat) : slot' = slot := by
  induction lay with
  | skip | plain _ _ _ | text _ | call _ => rfl
  | seq _ _ first second => exact (second flat.2).trans (first flat.1)
  | choose _ _ _ _ _ test yes no => exact (no flat.2.2).trans ((yes flat.2.1).trans (test flat.1))
  | short _ _ _ _ _ _ left right => exact (right flat.2.2.2).trans (left flat.2.2.1)
  | _ => exact flat.elim

end BilingualC
