import Mathlib
import BilingualC.Proofs.Lowering.Run

/-!
# The generator lowers expressions

`lowers_expr`: on an expression whose tables are in order, the generator emits the code that
`Rose.codes` gives for it, without a fault and without a failure, if it may go deep enough. The
proof goes along the expression; a node takes at most five levels of depth.
-/

namespace BilingualC

open Lowering

/-- The generator emits the code of an expression in every place where it may stand. -/
structure Lowers (s : Session) (r : Rose) : Prop where
  value : ∀ depth, 5 * r.height ≤ depth + 2 →
    Makes s false false (Lowering.value depth (s.tree.handle r.index)) (r.toValue s)
  address : r.isPlace = true → ∀ depth, 5 * r.height ≤ depth + 4 →
    Makes s false false (Lowering.address depth (s.tree.handle r.index)) (r.toAddress s)
  effect : ∀ depth, 5 * r.height ≤ depth + 1 →
    Makes s false false (Lowering.effect depth (s.tree.handle r.index)) (r.toEffect s)

namespace Lowers

variable {s : Session} {r e l b x c y n : Rose}

theorem height_pos (r : Rose) : 0 < r.height := by
  cases r
  rw [Rose.height]
  omega

/-- A node that needs more than `k` levels is entered with a level to spare. -/
theorem deepen {P : Nat → Prop} {r : Rose} {k : Nat} (few : k < 5)
    (step : ∀ d, 5 * r.height ≤ d + 1 + k → P (d + 1)) (depth : Nat)
    (deep : 5 * r.height ≤ depth + k) : P depth := by
  have := height_pos r
  obtain ⟨d, rfl⟩ : ∃ d, depth = d + 1 := ⟨depth - 1, by omega⟩
  exact step d deep

/-- An expression that stores nothing is lowered for its effect as it is for its value. -/
theorem effect_other (has : s.tree.Has r) (assignment : r.kind ≠ .assignment)
    (step : r.kind = .unary → r.unaryOp.isStep = false)
    (comma : r.kind = .binary → r.binaryOp ≠ .comma) (value : ∀ depth, 5 * r.height ≤ depth + 2 →
      Makes s false false (Lowering.value depth (s.tree.handle r.index)) (r.toValue s)) :
    ∀ depth, 5 * r.height ≤ depth + 1 →
    Makes s false false (Lowering.effect depth (s.tree.handle r.index)) (r.toEffect s) := by
  refine deepen (by decide) fun d deep => ?_
  rw [Lowering.effect, Rose.toEffect_other assignment step comma]
  refine .read (.kindOf has) ?_
  split
  · contradiction
  · next kind =>
    refine .read .tree (.read (.unaryOp has) ?_)
    simp only [step kind, Bool.false_eq_true, if_false]
    exact value d deep
  · next kind =>
    refine .read .tree (.read (.binaryOp has) ?_)
    rw [if_neg (by simpa using comma kind)]
    exact value d deep
  · exact value d deep

/-- An expression that is no place and stores nothing needs a value only. -/
theorem ofValue (has : s.tree.Has r) (place : r.isPlace = false) (assignment : r.kind ≠ .assignment)
    (step : r.kind = .unary → r.unaryOp.isStep = false)
    (comma : r.kind = .binary → r.binaryOp ≠ .comma) (value : ∀ depth, 5 * r.height ≤ depth + 2 →
      Makes s false false (Lowering.value depth (s.tree.handle r.index)) (r.toValue s)) :
    Lowers s r :=
  ⟨value, by simp [place], effect_other has assignment step comma value⟩

theorem loadFrom {type : Int} (valid : s.types.Valid type) :
    Makes s false false (Lowering.loadFrom type) (Rose.loadCode s type) := by
  refine .read (.isStructure type) ?_
  rw [Rose.loadCode]
  split
  · exact .read (.sizeOf valid) (.emitOp _ _)
  · exact .emitOp _ _

/-! ## Leaves -/

theorem literal (has : s.tree.Has r) (kind : r.kind = .literal) (place : r.isPlace = false) :
    Lowers s r := by
  refine ofValue has place (by simp [kind]) (by simp [kind]) (by simp [kind])
    (deepen (by decide) fun d _ => ?_)
  rw [Lowering.value, Rose.toValue_literal kind]
  refine .read (.typeOf has) (.read (.kindOf has) ?_)
  rw [kind]
  exact .read (.payloadOf has) (.emitOp _ _)

theorem string (has : s.tree.Has r) (kind : r.kind = .string) (place : r.isPlace = false) :
    Lowers s r := by
  refine ofValue has place (by simp [kind]) (by simp [kind]) (by simp [kind])
    (deepen (by decide) fun d _ => ?_)
  rw [Lowering.value, Rose.toValue_string kind]
  refine .read (.typeOf has) (.read (.kindOf has) ?_)
  rw [kind]
  refine ⟨nofun, fun g seen _ => (yields_get g).bind ((Answers.payloadOf has g seen).bind ?_)⟩
  have same : g.session.stringAt (r.arg 2) = s.stringAt (r.arg 2) := by
    rw [Session.stringAt, Session.stringAt, seen.strings]
  rw [same]
  exact yields_text _ g

theorem identifier (has : s.tree.Has r)
    (kind : r.kind = .identifier) (valid : s.types.Valid r.exprType)
    (named : (s.identifier (r.arg 2)).kind ≠ .label) : Lowers s r := by
  have value : ∀ depth, 5 * r.height ≤ depth + 2 →
      Makes s false false (Lowering.value depth (s.tree.handle r.index)) (r.toValue s) := by
    refine deepen (by decide) fun d _ => ?_
    rw [Lowering.value, Rose.toValue_identifier kind]
    refine .read (.typeOf has) (.read (.kindOf has) ?_)
    rw [kind]
    refine .read (.displacementOf has named) (.read (.isStructure _) ?_)
    split
    · exact .read (.sizeOf valid) (.emitOp _ _)
    · exact .emitOp _ _
  refine ⟨value, fun _ => deepen (by decide) fun d _ => ?_,
    effect_other has (by simp [kind]) (by simp [kind]) (by simp [kind]) value⟩
  rw [Lowering.address, Rose.toAddress_identifier kind]
  refine .read (.kindOf has) ?_
  rw [kind]
  exact .read (.displacementOf has named) (.emitOp _ _)

/-! ## Places -/

theorem subscript (has : s.tree.Has r) (kind : r.kind = .subscript) (kids : r.children = [b, x])
    (valid : s.types.Valid r.exprType) (base : Lowers s b) (index : Lowers s x) : Lowers s r := by
  have lowB := Rose.height_child (r := r) (c := b) (by simp [kids])
  have lowX := Rose.height_child (r := r) (c := x) (by simp [kids])
  have address : ∀ depth, 5 * r.height ≤ depth + 4 →
      Makes s false false (Lowering.address depth (s.tree.handle r.index)) (r.toAddress s) := by
    refine deepen (by decide) fun d deep => ?_
    rw [Lowering.address, Rose.toAddress_subscript kind kids]
    refine .read (.kindOf has) ?_
    rw [kind]
    refine .read (.first has kids) (.seq (base.value d (by omega)) ?_)
    refine .read (.second has kids) (.seq (index.value d (by omega)) ?_)
    exact .read (.typeOf has) (.read (.sizeOf valid) (.emitOp _ _))
  have value : ∀ depth, 5 * r.height ≤ depth + 2 →
      Makes s false false (Lowering.value depth (s.tree.handle r.index)) (r.toValue s) := by
    refine deepen (by decide) fun d deep => ?_
    rw [Lowering.value, Rose.toValue_subscript kind]
    refine .read (.typeOf has) (.read (.kindOf has) ?_)
    rw [kind]
    exact .seq (address d (by omega)) (loadFrom valid)
  exact ⟨value, fun _ => address,
    effect_other has (by simp [kind]) (by simp [kind]) (by simp [kind]) value⟩

theorem member (has : s.tree.Has r) (kind : r.kind = .member) (kids : r.children = [b])
    (place : r.isPlace = true → r.arg 3 ≠ 0 ∨ b.isPlace = true) (valid : s.types.Valid r.exprType)
    (baseHas : s.tree.Has b) (baseValid : s.types.Valid b.exprType) (base : Lowers s b) :
    Lowers s r := by
  have low := Rose.height_child (r := r) (c := b) (by simp [kids])
  have address (way : r.arg 3 ≠ 0 ∨ b.isPlace = true) : ∀ depth, 5 * r.height ≤ depth + 4 →
      Makes s false false (Lowering.address depth (s.tree.handle r.index)) (r.toAddress s) := by
    refine deepen (by decide) fun d deep => ?_
    rw [Lowering.address, Rose.toAddress_member kind kids]
    refine .read (.kindOf has) ?_
    rw [kind]
    refine .read (.first has kids)
      (.read .tree (.read (.throughPointer has) ?_))
    by_cases through : r.arg 3 ≠ 0
    · rw [if_pos (by simpa using through), if_pos through]
      exact .seq (base.value d (by omega)) (.read (.payloadOf has) (.emitOp _ _))
    · rw [if_neg (by simpa using through), if_neg through]
      exact .seq (base.address (way.resolve_left through) d (by omega))
        (.read (.payloadOf has) (.emitOp _ _))
  have value : ∀ depth, 5 * r.height ≤ depth + 2 →
      Makes s false false (Lowering.value depth (s.tree.handle r.index)) (r.toValue s) := by
    refine deepen (by decide) fun d deep => ?_
    rw [Lowering.value, Rose.toValue_member kind kids]
    refine .read (.typeOf has) (.read (.kindOf has) ?_)
    rw [kind]
    refine .read (.first has kids) (.read .tree (.read (.throughPointer has)
      (.read (.isPlace baseHas) ?_)))
    by_cases plain : r.arg 3 = 0 ∧ b.isPlace = false
    · rw [if_pos (by simpa using plain), if_pos plain]
      refine .seq (base.value d (by omega)) (.read (.payloadOf has) (.read (.sizeOf valid)
        (.read (.typeOf baseHas) (.read (.sizeOf baseValid) (.emitOp _ _)))))
    · rw [if_neg (by simpa using plain), if_neg plain]
      refine .seq (address ?_ d (by omega)) (loadFrom valid)
      by_cases direct : r.arg 3 = 0
      · exact .inr (by simpa [direct] using plain)
      · exact .inl direct
  exact ⟨value, fun isPlace => address (place isPlace),
    effect_other has (by simp [kind]) (by simp [kind]) (by simp [kind]) value⟩

/-! ## Storing -/

section Store

variable {target : Rose} {i : Instruction} {extra : List Int} {d : Nat} {a c : Piece}
    {node : Handle}

/-- The last part of a store: the instruction with the displacement or the one that takes an
address. -/
theorem storeEnd (node : Handle) (has : s.tree.Has target) (stores : i.Stores extra.length)
    (named : target.kind = .identifier → (s.identifier (target.arg 2)).kind ≠ .label) :
    Makes s false false
      (if (target.kind == .identifier) = true then do
          let displacement ← displacementOf (s.tree.handle target.index)
          emit i (displacement :: extra)
        else do
          let derived ← derive node .toAddress i
          emit derived extra)
      (if target.kind = .identifier then .plain i (s.displacementOf (target.arg 2) :: extra)
        else .plain (i.stepped true .toAddress) extra) := by
  by_cases kind : target.kind = .identifier
  · rw [if_pos (by simpa using kind), if_pos kind]
    exact .read (.displacementOf has (named kind)) (.emit _ _)
  · rw [if_neg (by simpa using kind), if_neg kind]
    exact .read (.derive stores.toAddress.1 _) (.emit _ _)

theorem store (has : s.tree.Has target) (stores : i.Stores extra.length)
    (named : target.kind = .identifier → (s.identifier (target.arg 2)).kind ≠ .label)
    (address : target.kind ≠ .identifier →
      Makes s false false (Lowering.address d (s.tree.handle target.index)) a)
    {v : Handle} (value : Makes s false false (Lowering.value d v) c) :
    Makes s false false (Lowering.store (d + 1) node (s.tree.handle target.index) i (some v) extra)
      (Rose.storeCode s target a c i extra) := by
  rw [Lowering.store, Rose.storeCode]
  refine .read (.kindOf has) ?_
  have last := storeEnd node has stores named
  by_cases kind : target.kind = .identifier
  · simp only [kind, if_true] at last ⊢
    exact .seq value last
  · rw [if_neg kind] at last ⊢
    simp only [beq_eq_false_iff_ne.mpr kind, Bool.not_false, if_true] at last ⊢
    exact .seq (address kind) (.seq value last)

theorem storeNothing (has : s.tree.Has target) (stores : i.Stores extra.length)
    (named : target.kind = .identifier → (s.identifier (target.arg 2)).kind ≠ .label)
    (address : target.kind ≠ .identifier →
      Makes s false false (Lowering.address d (s.tree.handle target.index)) a) :
    Makes s false false (Lowering.store (d + 1) node (s.tree.handle target.index) i none extra)
      (Rose.storeCode s target a .skip i extra) := by
  rw [Lowering.store, Rose.storeCode]
  refine .read (.kindOf has) ?_
  have last := storeEnd node has stores named
  by_cases kind : target.kind = .identifier
  · simp only [kind, if_true] at last ⊢
    exact .ofSkip last
  · rw [if_neg kind] at last ⊢
    simp only [beq_eq_false_iff_ne.mpr kind, Bool.not_false, if_true] at last ⊢
    exact .seq (address kind) (.ofSkip last)

end Store

theorem withSelected {selected : Except SelectionError Instruction}
    {i : Instruction} (found : selected = .ok i) {go : Instruction → Lower Unit}
    {c : Piece} {node : Handle} (makes : Makes s false false (go i) c) :
    Makes s false false (Lowering.withSelected node selected go) c := by
  rw [found]
  exact makes

/-- An assignment, with or without use of its value. -/
theorem assign (has : s.tree.Has r) (kids : r.children = [l, e]) (op : r.binaryOp.stores = true)
    (integer : r.binaryOp.isIntegerOnly = true → TypeId.isFloating r.exprType = false)
    (valid : s.types.Valid r.exprType) (targetHas : s.tree.Has l)
    (named : l.kind = .identifier → (s.identifier (l.arg 2)).kind ≠ .label)
    (place : l.isPlace = true) (target : Lowers s l) (stored : Lowers s e) (void : Bool) :
    ∀ depth, 5 * r.height ≤ depth + 3 →
    Makes s false false (Lowering.assignment depth (s.tree.handle r.index) void)
    (Rose.assignmentCode s r l (l.toAddress s) (e.toValue s) void) := by
  have lowL := Rose.height_child (r := r) (c := l) (by simp [kids])
  have lowE := Rose.height_child (r := r) (c := e) (by simp [kids])
  refine deepen (by decide) fun d deep => ?_
  obtain ⟨k, rfl⟩ : ∃ k, d = k + 1 := ⟨d - 1, by have := height_pos l; omega⟩
  rw [Lowering.assignment, Rose.assignmentCode]
  refine .read (.first has kids) (.read
    (.second has kids) (.read (.typeOf has) (.read (.isStructure _) ?_)))
  split
  · refine .read (.deriveIf (Instruction.stores_record.toVoid void).1 _) (.read (.sizeOf valid) ?_)
    exact store targetHas (Instruction.stores_record.toVoid void).2 named
      (fun _ => target.address place k (by omega)) (stored.value k (by omega))
  · obtain ⟨i, chosen, can, stores⟩ := Instruction.stores_assignment op integer
    refine .read .tree (.read (.binaryOp has) (withSelected chosen ?_))
    rw [chosen, Rose.chosen_ok]
    refine .read (.isFloat has)
      (.read (.deriveIf can _) (.read (.deriveIf (stores.toVoid void).1 _) ?_))
    exact store targetHas (stores.toVoid void).2 named (fun _ => target.address place k (by omega))
      (stored.value k (by omega))

theorem assignment (has : s.tree.Has r) (kind : r.kind = .assignment) (isValue : r.isPlace = false)
    (kids : r.children = [l, e]) (op : r.binaryOp.stores = true)
    (integer : r.binaryOp.isIntegerOnly = true → TypeId.isFloating r.exprType = false)
    (valid : s.types.Valid r.exprType) (targetHas : s.tree.Has l)
    (named : l.kind = .identifier → (s.identifier (l.arg 2)).kind ≠ .label)
    (place : l.isPlace = true) (target : Lowers s l) (stored : Lowers s e) : Lowers s r := by
  have all := assign has kids op integer valid targetHas named place target stored
  refine ⟨deepen (by decide) fun d deep => ?_, by simp [isValue],
    deepen (by decide) fun d deep => ?_⟩
  · rw [Lowering.value, Rose.toValue_assignment kind kids]
    refine .read (.typeOf has) (.read (.kindOf has) ?_)
    rw [kind]
    exact all false d (by omega)
  · rw [Lowering.effect, Rose.toEffect_assignment kind kids]
    refine .read (.kindOf has) ?_
    rw [kind]
    exact all true d (by omega)

/-! ## Unary operators -/

theorem value_unary (has : s.tree.Has r) (kind : r.kind = .unary) (kids : r.children = [e])
    (all : ∀ depth, 5 * r.height ≤ depth + 3 →
      Makes s false false (Lowering.unary depth (s.tree.handle r.index) false)
      (Rose.unaryCode s r e (e.codes s) false)) : ∀ depth, 5 * r.height ≤ depth + 2 →
    Makes s false false (Lowering.value depth (s.tree.handle r.index)) (r.toValue s) := by
  refine deepen (by decide) fun d deep => ?_
  rw [Lowering.value, Rose.toValue_unary kind kids]
  refine .read (.typeOf has) (.read (.kindOf has) ?_)
  rw [kind]
  exact all d (by omega)

theorem addressOf (has : s.tree.Has r) (kind : r.kind = .unary) (isValue : r.isPlace = false)
    (kids : r.children = [e]) (op : r.unaryOp = .address) (place : e.isPlace = true)
    (operand : Lowers s e) : Lowers s r := by
  have low := Rose.height_child (r := r) (c := e) (by simp [kids])
  refine ofValue has isValue (by simp [kind]) (by simp [op, UnaryOp.isStep]) (by simp [kind])
    (value_unary has kind kids (deepen (by decide) fun d deep => ?_))
  rw [Lowering.unary]
  simp only [Rose.unaryCode, op, if_true]
  refine .read .tree (.read (.unaryOp has) (.read (.first has kids) ?_))
  rw [op]
  exact operand.address place d (by omega)

theorem indirection (has : s.tree.Has r) (kind : r.kind = .unary) (kids : r.children = [e])
    (op : r.unaryOp = .indirection) (valid : s.types.Valid r.exprType) (operand : Lowers s e) :
    Lowers s r := by
  have low := Rose.height_child (r := r) (c := e) (by simp [kids])
  have value := value_unary has kind kids (deepen (by decide) fun d deep => by
    rw [Lowering.unary]
    simp only [Rose.unaryCode, op, reduceCtorEq, if_false, if_true]
    refine .read .tree (.read (.unaryOp has) (.read (.first has kids) ?_))
    rw [op]
    exact .seq (operand.value d (by omega)) (.read (.typeOf has) (loadFrom valid)))
  refine ⟨value, fun _ => deepen (by decide) fun d deep => ?_,
    effect_other has (by simp [kind]) (by simp [op, UnaryOp.isStep]) (by simp [kind]) value⟩
  rw [Lowering.address, Rose.toAddress_unary kind kids]
  refine .read (.kindOf has) ?_
  rw [kind]
  refine .read .tree (.read (.unaryOp has) ?_)
  rw [op]
  exact .read (.first has kids) (operand.value d (by omega))

theorem step (has : s.tree.Has r) (kind : r.kind = .unary) (isValue : r.isPlace = false)
    (kids : r.children = [e]) (op : r.unaryOp.steps = true) (operandHas : s.tree.Has e)
    (named : e.kind = .identifier → (s.identifier (e.arg 2)).kind ≠ .label)
    (place : e.isPlace = true) (operand : Lowers s e) : Lowers s r := by
  have low := Rose.height_child (r := r) (c := e) (by simp [kids])
  have isStep := UnaryOp.isStep_of_steps op
  have other : r.unaryOp ≠ .address ∧ r.unaryOp ≠ .indirection := by
    constructor <;> intro same <;> simp [same, UnaryOp.steps] at op
  have all (void : Bool) : ∀ depth, 5 * r.height ≤ depth + 3 →
      Makes s false false (Lowering.unary depth (s.tree.handle r.index) void)
      (Rose.unaryCode s r e (e.codes s) void) := by
    refine deepen (by decide) fun d deep => ?_
    obtain ⟨k, rfl⟩ : ∃ k, d = k + 1 := ⟨d - 1, by have := height_pos e; omega⟩
    obtain ⟨i, chosen, can, stores⟩ := Instruction.stores_step op (TypeId.isFloating r.exprType)
    rw [Lowering.unary]
    simp only [Rose.unaryCode, other.1, other.2, isStep, if_false, if_true, chosen, Rose.chosen_ok]
    refine .read .tree (.read (.unaryOp has) (.read (.first has kids) ?_))
    rw [if_neg (by simpa using other.1), if_neg (by simpa using other.2), if_pos isStep]
    refine withSelected chosen (.read (.isFloat has) (.read (.deriveIf can _)
      (.read (.deriveIf (stores.toVoid void).1 _) ?_)))
    exact storeNothing operandHas (stores.toVoid void).2 named fun _ =>
      operand.address place k (by omega)
  refine ⟨value_unary has kind kids (all false), by simp [isValue],
    deepen (by decide) fun d deep => ?_⟩
  rw [Lowering.effect, Rose.toEffect_step kind kids isStep]
  refine .read (.kindOf has) ?_
  rw [kind]
  refine .read .tree (.read (.unaryOp has) ?_)
  rw [if_pos isStep]
  exact all true d (by omega)

theorem unary (has : s.tree.Has r) (kind : r.kind = .unary) (isValue : r.isPlace = false)
    (kids : r.children = [e]) (op : r.unaryOp.givesValue = true)
    (integer : r.unaryOp = .complement → TypeId.isFloating e.exprType = false)
    (operandHas : s.tree.Has e) (operand : Lowers s e) : Lowers s r := by
  have low := Rose.height_child (r := r) (c := e) (by simp [kids])
  have isStep := UnaryOp.isStep_of_givesValue op
  have other : r.unaryOp ≠ .address ∧ r.unaryOp ≠ .indirection := by
    constructor <;> intro same <;> simp [same, UnaryOp.givesValue] at op
  obtain ⟨i, chosen, can, _⟩ := Instruction.ofUnary_value op
    (TypeId.isFloating e.exprType && r.unaryOp != .logicalNot) (fun same => by simp [integer same])
    (fun same => by simp [same])
  refine ofValue has isValue (by simp [kind]) (by simp [isStep]) (by simp [kind])
    (value_unary has kind kids (deepen (by decide) fun d deep => ?_))
  rw [Lowering.unary]
  simp only [Rose.unaryCode, other.1, other.2, isStep, Bool.false_eq_true, if_false, chosen,
    Rose.chosen_ok]
  refine .read .tree (.read (.unaryOp has) (.read (.first has kids) ?_))
  rw [if_neg (by simpa using other.1), if_neg (by simpa using other.2), if_neg (by simp [isStep])]
  exact .seq (operand.value d (by omega)) (withSelected chosen (.read (.isFloat operandHas)
    (.read (.deriveIf can _) (.emit _ _))))

/-! ## Binary operators and conversions -/

theorem cast (has : s.tree.Has r) (kind : r.kind = .cast)
    (isValue : r.isPlace = false) (kids : r.children = [e])
    (source : TypeId.isInteger (r.arg 2) = true) (target : TypeId.isFloating r.exprType = true)
    (operand : Lowers s e) : Lowers s r := by
  have low := Rose.height_child (r := r) (c := e) (by simp [kids])
  refine ofValue has isValue (by simp [kind]) (by simp [kind]) (by simp [kind])
    (deepen (by decide) fun d deep => ?_)
  rw [Lowering.value, Rose.toValue_cast kind kids]
  refine .read (.typeOf has) (.read (.kindOf has) ?_)
  rw [kind]
  refine .read (.payloadOf has) ?_
  rw [if_neg (by simp [source, target])]
  exact .read (.first has kids)
    (.seq (operand.value d (by omega)) (.emitOp _ _))

theorem value_binary (has : s.tree.Has r) (kind : r.kind = .binary) (kids : r.children = [l, e])
    (all : ∀ depth, 5 * r.height ≤ depth + 3 → Makes s false false
      (Lowering.binary depth (s.tree.handle r.index)) (Rose.binaryCode r l (l.codes s) (e.codes s)))
    : ∀ depth, 5 * r.height ≤ depth + 2 →
    Makes s false false (Lowering.value depth (s.tree.handle r.index)) (r.toValue s) := by
  refine deepen (by decide) fun d deep => ?_
  rw [Lowering.value, Rose.toValue_binary kind kids]
  refine .read (.typeOf has) (.read (.kindOf has) ?_)
  rw [kind]
  exact all d (by omega)

theorem comma (has : s.tree.Has r) (kind : r.kind = .binary) (isValue : r.isPlace = false)
    (kids : r.children = [l, e]) (op : r.binaryOp = .comma) (left : Lowers s l)
    (right : Lowers s e) : Lowers s r := by
  have lowL := Rose.height_child (r := r) (c := l) (by simp [kids])
  have lowE := Rose.height_child (r := r) (c := e) (by simp [kids])
  refine ⟨value_binary has kind kids (deepen (by decide) fun d deep => ?_), by simp [isValue],
    deepen (by decide) fun d deep => ?_⟩
  · rw [Lowering.binary]
    simp only [Rose.binaryCode, op]
    refine .read .tree (.read (.binaryOp has) (.read (.first has kids)
      (.read (.second has kids) ?_)))
    rw [op]
    exact .seq (left.effect d (by omega)) (right.value d (by omega))
  · rw [Lowering.effect, Rose.toEffect_comma kind kids op]
    refine .read (.kindOf has) ?_
    rw [kind]
    refine .read .tree (.read (.binaryOp has) ?_)
    rw [op]
    exact .read (.first has kids) (.seq (left.effect d (by omega))
      (.read (.second has kids) (right.effect d (by omega))))

/-- The right operand of a logical operator stands behind a jump that skips it. -/
theorem shortCircuit {left right : Lower Unit} {c d : Piece} (test last : Operation)
    (first : Makes s false false left c) (second : Makes s false false right d) :
    Makes s false false (do
      left
      Lowering.emitOp .duplicate []
      let skip ← jump test
      right
      Lowering.emitOp last []
      patchHere [skip]) (.short test last c d) := by
  refine ⟨?_, ?_⟩
  · intro id mem
    rcases List.mem_append.mp mem with here | there
    · exact first.labels id here
    · exact second.labels id there
  · intro g seen ready
    have doubled := yields_emitOp .duplicate [] (c.put g)
    have skip := yields_jump test ((Piece.op .duplicate []).put (c.put g))
    have asked : s.Seen (((c.put g).push [Operation.code .duplicate]).fork test).session :=
      first.seen seen
    have done := second.run _ asked (.nothing _)
    have land := yields_land ((c.put g).here + 2)
      ((d.put (((c.put g).push [Operation.code .duplicate]).fork test)).push [last.code])
    rw [here_push] at land
    rw [show ((Piece.op .duplicate []).put (c.put g)).here = (c.put g).here + 1
      from here_push _] at skip
    exact (first.run g seen ready).bind
      (doubled.bind (skip.bind (done.bind ((yields_emitOp last [] _).bind land))))

theorem logical (has : s.tree.Has r) (kind : r.kind = .binary) (isValue : r.isPlace = false)
    (kids : r.children = [l, e]) (op : r.binaryOp.isLogical = true) (left : Lowers s l)
    (right : Lowers s e) : Lowers s r := by
  have lowL := Rose.height_child (r := r) (c := l) (by simp [kids])
  have lowE := Rose.height_child (r := r) (c := e) (by simp [kids])
  refine ofValue has isValue (by simp [kind]) (by simp [kind])
    (fun _ same => by simp [same, BinaryOp.isLogical] at op)
    (value_binary has kind kids (deepen (by decide) fun d deep => ?_))
  rw [Lowering.binary, Rose.binaryCode]
  refine .read .tree (.read (.binaryOp has) (.read (.first has kids)
    (.read (.second has kids) ?_)))
  cases which : r.binaryOp <;> simp [which, BinaryOp.isLogical] at op
  · exact shortCircuit .branchIfZero .logicalAnd (left.value d (by omega))
      (right.value d (by omega))
  · exact shortCircuit .branchUnlessZero .logicalOr (left.value d (by omega))
      (right.value d (by omega))

theorem binary (has : s.tree.Has r) (kind : r.kind = .binary) (isValue : r.isPlace = false)
    (kids : r.children = [l, e]) (op : r.binaryOp.givesValue = true)
    (integer : r.binaryOp.isIntegerOnly = true → TypeId.isFloating l.exprType = false)
    (leftHas : s.tree.Has l) (left : Lowers s l) (right : Lowers s e) : Lowers s r := by
  have lowL := Rose.height_child (r := r) (c := l) (by simp [kids])
  have lowE := Rose.height_child (r := r) (c := e) (by simp [kids])
  obtain ⟨i, chosen, can, _⟩ := Instruction.ofBinary_value op integer
  refine ofValue has isValue (by simp [kind]) (by simp [kind])
    (fun _ same => by simp [same, BinaryOp.givesValue] at op)
    (value_binary has kind kids (deepen (by decide) fun d deep => ?_))
  rw [Lowering.binary, Rose.binaryCode_value op, chosen, Rose.chosen_ok]
  refine .read .tree (.read (.binaryOp has) (.read (.first has kids)
    (.read (.second has kids) ?_)))
  dsimp only
  split
  · next same => simp [same, BinaryOp.givesValue] at op
  · next same => simp [same, BinaryOp.givesValue, BinaryOp.isLogical] at op
  · next same => simp [same, BinaryOp.givesValue, BinaryOp.isLogical] at op
  · exact .seq (left.value d (by omega)) (.seq (right.value d (by omega)) (withSelected chosen
      (.read (.isFloat leftHas) (.read (.deriveIf can _) (.emit _ _)))))

theorem ternary (has : s.tree.Has r) (kind : r.kind = .ternary) (isValue : r.isPlace = false)
    (kids : r.children = [c, y, n]) (test : Lowers s c) (yes : Lowers s y) (no : Lowers s n) :
    Lowers s r := by
  have lowC := Rose.height_child (r := r) (c := c) (by simp [kids])
  have lowY := Rose.height_child (r := r) (c := y) (by simp [kids])
  have lowN := Rose.height_child (r := r) (c := n) (by simp [kids])
  refine ofValue has isValue (by simp [kind]) (by simp [kind]) (by simp [kind])
    (deepen (by decide) fun d deep => ?_)
  rw [Lowering.value, Rose.toValue_ternary kind kids]
  refine .read (.typeOf has) (.read (.kindOf has) ?_)
  rw [kind]
  refine .read (.first has kids) ?_
  have asked := test.value d (by omega)
  have taken := yes.value d (by omega)
  have other := no.value d (by omega)
  refine ⟨?_, ?_⟩
  · intro id mem
    rcases List.mem_append.mp mem with early | late
    · rcases List.mem_append.mp early with here | there
      · exact asked.labels id here
      · exact taken.labels id there
    · exact other.labels id late
  · intro g seen ready
    refine (asked.run g seen ready).bind ((yields_jump _ _).bind ?_)
    have seen₁ : s.Seen (((c.toValue s).put g).fork .branchIfZero).session := asked.seen seen
    refine (Answers.second has kids _ seen₁).bind ?_
    refine (taken.run _ seen₁ (.nothing _)).bind
      ((yields_jump _ _).bind ((yields_land _ _).bind ?_))
    have seen₂ (p target : Nat) :
        s.Seen ((((y.toValue s).put (((c.toValue s).put g).fork .branchIfZero)).fork .branch).land p
        target).session :=
      taken.seen seen₁
    refine (Answers.third has kids _ (seen₂ _ _)).bind ?_
    rw [here_fork]
    exact (other.run _ (seen₂ _ _) (.nothing _)).bind (yields_land _ _)

/-! ## Calls -/

theorem call {f : Rose} {args : List Rose} (has : s.tree.Has r) (kind : r.kind = .call)
    (isValue : r.isPlace = false) (kids : r.children = f :: args) (calleeHas : s.tree.Has f)
    (callee : (s.identifier (f.arg 2)).kind ≠ .label) (each : ∀ a ∈ args, Lowers s a) :
    Lowers s r := by
  refine ofValue has isValue (by simp [kind]) (by simp [kind]) (by simp [kind])
    (deepen (by decide) fun d deep => ?_)
  rw [Lowering.value, Rose.toValue_call kind kids]
  refine .read (.typeOf has) (.read (.kindOf has) ?_)
  rw [kind]
  refine .seq (.emitOp _ _) (.read (.childNumbers has 1) ?_)
  have arguments : Makes s false false
      ((((List.range r.children.length).drop 1).map Int.ofNat).forM fun i => do
        Lowering.value d (← child (s.tree.handle r.index) i))
          (.all (args.map (Rose.toValue s))) := by
    have rest : r.children.drop 1 = args := by rw [kids, List.drop_one, List.tail_cons]
    rw [← rest] at each ⊢
    refine Makes.forM_children has 1 fun a mem => ?_
    have low := Rose.height_child (List.mem_of_mem_drop mem)
    exact (each a mem).value d (by omega)
  refine .seq arguments
    (.read (.first has kids) (.read (.displacementOf calleeHas callee) ?_))
  exact ⟨nofun, fun g _ _ => yields_emitCall _ g⟩

theorem value_library (has : s.tree.Has r) (kind : r.kind = .builtin)
    (all : ∀ depth, 5 * r.height ≤ depth + 3 → Makes s false false (Lowering.library depth
      (s.tree.handle r.index)) (Rose.libraryCode s r (r.children.map (Rose.codes s)))) :
    ∀ depth, 5 * r.height ≤ depth + 2 →
    Makes s false false (Lowering.value depth (s.tree.handle r.index)) (r.toValue s) := by
  refine deepen (by decide) fun d deep => ?_
  rw [Lowering.value, Rose.toValue_library kind]
  refine .read (.typeOf has) (.read (.kindOf has) ?_)
  rw [kind]
  exact all d (by omega)

theorem library (has : s.tree.Has r) (kind : r.kind = .builtin) (isValue : r.isPlace = false)
    (listed : r.builtin.isListed = true) (valid : ∀ c ∈ r.children, s.types.Valid c.exprType)
    (each : ∀ c ∈ r.children, Lowers s c) : Lowers s r := by
  refine ofValue has isValue (by simp [kind]) (by simp [kind]) (by simp [kind])
    (value_library has kind (deepen (by decide) fun d deep => ?_))
  have below {c : Rose} (mem : c ∈ r.children) := (each c mem).value d (by
    have := Rose.height_child mem
    omega)
  have values : Makes s false false
      ((((List.range r.children.length).drop 0).map Int.ofNat).forM fun i => do
        Lowering.value d (← child (s.tree.handle r.index) i))
      (.all ((r.children.map (Rose.codes s)).map (·.value))) := by
    rw [List.map_map]
    exact Makes.forM_children has 0 fun c mem => below mem
  rw [Lowering.library]
  refine .read .tree (.read (.builtinOf has) (.read (.childNumbers has 0) ?_))
  split
  · next same =>
    simp only [Rose.libraryCode, same]
    have sizes : Answers s
        ((((List.range r.children.length).drop 1).map Int.ofNat).mapM fun i => do
          Lowering.sizeOf (← typeOf (← child (s.tree.handle r.index) i)))
        ((r.children.drop 1).map fun c => s.sizeOf c.exprType) :=
      Answers.mapM_children has 1 fun c mem =>
        (Answers.typeOf (has.child (List.mem_of_mem_drop mem))).bind
          (.sizeOf (valid c (List.mem_of_mem_drop mem)))
    rw [← List.map_drop, List.drop_drop]
    exact .seq values (.read sizes (.emitOp _ _))
  · next same =>
    simp only [Rose.libraryCode, same]
    rw [List.map_map, List.zipWith_map_right, List.zipWith_self]
    exact Makes.forM_children has 0 fun c mem =>
      .seq (below mem) (.read (.typeOf (has.child mem)) (.emitOp _ _))
  · next same =>
    simp only [Rose.libraryCode, same]
    exact Makes.forM_children has 0 fun c mem => .read (.payloadOf (has.child mem)) (.emitOp _ _)
  · next same =>
    simp only [Rose.libraryCode, same]
    exact Makes.forM_children has 0 fun c mem => .read (.payloadOf (has.child mem)) (.emitOp _ _)
  · next other₁ other₂ other₃ other₄ =>
    obtain ⟨i, chosen, _⟩ := Instruction.ofBuiltin_listed listed ⟨other₁, other₂, other₃, other₄⟩
    rw [Rose.libraryCode_other ⟨other₁, other₂, other₃, other₄⟩, chosen, Rose.chosen_ok]
    exact .seq values (withSelected rfl (.emit _ _))

end Lowers

/-- The type of an expression is known to the tables. -/
theorem Session.Accepts.valid {s : Session} {r : Rose} (ok : s.Accepts r) (expr : r.IsExpr) :
    s.types.Valid r.exprType :=
  ok.self.type (Rose.isExpr_kind expr).1

/-- The generator lowers every expression whose tables are in order. -/
theorem lowers_expr {s : Session} {r : Rose} (expr : r.IsExpr) (has : s.tree.Has r)
    (ok : s.Accepts r) : Lowers s r := by
  have valid := ok.valid expr
  -- by induction on the expression: the parts of a node are in the tree with types that are known,
  -- and then the lemma of its kind applies
  induction expr with
  | literal kind value _ => exact .literal has kind value
  | string kind value _ => exact .string has kind value
  | identifier kind _ => exact .identifier has kind valid (ok.self.named kind)
  | @cast r e kind value kids operand source target ih =>
    have mem : e ∈ r.children := by simp [kids]
    exact .cast has kind value kids source target
      (ih (has.child mem) (ok.child mem) ((ok.child mem).valid operand))
  | @subscript r b x kind kids base index first second =>
    have memB : b ∈ r.children := by simp [kids]
    have memX : x ∈ r.children := by simp [kids]
    exact .subscript has kind kids valid
      (first (has.child memB) (ok.child memB) ((ok.child memB).valid base))
      (second (has.child memX) (ok.child memX) ((ok.child memX).valid index))
  | @call r f args kind value kids callee _ all each =>
    have memF : f ∈ r.children := by simp [kids]
    refine .call has kind value kids (has.child memF)
      ((ok.child memF).self.named callee) fun a there => ?_
    have mem : a ∈ r.children := by simp [kids, there]
    exact each a there (has.child mem) (ok.child mem) ((ok.child mem).valid (all a there))
  | @member r b kind kids base place ih =>
    have mem : b ∈ r.children := by simp [kids]
    have known := (ok.child mem).valid base
    exact .member has kind kids place valid (has.child mem) known
      (ih (has.child mem) (ok.child mem) known)
  | @address r e kind value kids op operand place ih =>
    have mem : e ∈ r.children := by simp [kids]
    exact .addressOf has kind value kids op place
      (ih (has.child mem) (ok.child mem) ((ok.child mem).valid operand))
  | @indirection r e kind kids op operand ih =>
    have mem : e ∈ r.children := by simp [kids]
    exact .indirection has kind kids op valid
      (ih (has.child mem) (ok.child mem) ((ok.child mem).valid operand))
  | @step r e kind value kids op operand place ih =>
    have mem : e ∈ r.children := by simp [kids]
    exact .step has kind value kids op (has.child mem) (ok.child mem).self.named place
      (ih (has.child mem) (ok.child mem) ((ok.child mem).valid operand))
  | @unary r e kind value kids op operand integer ih =>
    have mem : e ∈ r.children := by simp [kids]
    exact .unary has kind value kids op integer (has.child mem)
      (ih (has.child mem) (ok.child mem) ((ok.child mem).valid operand))
  | @comma r l e kind value kids op left right first second =>
    have memL : l ∈ r.children := by simp [kids]
    have memE : e ∈ r.children := by simp [kids]
    exact .comma has kind value kids op
      (first (has.child memL) (ok.child memL) ((ok.child memL).valid left))
      (second (has.child memE) (ok.child memE) ((ok.child memE).valid right))
  | @logical r l e kind value kids op left right first second =>
    have memL : l ∈ r.children := by simp [kids]
    have memE : e ∈ r.children := by simp [kids]
    exact .logical has kind value kids op
      (first (has.child memL) (ok.child memL) ((ok.child memL).valid left))
      (second (has.child memE) (ok.child memE) ((ok.child memE).valid right))
  | @binary r l e kind value kids op left right integer first second =>
    have memL : l ∈ r.children := by simp [kids]
    have memE : e ∈ r.children := by simp [kids]
    exact .binary has kind value kids op integer (has.child memL)
      (first (has.child memL) (ok.child memL) ((ok.child memL).valid left))
      (second (has.child memE) (ok.child memE) ((ok.child memE).valid right))
  | @assignment r t v kind value kids op target stored place integer first second =>
    have memT : t ∈ r.children := by simp [kids]
    have memV : v ∈ r.children := by simp [kids]
    exact .assignment has kind value kids op integer valid (has.child memT) (ok.child
      memT).self.named place (first (has.child memT) (ok.child memT) ((ok.child memT).valid target))
      (second (has.child memV) (ok.child memV) ((ok.child memV).valid stored))
  | @ternary r c y n kind value kids test yes no first second third =>
    have memC : c ∈ r.children := by simp [kids]
    have memY : y ∈ r.children := by simp [kids]
    have memN : n ∈ r.children := by simp [kids]
    exact .ternary has kind value kids
      (first (has.child memC) (ok.child memC) ((ok.child memC).valid test))
      (second (has.child memY) (ok.child memY) ((ok.child memY).valid yes))
      (third (has.child memN) (ok.child memN) ((ok.child memN).valid no))
  | library kind value listed all each =>
    exact .library has kind value listed (fun c mem => (ok.child mem).valid (all c mem))
      fun c mem => each c mem (has.child mem) (ok.child mem) ((ok.child mem).valid (all c mem))

end BilingualC
