import Mathlib
import BilingualC.Proofs.Lowering.Layout
import BilingualC.Proofs.Tree.Form
import BilingualC.Lowering.Statement

/-!
# The code of a tree

`Rose.codes` gives the code of a program tree by its structure, without memory and slots: the code
that pushes the value of an expression, the one that pushes its address, the one that only does what
the expression does, and the code of an initializer, a declaration or a statement.
-/

namespace BilingualC

/-- The code of a tree in each place where it may stand. -/
structure Codes where
  value : Piece
  address : Piece
  effect : Piece
  initializer : Piece
  statement : Piece
deriving Inhabited

namespace Session

/-- The number of words of a value of a type. -/
def sizeOf (s : Session) (id : TypeId) : Int :=
  match s.types.sizeOf id with
  | .ok n => n
  | .error _ => 0

/-- The displacement of a declaration. -/
def displacementOf (s : Session) (id : Int) : Int := (s.identifier id).displacement

end Session

/-- The instruction after a step, if a condition holds and the step exists. -/
def Instruction.stepped (condition : Bool) (d : Derivation) (i : Instruction) : Instruction :=
  if condition then
    match i.derive d with
    | .ok out => out
    | .error _ => i
  else i

/-- The instruction that was chosen. -/
def Instruction.chosen : Except SelectionError Instruction → Instruction
  | .ok i => i
  | .error _ => .single .nop

namespace Rose

/-- The code that replaces an address by the value at it. -/
def loadCode (s : Session) (type : Int) : Piece :=
  if s.types.isStructure type then .op .copyIndirect [s.sizeOf type] else .op .loadIndirect []

/-- The code that stores in a target. -/
def storeCode (s : Session) (target : Rose) (address stored : Piece) (i : Instruction)
    (extra : List Int) : Piece :=
  if target.kind = .identifier
    then .seq stored (.plain i (s.displacementOf (target.arg 2) :: extra))
  else .seq address (.seq stored (.plain (i.stepped true .toAddress) extra))

/-- The code of an assignment. -/
def assignmentCode (s : Session) (r target : Rose) (address stored : Piece) (void : Bool) : Piece :=
  if s.types.isStructure r.exprType then
    storeCode s target address stored (Instruction.stepped void .toVoid (.store .record .base))
      [s.sizeOf r.exprType]
  else
    storeCode s target address stored
      (((Instruction.chosen (Instruction.ofBinary r.binaryOp)).stepped
        (TypeId.isFloating r.exprType) .toFloat).stepped void .toVoid) []

/-- The code of a unary expression. -/
def unaryCode (s : Session) (r operand : Rose) (codes : Codes) (void : Bool) : Piece :=
  let i := Instruction.chosen (Instruction.ofUnary r.unaryOp)
  if r.unaryOp = .address then codes.address
  else if r.unaryOp = .indirection then .seq codes.value (loadCode s r.exprType)
  else if r.unaryOp.isStep then
    storeCode s operand codes.address .skip
      ((i.stepped (TypeId.isFloating r.exprType) .toFloat).stepped void .toVoid) []
  else
    .seq codes.value (.plain
      (i.stepped (TypeId.isFloating operand.exprType && r.unaryOp != .logicalNot) .toFloat) [])

/-- The code of a binary expression. -/
def binaryCode (r left : Rose) (l e : Codes) : Piece :=
  match r.binaryOp with
  | .comma => .seq l.effect e.value
  | .logicalAnd => .short .branchIfZero .logicalAnd l.value e.value
  | .logicalOr => .short .branchUnlessZero .logicalOr l.value e.value
  | op =>
    .seq l.value (.seq e.value (.plain ((Instruction.chosen (Instruction.ofBinary op)).stepped
      (TypeId.isFloating left.exprType) .toFloat) []))

/-- The code of a library call. -/
def libraryCode (s : Session) (r : Rose) (codes : List Codes) : Piece :=
  let values := codes.map (·.value)
  match r.builtin with
  | .printf =>
    let sizes := (r.children.drop 1).map fun c => s.sizeOf c.exprType
    .seq (.all values) (.op .printf [sizes.foldl (fun sum size => wrap64 (sum + size)) 0])
  | .print => .all (r.children.zipWith (fun c code => .seq code (.op .print [c.exprType])) values)
  | .printid => .all (r.children.map fun c => .op .printIdentifier [c.arg 2])
  | .getid => .all (r.children.map fun c => .op .readIdentifier [c.arg 2])
  | b => .seq (.all values) (.plain (Instruction.chosen (Instruction.ofBuiltin b)) [])

/-- The code that pushes the address of a place. -/
def addressCode (s : Session) (r : Rose) (codes : List Codes) : Piece :=
  let first := codes.headD default
  match r.kind with
  | .identifier => .op .loadAddress [s.displacementOf (r.arg 2)]
  | .subscript =>
    .seq first.value (.seq (codes.getD 1 default).value (.op .slice [s.sizeOf r.exprType]))
  | .member =>
    .seq (if r.arg 3 ≠ 0 then first.value else first.address) (.op .select [r.arg 2])
  | .unary => first.value
  | _ => .skip

/-- The code that pushes the value of an expression. -/
def valueCode (s : Session) (r : Rose) (codes : List Codes) : Piece :=
  let first := codes.headD default
  let second := codes.getD 1 default
  let base := r.children.headD default
  match r.kind with
  | .literal => .op .loadConstant [r.arg 2]
  | .string => .text (s.stringAt (r.arg 2))
  | .identifier =>
    if s.types.isStructure r.exprType then
      .op .copyFrame [s.displacementOf (r.arg 2), s.sizeOf r.exprType]
    else .op .load [s.displacementOf (r.arg 2)]
  | .cast => .seq first.value (.op .widen [])
  | .subscript => .seq (addressCode s r codes) (loadCode s r.exprType)
  | .member =>
    if r.arg 3 = 0 ∧ base.isPlace = false then
      .seq first.value (.op .copyField [r.arg 2, s.sizeOf r.exprType, s.sizeOf base.exprType])
    else .seq (addressCode s r codes) (loadCode s r.exprType)
  | .unary => unaryCode s r base first false
  | .binary => binaryCode r base first second
  | .assignment => assignmentCode s r base first.address second.value false
  | .ternary => .choose first.value second.value (codes.getD 2 default).value
  | .call =>
    .seq (.op .callStart []) (.seq (.all ((codes.drop 1).map (·.value)))
      (.call (s.displacementOf (base.arg 2))))
  | .builtin => libraryCode s r codes
  | _ => .skip

/-- The code that does what an expression does. -/
def effectCode (s : Session) (r : Rose) (codes : List Codes) : Piece :=
  let first := codes.headD default
  let second := codes.getD 1 default
  let base := r.children.headD default
  match r.kind with
  | .assignment => assignmentCode s r base first.address second.value true
  | .unary =>
    if r.unaryOp.isStep then unaryCode s r base first true else valueCode s r codes
  | .binary =>
    if r.binaryOp = .comma then .seq first.effect second.effect else valueCode s r codes
  | _ => valueCode s r codes

/-- The code of an initializer. -/
def initializerCode (s : Session) (r : Rose) (codes : List Codes) : Piece :=
  if r.kind = .initializer then
    .seq (if s.types.isArray r.exprType then .op .beginInit [r.children.length] else .skip)
      (.all (codes.map (·.initializer)))
  else valueCode s r codes

/-- The type of the innermost elements of an array. -/
def elementOf (s : Session) (id : Int) : Int :=
  match Lowering.innermostElement s.types (s.types.cells.size + 1) id with
  | .ok element => element
  | .error _ => 0

/-- The code of the declaration of a variable. -/
def variableCode (s : Session) (r : Rose) (codes : List Codes) : Piece :=
  let entry := s.identifier (r.arg 0)
  let dims := (r.arg 1).toNat
  let hasInit := r.arg 2 ≠ 0
  let init := codes.getD dims default
  if r.arg 1 = 0 then
    if hasInit then
      if s.types.isStructure entry.type then
        .seq init.initializer (.plain (Instruction.stepped true .toVoid (.store .record .base))
          [entry.displacement, s.sizeOf entry.type])
      else
        .seq init.value (.plain ((Instruction.stepped (TypeId.isFloating entry.type) .toFloat
          (.store .assign .base)).stepped true .toVoid) [entry.displacement])
    else .skip
  else
    let bounds := r.children.take dims
    let written := flagWord (bounds.all fun b => b.kind != .emptyBound)
    let size := s.sizeOf (elementOf s entry.type)
    .seq
      (.all ((bounds.zipWith (fun b c => if b.kind = .emptyBound then .skip else c.value) codes)))
      (.seq (.op .defineArray [r.arg 1, size, entry.displacement, 0, written, flagWord hasInit])
      (if hasInit then
          if (r.children.getD dims default).kind = .string then
            .seq init.value (.op .initString [entry.displacement])
          else .seq init.initializer (.op .initArray [r.arg 1, size, entry.displacement, written])
        else .skip))

/-- The code of the first clause of a `for` statement. -/
def clauseCode (r : Rose) (codes : Codes) : Piece :=
  if r.kind = .declaration then codes.statement else codes.effect

/-- The code of a `for` statement. -/
def forCode (r : Rose) (codes : List Codes) : Piece :=
  let condAt := (r.arg 0).toNat
  let stepAt := condAt + (r.arg 1).toNat
  let bodyAt := stepAt + (r.arg 2).toNat
  let init :=
    if r.arg 0 = 0 then .skip else clauseCode (r.children.headD default) (codes.headD default)
  let step := if r.arg 2 = 0 then .skip else (codes.getD stepAt default).effect
  let body := (codes.getD bodyAt default).statement
  .seq init (if r.arg 1 = 0 then .endlessLoop body step
    else .forLoop (codes.getD condAt default).value body step)

/-- The code of a statement or a declaration. -/
def statementCode (s : Session) (r : Rose) (codes : List Codes) : Piece :=
  let first := codes.headD default
  let second := codes.getD 1 default
  match r.kind with
  | .block | .declaration => .all (codes.map (·.statement))
  | .null | .typeDefinition => .skip
  | .variable => variableCode s r codes
  | .ifElse =>
    if r.arg 0 = 0 then .only first.value second.statement
    else .choose first.value second.statement (codes.getD 2 default).statement
  | .whileLoop => .whileLoop first.value second.statement
  | .doWhile => .doWhile first.statement second.value
  | .forLoop => forCode r codes
  | .switching => .switch first.value second.statement
  | .caseLabel => .caseLabel first.value second.statement
  | .defaultLabel => .defaultLabel first.statement
  | .breaking => .breaking
  | .continuing => .continuing
  | .jump => .goto (r.arg 0)
  | .label => .label (r.arg 0) first.statement
  | .returning =>
    if r.children = [] then .op .returnVoid []
    else .seq first.value (.op .returnValue [s.sizeOf (r.children.headD default).exprType])
  | _ => effectCode s r codes

mutual

/-- The code of a tree. -/
def codes (s : Session) : Rose → Codes
  | .node i type args children =>
    let r : Rose := .node i type args children
    let below := codesAll s children
    ⟨valueCode s r below, addressCode s r below, effectCode s r below, initializerCode s r below,
      statementCode s r below⟩

/-- The codes of some trees. -/
def codesAll (s : Session) : List Rose → List Codes
  | [] => []
  | c :: cs => c.codes s :: codesAll s cs

end

theorem codesAll_eq (s : Session) (cs : List Rose) : codesAll s cs = cs.map (codes s) := by
  induction cs with
  | nil => rw [codesAll]; rfl
  | cons c cs ih => rw [codesAll, ih, List.map_cons]

theorem codes_eq (s : Session) (r : Rose) :
    r.codes s =
      ⟨valueCode s r (r.children.map (codes s)), addressCode s r (r.children.map (codes s)),
        effectCode s r (r.children.map (codes s)), initializerCode s r (r.children.map (codes s)),
        statementCode s r (r.children.map (codes s))⟩ := by
  cases r
  rw [codes, codesAll_eq, children_node]

/-- The code that pushes the value of an expression. -/
def toValue (s : Session) (r : Rose) : Piece := (r.codes s).value
/-- The code that pushes the address of a place. -/
def toAddress (s : Session) (r : Rose) : Piece := (r.codes s).address
/-- The code that does what an expression does. -/
def toEffect (s : Session) (r : Rose) : Piece := (r.codes s).effect
/-- The code of an initializer. -/
def toInitializer (s : Session) (r : Rose) : Piece := (r.codes s).initializer
/-- The code of a statement or a declaration. -/
def toStatement (s : Session) (r : Rose) : Piece := (r.codes s).statement

theorem toValue_eq (s : Session) (r : Rose) :
    r.toValue s = valueCode s r (r.children.map (codes s)) := by
  rw [toValue, codes_eq]

theorem toAddress_eq (s : Session) (r : Rose) :
    r.toAddress s = addressCode s r (r.children.map (codes s)) := by
  rw [toAddress, codes_eq]

theorem toEffect_eq (s : Session) (r : Rose) :
    r.toEffect s = effectCode s r (r.children.map (codes s)) := by
  rw [toEffect, codes_eq]

theorem toInitializer_eq (s : Session) (r : Rose) :
    r.toInitializer s = initializerCode s r (r.children.map (codes s)) := by
  rw [toInitializer, codes_eq]

theorem toStatement_eq (s : Session) (r : Rose) :
    r.toStatement s = statementCode s r (r.children.map (codes s)) := by
  rw [toStatement, codes_eq]

/-! ## Expressions -/

section Expressions

variable {s : Session} {r e l b x c y n f : Rose} {args : List Rose}

theorem toValue_literal (kind : r.kind = .literal) : r.toValue s = .op .loadConstant [r.arg 2] := by
  rw [toValue_eq s r]
  delta valueCode
  simp only [kind]

theorem toValue_string (kind : r.kind = .string) : r.toValue s = .text (s.stringAt (r.arg 2)) := by
  rw [toValue_eq s r]
  delta valueCode
  simp only [kind]

theorem toValue_identifier (kind : r.kind = .identifier) :
    r.toValue s =
      if s.types.isStructure r.exprType then
        .op .copyFrame [s.displacementOf (r.arg 2), s.sizeOf r.exprType]
      else .op .load [s.displacementOf (r.arg 2)] := by
  rw [toValue_eq s r]
  delta valueCode
  simp only [kind]

theorem toValue_cast (kind : r.kind = .cast) (kids : r.children = [e]) :
    r.toValue s = .seq (e.toValue s) (.op .widen []) := by
  rw [toValue_eq s r]
  delta valueCode
  simp only [kind, kids]
  rfl

theorem toValue_subscript (kind : r.kind = .subscript) :
    r.toValue s = .seq (r.toAddress s) (loadCode s r.exprType) := by
  rw [toValue_eq s r]
  delta valueCode
  simp only [kind, toAddress_eq s r]

theorem toAddress_subscript (kind : r.kind = .subscript) (kids : r.children = [b, x]) :
    r.toAddress s = .seq (b.toValue s) (.seq (x.toValue s) (.op .slice [s.sizeOf r.exprType])) := by
  rw [toAddress_eq s r]
  delta addressCode
  simp only [kind, kids]
  rfl

theorem toValue_member (kind : r.kind = .member) (kids : r.children = [b]) :
    r.toValue s =
      if r.arg 3 = 0 ∧ b.isPlace = false then
        .seq (b.toValue s) (.op .copyField [r.arg 2, s.sizeOf r.exprType, s.sizeOf b.exprType])
      else .seq (r.toAddress s) (loadCode s r.exprType) := by
  rw [toValue_eq s r]
  delta valueCode
  simp only [kind, kids, toAddress_eq s r]
  rfl

theorem toAddress_member (kind : r.kind = .member) (kids : r.children = [b]) :
    r.toAddress s =
      .seq (if r.arg 3 ≠ 0 then b.toValue s else b.toAddress s) (.op .select [r.arg 2]) := by
  rw [toAddress_eq s r]
  delta addressCode
  simp only [kind, kids]
  rfl

theorem toAddress_identifier (kind : r.kind = .identifier) :
    r.toAddress s = .op .loadAddress [s.displacementOf (r.arg 2)] := by
  rw [toAddress_eq s r]
  delta addressCode
  simp only [kind]

theorem toAddress_unary (kind : r.kind = .unary) (kids : r.children = [e]) :
    r.toAddress s = e.toValue s := by
  rw [toAddress_eq s r]
  delta addressCode
  simp only [kind, kids]
  rfl

theorem toValue_unary (kind : r.kind = .unary) (kids : r.children = [e]) :
    r.toValue s = unaryCode s r e (e.codes s) false := by
  rw [toValue_eq s r]
  delta valueCode
  simp only [kind, kids]
  rfl

theorem toValue_binary (kind : r.kind = .binary) (kids : r.children = [l, e]) :
    r.toValue s = binaryCode r l (l.codes s) (e.codes s) := by
  rw [toValue_eq s r]
  delta valueCode
  simp only [kind, kids]
  rfl

theorem toValue_assignment (kind : r.kind = .assignment) (kids : r.children = [l, e]) :
    r.toValue s = assignmentCode s r l (l.toAddress s) (e.toValue s) false := by
  rw [toValue_eq s r]
  delta valueCode
  simp only [kind, kids]
  rfl

theorem toValue_ternary (kind : r.kind = .ternary) (kids : r.children = [c, y, n]) :
    r.toValue s = .choose (c.toValue s) (y.toValue s) (n.toValue s) := by
  rw [toValue_eq s r]
  delta valueCode
  simp only [kind, kids]
  rfl

theorem toValue_call (kind : r.kind = .call) (kids : r.children = f :: args) :
    r.toValue s = .seq (.op .callStart [])
    (.seq (.all (args.map (toValue s))) (.call (s.displacementOf (f.arg 2)))) := by
  rw [toValue_eq s r]
  delta valueCode
  simp only [kind, kids, List.map_cons, List.drop_one, List.tail_cons, List.map_map,
    List.headD_cons]
  rfl

theorem toValue_library (kind : r.kind = .builtin) :
    r.toValue s = libraryCode s r (r.children.map (codes s)) := by
  rw [toValue_eq s r]
  delta valueCode
  simp only [kind]

theorem toEffect_assignment (kind : r.kind = .assignment) (kids : r.children = [l, e]) :
    r.toEffect s = assignmentCode s r l (l.toAddress s) (e.toValue s) true := by
  rw [toEffect_eq s r]
  delta effectCode
  simp only [kind, kids]
  rfl

theorem toEffect_step (kind : r.kind = .unary) (kids : r.children = [e])
    (step : r.unaryOp.isStep = true) : r.toEffect s = unaryCode s r e (e.codes s) true := by
  rw [toEffect_eq s r]
  delta effectCode
  simp only [kind, kids, step, if_true]
  rfl

theorem toEffect_comma (kind : r.kind = .binary) (kids : r.children = [l, e])
    (op : r.binaryOp = .comma) : r.toEffect s = .seq (l.toEffect s) (e.toEffect s) := by
  rw [toEffect_eq s r]
  delta effectCode
  simp only [kind, kids, op, if_true]
  rfl

/-- An expression that stores nothing does what its value does. -/
theorem toEffect_other (assignment : r.kind ≠ .assignment)
    (step : r.kind = .unary → r.unaryOp.isStep = false)
    (comma : r.kind = .binary → r.binaryOp ≠ .comma) : r.toEffect s = r.toValue s := by
  rw [toEffect_eq, toValue_eq, effectCode]
  split
  · contradiction
  · next kind => simp [step kind]
  · next kind => simp [comma kind]
  · rfl

end Expressions

/-! ## Declarations -/

/-- The code of a bound of an array. -/
def boundCode (s : Session) (b : Rose) : Piece :=
  if b.kind = .emptyBound then .skip else b.toValue s

/-- The code that initializes a variable without bounds. -/
def scalarCode (s : Session) (entry : Identifier) (init : Rose) : Piece :=
  if s.types.isStructure entry.type then
    .seq (init.toInitializer s) (.plain (Instruction.stepped true .toVoid (.store .record .base))
      [entry.displacement, s.sizeOf entry.type])
  else
    .seq (init.toValue s) (.plain ((Instruction.stepped (TypeId.isFloating entry.type) .toFloat
      (.store .assign .base)).stepped true .toVoid) [entry.displacement])

/-- Says whether all bounds of an array are written. -/
def writtenWord (bounds : List Rose) : Int := flagWord (bounds.all fun b => b.kind != .emptyBound)

/-- The code that initializes an array. -/
def arrayInitCode (s : Session) (entry : Identifier) (bounds : List Rose) (init : Rose) : Piece :=
  if init.kind = .string then .seq (init.toValue s) (.op .initString [entry.displacement])
  else .seq (init.toInitializer s) (.op .initArray [bounds.length,
    s.sizeOf (elementOf s entry.type), entry.displacement, writtenWord bounds])

/-- The code that defines an array. -/
def arrayCode (s : Session) (entry : Identifier) (bounds : List Rose)
    (init : Option Rose) : Piece :=
  .seq (.all (bounds.map (boundCode s))) (.seq (.op .defineArray [bounds.length, s.sizeOf
    (elementOf s entry.type), entry.displacement, 0, writtenWord bounds, flagWord init.isSome])
    ((init.map (arrayInitCode s entry bounds)).getD .skip))

theorem zipWith_map_append {α β γ : Type} (f : α → β → γ) (g : α → β) (xs : List α)
    (more : List β) : xs.zipWith f (xs.map g ++ more) = xs.map fun x => f x (g x) := by
  induction xs with
  | nil => rfl
  | cons x xs ih => simp [ih]

theorem toStatement_variable {s : Session} {r : Rose} {bounds : List Rose} {init : Option Rose}
    (h : IsVariable r bounds init) :
    r.toStatement s =
      if bounds = [] then (init.map (scalarCode s (s.identifier (r.arg 0)))).getD .skip
      else arrayCode s (s.identifier (r.arg 0)) bounds init := by
  have taken : (bounds ++ init.toList).take bounds.length = bounds := List.take_left
  rw [toStatement_eq s r]
  delta statementCode
  simp only [h.kind, variableCode, h.flag, h.count, Int.toNat_natCast, h.kids, taken,
    List.map_append, zipWith_map_append]
  cases bounds with
  | nil =>
    cases init with
    | none => rfl
    | some i => rfl
  | cons b bs =>
    have some : ((b :: bs).length : Int) ≠ 0 := by simp; omega
    simp only [some, if_false, reduceCtorEq]
    cases init with
    | none => rfl
    | some i =>
      have last : ((b :: bs).map (codes s) ++ [i].map (codes s)).getD (b :: bs).length default =
        i.codes s := by
        simp
      have lastTree : (b :: bs ++ [i]).getD (b :: bs).length default = i := by simp
      simp only [Option.toList_some, last, lastTree]
      rfl

/-! ## Statements -/

section Statements

variable {s : Session} {r c y n b e v : Rose}

theorem toStatement_block (kind : r.kind = .block) :
    r.toStatement s = .all (r.children.map (toStatement s)) := by
  rw [toStatement_eq s r]
  delta statementCode
  simp only [kind, List.map_map]
  rfl

theorem toStatement_declaration (kind : r.kind = .declaration) :
    r.toStatement s = .all (r.children.map (toStatement s)) := by
  rw [toStatement_eq s r]
  delta statementCode
  simp only [kind, List.map_map]
  rfl

theorem toStatement_null (kind : r.kind = .null ∨ r.kind = .typeDefinition) :
    r.toStatement s = .skip := by
  rw [toStatement_eq s r]
  rcases kind with kind | kind <;> simp only [statementCode, kind]

theorem toStatement_ifOnly (kind : r.kind = .ifElse) (flag : r.arg 0 = 0)
    (kids : r.children = [c, y]) : r.toStatement s = .only (c.toValue s) (y.toStatement s) := by
  rw [toStatement_eq s r]
  delta statementCode
  simp only [kind, flag, kids]
  rfl

theorem toStatement_ifElse (kind : r.kind = .ifElse)
    (flag : r.arg 0 ≠ 0) (kids : r.children = [c, y, n]) :
    r.toStatement s = .choose (c.toValue s) (y.toStatement s) (n.toStatement s) := by
  rw [toStatement_eq s r]
  delta statementCode
  simp only [kind, flag, kids, if_false]
  rfl

theorem toStatement_whileLoop (kind : r.kind = .whileLoop) (kids : r.children = [c, b]) :
    r.toStatement s = .whileLoop (c.toValue s) (b.toStatement s) := by
  rw [toStatement_eq s r]
  delta statementCode
  simp only [kind, kids]
  rfl

theorem toStatement_doWhile (kind : r.kind = .doWhile) (kids : r.children = [b, c]) :
    r.toStatement s = .doWhile (b.toStatement s) (c.toValue s) := by
  rw [toStatement_eq s r]
  delta statementCode
  simp only [kind, kids]
  rfl

/-- The code of a clause that may be missing. -/
def clause (code : Rose → Piece) : Option Rose → Piece
  | none => .skip
  | some r => code r

/-- The code of the first clause of a `for` statement. -/
def initCode (s : Session) (r : Rose) : Piece :=
  if r.kind = .declaration then r.toStatement s else r.toEffect s

/-- The code of a loop with a test or without one. -/
def loopCode (test : Option Piece) (body step : Piece) : Piece :=
  match test with
  | none => .endlessLoop body step
  | some t => .forLoop t body step

theorem toStatement_forLoop {init cond step : Option Rose} (kind : r.kind = .forLoop)
    (kids : r.children = init.toList ++ cond.toList ++ step.toList ++ [b])
    (hasInit : r.arg 0 = flagWord init.isSome) (hasCond : r.arg 1 = flagWord cond.isSome)
    (hasStep : r.arg 2 = flagWord step.isSome) :
    r.toStatement s = .seq (clause (initCode s) init)
      (loopCode (cond.map (toValue s)) (b.toStatement s) (clause (toEffect s) step)) := by
  rw [toStatement_eq s r]
  delta statementCode
  simp only [kind, forCode, hasInit, hasCond, hasStep, kids]
  cases init <;> cases cond <;> cases step <;> rfl

theorem toStatement_switching (kind : r.kind = .switching) (kids : r.children = [c, b]) :
    r.toStatement s = .switch (c.toValue s) (b.toStatement s) := by
  rw [toStatement_eq s r]
  delta statementCode
  simp only [kind, kids]
  rfl

theorem toStatement_caseLabel (kind : r.kind = .caseLabel) (kids : r.children = [v, b]) :
    r.toStatement s = .caseLabel (v.toValue s) (b.toStatement s) := by
  rw [toStatement_eq s r]
  delta statementCode
  simp only [kind, kids]
  rfl

theorem toStatement_defaultLabel (kind : r.kind = .defaultLabel) (kids : r.children = [b]) :
    r.toStatement s = .defaultLabel (b.toStatement s) := by
  rw [toStatement_eq s r]
  delta statementCode
  simp only [kind, kids]
  rfl

theorem toStatement_breaking (kind : r.kind = .breaking) : r.toStatement s = .breaking := by
  rw [toStatement_eq s r]
  delta statementCode
  simp only [kind]

theorem toStatement_continuing (kind : r.kind = .continuing) : r.toStatement s = .continuing := by
  rw [toStatement_eq s r]
  delta statementCode
  simp only [kind]

theorem toStatement_jump (kind : r.kind = .jump) : r.toStatement s = .goto (r.arg 0) := by
  rw [toStatement_eq s r]
  delta statementCode
  simp only [kind]

theorem toStatement_label (kind : r.kind = .label) (kids : r.children = [b]) :
    r.toStatement s = .label (r.arg 0) (b.toStatement s) := by
  rw [toStatement_eq s r]
  delta statementCode
  simp only [kind, kids]
  rfl

theorem toStatement_returnVoid (kind : r.kind = .returning) (kids : r.children = []) :
    r.toStatement s = .op .returnVoid [] := by
  rw [toStatement_eq s r]
  delta statementCode
  simp only [kind, kids]
  rfl

theorem toStatement_returnValue (kind : r.kind = .returning) (kids : r.children = [e]) :
    r.toStatement s = .seq (e.toValue s) (.op .returnValue [s.sizeOf e.exprType]) := by
  rw [toStatement_eq s r]
  delta statementCode
  simp only [kind, kids, reduceCtorEq, if_false]
  rfl

theorem toStatement_expr (kind : r.kind.isExpression = true) : r.toStatement s = r.toEffect s := by
  rw [toStatement_eq, toEffect_eq, statementCode]
  split <;> first | rfl | (next same => simp [same, Kind.isExpression] at kind)

theorem toInitializer_list (kind : r.kind = .initializer) :
    r.toInitializer s =
      .seq (if s.types.isArray r.exprType then .op .beginInit [r.children.length] else .skip)
        (.all (r.children.map (toInitializer s))) := by
  rw [toInitializer_eq s r]
  delta initializerCode
  simp only [kind, if_true, List.map_map]
  rfl

theorem toInitializer_expr (kind : r.kind ≠ .initializer) : r.toInitializer s = r.toValue s := by
  rw [toInitializer_eq, toValue_eq, initializerCode, if_neg kind]

theorem toValue_list (kind : r.kind = .initializer) : r.toValue s = .skip := by
  rw [toValue_eq s r]
  delta valueCode
  simp only [kind]

end Statements

end Rose

end BilingualC
