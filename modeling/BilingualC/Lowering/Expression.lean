import BilingualC.Lowering

/-!
# Code of expressions

`value` pushes the value of an expression: a structure whole, an array as a reference. `address`
pushes the address of a place, and `effect` evaluates an expression for what it does.
-/

namespace BilingualC.Lowering

/-- Replaces the address on the stack by the value at it. -/
def loadFrom (type : TypeId) : Lower Unit := do
  if ← isStructure type then emitOp .copyIndirect [← sizeOf type] else emitOp .loadIndirect []

/-- Lays a text out in the code and jumps over it. The address of its first character is pushed; the
cell before it holds the length. -/
def text (s : String) : Lower Unit := do
  emitOp .loadConstant []
  let address ← slot
  let stop ← jump .branch
  append [s.length]
  patchHere [address]
  append (s.toList.map fun c => (c.toNat : Int))
  patchHere [stop]

/-- Goes on with a selected instruction, or fails the node. -/
def withSelected (n : Handle) (selected : Except SelectionError Instruction)
    (go : Instruction → Lower Unit) : Lower Unit :=
  match selected with
  | .ok i => go i
  | .error cause => fail n (some cause)

mutual

/-- Pushes the value of an expression. -/
def value : Nat → Handle → Lower Unit
  | 0, _ => throw .endless
  | depth + 1, n => do
    let type ← typeOf n
    match ← kindOf n with
    | .literal => emitOp .loadConstant [← payloadOf n]
    | .string => text ((← get).session.stringAt (← payloadOf n))
    | .identifier =>
      let displacement ← displacementOf n
      if ← isStructure type then emitOp .copyFrame [displacement, ← sizeOf type]
      else emitOp .load [displacement]
    | .cast =>
      if !TypeId.isInteger (← payloadOf n) || !TypeId.isFloating type then return ← fail n none
      value depth (← child n 0)
      emitOp .widen []
    | .subscript =>
      address depth n
      loadFrom type
    | .member =>
      let base ← child n 0
      let t ← tree
      if !(← t.throughPointer n) && !(← t.isPlace base) then
        value depth base
        emitOp .copyField [← payloadOf n, ← sizeOf type, ← sizeOf (← typeOf base)]
      else
        address depth n
        loadFrom type
    | .unary => unary depth n false
    | .binary => binary depth n
    | .assignment => assignment depth n false
    | .ternary =>
      value depth (← child n 0)
      let no ← jump .branchIfZero
      value depth (← child n 1)
      let stop ← jump .branch
      patchHere [no]
      value depth (← child n 2)
      patchHere [stop]
    | .call =>
      emitOp .callStart []
      (← childNumbers n 1).forM fun i => do value depth (← child n i)
      emitCall (← displacementOf (← child n 0))
    | .builtin => library depth n
    | _ => fail n none

/-- Pushes the address of a place. -/
def address : Nat → Handle → Lower Unit
  | 0, _ => throw .endless
  | depth + 1, n => do
    match ← kindOf n with
    | .identifier => emitOp .loadAddress [← displacementOf n]
    | .subscript =>
      value depth (← child n 0)
      value depth (← child n 1)
      emitOp .slice [← sizeOf (← typeOf n)]
    | .member =>
      let base ← child n 0
      if ← (← tree).throughPointer n then value depth base else address depth base
      emitOp .select [← payloadOf n]
    | .unary =>
      if (← (← tree).unaryOp n) != .indirection then return ← fail n none
      value depth (← child n 0)
    | _ => fail n none

/-- A unary expression; a step without use of its value leaves nothing. -/
def unary : Nat → Handle → Bool → Lower Unit
  | 0, _, _ => throw .endless
  | depth + 1, n, void => do
    let op ← (← tree).unaryOp n
    let operand ← child n 0
    if op == .address then
      address depth operand
    else if op == .indirection then
      value depth operand
      loadFrom (← typeOf n)
    else if op.isStep then
      withSelected n (Instruction.ofUnary op) fun i => do
        let i ← deriveIf (← isFloat n) n .toFloat i
        let i ← deriveIf void n .toVoid i
        store depth n operand i none []
    else
      value depth operand
      withSelected n (Instruction.ofUnary op) fun i => do
        emit (← deriveIf ((← isFloat operand) && op != .logicalNot) n .toFloat i) []

/-- Emits a storing instruction. An identifier is reached by its displacement; for any other target
the address is pushed first. The stored value is pushed after it. -/
def store : Nat → Handle → Handle → Instruction → Option Handle → List Int → Lower Unit
  | 0, _, _, _, _, _ => throw .endless
  | depth + 1, n, target, i, stored, extra => do
    let isIdentifier := (← kindOf target) == .identifier
    if !isIdentifier then address depth target
    if let some v := stored then value depth v
    if isIdentifier then emit i ((← displacementOf target) :: extra)
    else emit (← derive n .toAddress i) extra

/-- An assignment. -/
def assignment : Nat → Handle → Bool → Lower Unit
  | 0, _, _ => throw .endless
  | depth + 1, n, void => do
    let target ← child n 0
    let stored ← child n 1
    let type ← typeOf n
    if ← isStructure type then
      let i ← deriveIf void n .toVoid (.store .record .base)
      store depth n target i (some stored) [← sizeOf type]
    else
      withSelected n (Instruction.ofBinary (← (← tree).binaryOp n)) fun i => do
        let i ← deriveIf (← isFloat n) n .toFloat i
        let i ← deriveIf void n .toVoid i
        store depth n target i (some stored) []

/-- A binary expression. The right operand of a logical operator is evaluated only if needed. -/
def binary : Nat → Handle → Lower Unit
  | 0, _ => throw .endless
  | depth + 1, n => do
    let op ← (← tree).binaryOp n
    let l ← child n 0
    let r ← child n 1
    let logical (short last : Operation) : Lower Unit := do
      value depth l
      emitOp .duplicate []
      let skip ← jump short
      value depth r
      emitOp last []
      patchHere [skip]
    match op with
    | .comma =>
      effect depth l
      value depth r
    | .logicalAnd => logical .branchIfZero .logicalAnd
    | .logicalOr => logical .branchUnlessZero .logicalOr
    | _ =>
      value depth l
      value depth r
      withSelected n (Instruction.ofBinary op) fun i =>
        do emit (← deriveIf (← isFloat l) n .toFloat i) []

/-- A library call. -/
def library : Nat → Handle → Lower Unit
  | 0, _ => throw .endless
  | depth + 1, n => do
    let b ← (← tree).builtinOf n
    let all ← childNumbers n 0
    match b with
    | .printf =>
      all.forM fun i => do value depth (← child n i)
      let sizes ← (all.drop 1).mapM fun i => do sizeOf (← typeOf (← child n i))
      emitOp .printf [sizes.foldl (fun sum size => wrap64 (sum + size)) 0]
    | .print =>
      all.forM fun i => do
        let arg ← child n i
        value depth arg
        emitOp .print [← typeOf arg]
    | .printid => all.forM fun i => do emitOp .printIdentifier [← payloadOf (← child n i)]
    | .getid => all.forM fun i => do emitOp .readIdentifier [← payloadOf (← child n i)]
    | _ =>
      all.forM fun i => do value depth (← child n i)
      withSelected n (Instruction.ofBuiltin b) fun i => emit i []

/-- Evaluates an expression for what it does. Assignments and steps leave nothing on the stack. -/
def effect : Nat → Handle → Lower Unit
  | 0, _ => throw .endless
  | depth + 1, n => do
    match ← kindOf n with
    | .assignment => assignment depth n true
    | .unary =>
      if (← (← tree).unaryOp n).isStep then unary depth n true else value depth n
    | .binary =>
      if (← (← tree).binaryOp n) == .comma then
        effect depth (← child n 0)
        effect depth (← child n 1)
      else value depth n
    | _ => value depth n

end

end BilingualC.Lowering
