import BilingualC.Checker

/-!
# Rules for expressions

The rule of each form of expression: what it demands of its operands, which type and category it
has, and which constant it is when its operands are constants and folding is on.
-/

namespace BilingualC.Checker

/-! ## Names and constants -/

/-- An identifier as an expression. A library function or a type is no value. -/
def identifier (spelling : Int) (loc : Location) : Check Handle := do
  let (id, entry) ← lookup spelling
  let undeclared : Check Handle := do
    refuse loc (.named .undeclared ((← currentSession).spellingText spelling))
  if id == 0 then return ← undeclared
  match entry.kind with
  | .builtin => refuse loc (.plain .functionValue)
  | .typeName => undeclared
  | .function => buildExpr .identifier entry.type .value loc [id] []
  | _ => buildExpr .identifier entry.type .place loc [id] []

/-- Refuses a function that is used without being called. -/
def value (n : Handle) : Check Handle := do
  if ← isBroken n then return n
  if !(← types).isFunction (← typeOf n) then return n
  refuse (← locationOf n) (.plain .functionValue)

/-- The constant of a token. -/
def constant (tok : Token) : Check Handle := do
  match tok.kind with
  | .charLiteral => buildConstant TypeId.char tok.intValue tok.loc
  | .floatLiteral => buildConstant TypeId.float tok.floatValue.toWord tok.loc
  | .stringLiteral => buildExpr .string (← get).stringType .value tok.loc [tok.stringIndex] []
  | _ => buildConstant TypeId.int tok.intValue tok.loc

/-! ## Selections and calls -/

/-- An element of an array. -/
def subscript (base index : Handle) (opening close : Location) : Check Handle := do
  if ← anyBroken [base, index] then return .broken
  let baseType ← typeOf base
  if !(← types).isArray baseType then return ← refuse opening (.plain .subscriptNotArray)
  if !TypeId.isInteger (← typeOf index) then
    return ← refuse (← locationOf index) (.plain .indexNotInteger)
  let loc := Location.span (← locationOf base) close
  buildExpr .subscript (← (← types).element baseType) .place loc [] [base, index]

/-- Converts arguments to the types of parameters, in order. The first argument that does not fit is
reported with the diagnostic that `complain` makes of the problem. -/
def convertArguments : List (TypeId × (Diagnostic → Diagnostic)) → List Handle →
    Check (Option (List Handle))
  | (type, complain) :: wanted, arg :: args => do
    let (converted, problem) ← convert type arg
    match problem with
    | some d =>
      report (← locationOf arg) (complain d)
      return none
    | none => return (← convertArguments wanted args).map (converted :: ·)
  | _, _ => return some []

/-- A call of a function of the program. -/
def call (callee : Handle) (args : List Handle) (opening close : Location) : Check Handle := do
  if ← anyBroken (callee :: args) then return .broken
  let type ← typeOf callee
  if (← kindOf callee) != .identifier || !(← types).isFunction type then
    return ← refuse opening (.plain .callNotFunction)
  let parameters ← (← types).parameters type
  if parameters.length != args.length then
    return ← refuse close (.counted .wrongArgCount parameters.length args.length)
  match ← convertArguments (parameters.map (·, id)) args with
  | none => return .broken
  | some args =>
    let loc := Location.span (← locationOf callee) close
    buildExpr .call (← (← types).result type) .value loc [] (callee :: args)

/-- The structure that a member is selected from and the category of the member. -/
def memberBase (base : Handle) (arrow : Bool) (opLoc : Location) : Check (Option (TypeId × Int)) :=
  do
  let types ← types
  let baseType ← typeOf base
  if arrow then
    if types.isPointer baseType then
      let target ← types.element baseType
      if types.isStructure target then return some (target, Category.place.word)
    report opLoc (.plain .notStructPointer)
    return none
  if types.isStructure baseType then return some (baseType, ← (← tree).categoryWord base)
  report opLoc (.plain .notStruct)
  return none

/-- A field of a structure, selected from the structure or through a pointer to it. -/
def member (base : Handle) (name : Int) (arrow : Bool) (opLoc nameLoc : Location) : Check Handle :=
  do
  if ← isBroken base then return .broken
  match ← memberBase base arrow opLoc with
  | none => return .broken
  | some (owner, category) =>
    match ← (← types).member owner name with
    | none => refuse nameLoc (.named .noSuchMember ((← currentSession).spellingText name))
    | some (type, displacement) =>
      let loc := Location.span (← locationOf base) nameLoc
      build .member loc [type, category, displacement, flagWord arrow] [base]

/-! ## Unary operators -/

/-- Says whether constant operands are evaluated. -/
def folding : Check Bool := do
  match (← currentSession).options with
  | none => return true
  | some o => return o.features.folding

/-- The value of an operator on a constant operand: its type and its word. -/
def unaryConstant? (op : UnaryOp) (type : TypeId) (operand : Handle) :
    Check (Option (TypeId × Int)) :=
  do
  if !(← folding) || !(← isLiteral operand) then return none
  let t ← tree
  if TypeId.isFloating (← typeOf operand) then
    return (op.onFloat (← t.literalFloat operand)).map fun v => (TypeId.float, v.toWord)
  return (op.onInt (← t.payload operand)).map fun v => (type, v)

/-- Builds a unary expression that gives a value, or the constant it is. -/
def foldUnary (op : UnaryOp) (type : TypeId) (operand : Handle) (loc : Location) : Check Handle :=
  do
  match ← unaryConstant? op type operand with
  | some (type, word) =>
    discard operand
    buildConstant type word loc
  | none => buildExpr .unary type .value loc [op.number] [operand]

/-- A unary expression. -/
def unary (op : UnaryOp) (operand : Handle) (opLoc : Location) : Check Handle := do
  if ← isBroken operand then return .broken
  let types ← types
  let type ← typeOf operand
  let operandLoc ← locationOf operand
  let loc := if op.isPostfix then Location.span operandLoc opLoc else Location.span opLoc operandLoc
  match op with
  | .postIncrement | .postDecrement | .preIncrement | .preDecrement =>
    if !(← isPlace operand) then return ← refuse opLoc (.plain .incDecNotLvalue)
    if !TypeId.isArithmetic type then return ← refuse opLoc (.plain .notArithmetic)
    buildExpr .unary type .value loc [op.number] [operand]
  | .address =>
    if !(← isPlace operand) then return ← refuse opLoc (.plain .addressNotLvalue)
    let (s, pointer) := (← currentSession).pointerType type
    setSession s
    buildExpr .unary pointer .value loc [op.number] [operand]
  | .indirection =>
    if !types.isPointer type then return ← refuse opLoc (.plain .notPointer)
    buildExpr .unary (← types.element type) .place loc [op.number] [operand]
  | .minus | .absolute =>
    if !TypeId.isArithmetic type then return ← refuse opLoc (.plain .notArithmetic)
    foldUnary op type operand loc
  | .complement =>
    if !TypeId.isInteger type then return ← refuse opLoc (.plain .notInteger)
    foldUnary op TypeId.int operand loc
  | .logicalNot =>
    if !types.isScalar type then return ← refuse opLoc (.plain .notScalar)
    foldUnary op TypeId.int operand loc
  | .unlisted _ => return .broken

/-! ## Binary operators -/

/-- The value of an operator on constant operands: its type, its word, and whether an integer result
had to be cut to the size of an integer. -/
def binaryConstant? (op : BinaryOp) (type : TypeId) (l r : Handle) :
    Check (Option (TypeId × Int × Bool)) := do
  if !(← folding) || !(← isLiteral l) || !(← isLiteral r) then return none
  let t ← tree
  if TypeId.isFloating (← typeOf l) then
    let x ← t.literalFloat l
    let y ← t.literalFloat r
    if op.isComparison then
      return (op.compareFloats x y).map fun b => (TypeId.int, flagWord b, false)
    return (op.onFloats x y).map fun v => (TypeId.float, v.toWord, false)
  let x ← t.payload l
  let y ← t.payload r
  return (op.onInts x y).map fun v => if fitsInt v then (type, v, false) else (type, wrap32 v, true)

/-- Builds a binary expression, or the constant it is. -/
def foldBinary (op : BinaryOp) (type : TypeId) (l r : Handle) (loc : Location) : Check Handle := do
  match ← binaryConstant? op type l r with
  | some (type, word, cut) =>
    if cut then warn .overflow loc (.plain .foldOverflow)
    discard r
    discard l
    buildConstant type word loc
  | none => buildExpr .binary type .value loc [op.number] [l, r]

/-- An assignment. -/
def assignment (op : BinaryOp) (target value : Handle) (opLoc : Location) : Check Handle := do
  let targetType ← typeOf target
  let valueType ← typeOf value
  if (← types).isArray targetType then return ← refuse opLoc (.plain .arrayAssignment)
  if !(← isPlace target) then return ← refuse opLoc (.plain .notLvalue)
  if op != .assign then
    if op.isIntegerOnly && (!TypeId.isInteger targetType || !TypeId.isInteger valueType) then
      return ← refuse opLoc (.plain .notInteger)
    if !TypeId.isArithmetic targetType || !TypeId.isArithmetic valueType then
      return ← refuse opLoc (.plain .notArithmetic)
  let (value, problem) ← convert targetType value
  match problem with
  | some d => refuse (← locationOf value) d
  | none =>
    let loc := Location.span (← locationOf target) (← locationOf value)
    buildExpr .assignment targetType .value loc [op.number] [target, value]

/-- A comparison for equality: of arithmetic values, or of pointers of one type. -/
def equality (op : BinaryOp) (l r : Handle) (opLoc loc : Location) : Check Handle := do
  let lt ← typeOf l
  let rt ← typeOf r
  if TypeId.isFloating lt || TypeId.isFloating rt then
    warn .floatEquality opLoc (.plain .floatEquality)
  if TypeId.isArithmetic lt && TypeId.isArithmetic rt then
    let (l, r, _) ← unify l r
    return ← foldBinary op TypeId.int l r loc
  let types ← types
  if types.isPointer lt then
    if ← types.equal lt rt then
      return ← buildExpr .binary TypeId.int .value loc [op.number] [l, r]
  refuse opLoc (.mismatch (← typeName lt) (← typeName rt))

/-- A binary expression. -/
def binary (op : BinaryOp) (l r : Handle) (opLoc : Location) : Check Handle := do
  if ← anyBroken [l, r] then return .broken
  if op.isAssignment then return ← assignment op l r opLoc
  let types ← types
  let lt ← typeOf l
  let rt ← typeOf r
  let loc := Location.span (← locationOf l) (← locationOf r)
  if op == .comma then
    buildExpr .binary rt .value loc [op.number] [l, r]
  else if op.isIntegerOnly then
    if !TypeId.isInteger lt || !TypeId.isInteger rt then return ← refuse opLoc (.plain .notInteger)
    foldBinary op TypeId.int l r loc
  else if op.isLogical then
    if !types.isScalar lt || !types.isScalar rt then return ← refuse opLoc (.plain .notScalar)
    foldBinary op TypeId.int l r loc
  else if op.isEquality then
    equality op l r opLoc loc
  else do
    if !TypeId.isArithmetic lt || !TypeId.isArithmetic rt then
      return ← refuse opLoc (.plain .notArithmetic)
    let (l, r, type) ← unify l r
    foldBinary op (if op.isComparison then TypeId.int else type) l r loc

/-! ## Other expressions -/

/-- A conditional expression. -/
def ternary (cond l r : Handle) (opLoc : Location) : Check Handle := do
  if ← anyBroken [cond, l, r] then return .broken
  let types ← types
  if !types.isScalar (← typeOf cond) then
    return ← refuse (← locationOf cond) (.plain .conditionNotScalar)
  let lt ← typeOf l
  let rt ← typeOf r
  let finish (l r : Handle) (type : TypeId) : Check Handle := do
    buildExpr .ternary type .value (Location.span (← locationOf cond) (← locationOf r)) []
      [cond, l, r]
  if TypeId.isArithmetic lt && TypeId.isArithmetic rt then
    let (l, r, type) ← unify l r
    finish l r type
  else if ← types.equal lt rt then finish l r lt
  else refuse opLoc (.plain .incompatibleCondOperands)

/-- A list in braces. It gets its type when it is checked against the declared one. -/
def initializerList (elements : List Handle) (opening close : Location) : Check Handle := do
  if elements.isEmpty then return ← refuse opening (.plain .emptyInit)
  if ← anyBroken elements then return .broken
  buildExpr .initializer TypeId.undefined .value (Location.span opening close) [] elements

/-- The bound of an array that is left open. -/
def emptyBound (loc : Location) : Check Handle := buildExpr .emptyBound TypeId.int .value loc [] []

end BilingualC.Checker
