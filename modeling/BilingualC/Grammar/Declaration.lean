import BilingualC.Grammar.Expression

/-!
# Grammar of declarations

Type specifiers, structures, declarators with bounds and initializers, and parameters.
-/

namespace BilingualC.Grammar

/-- The type that an identifier token names. -/
def typeNamed? (tok : Token) : Parse (Option TypeId) := do
  if tok.kind == .identifier then Checker.namedType? tok.spelling else return none

/-- Says whether a declaration starts here. -/
def startsDeclaration : Parse Bool := do
  let tok ← current
  if tok.kind.isTypeSpecifier || tok.kind == .typedefWord then return true
  return (← typeNamed? tok).isSome

/-- Says whether the tokens from a place on are stars, a name and an opening parenthesis. -/
def functionFollows : List Token → Bool
  | tok :: rest =>
    if tok.kind == .star then functionFollows rest
    else tok.kind == .identifier && (rest.head?.map (·.kind)) == some .leftParen
  | [] => false

/-- Says whether a function is declared after a type specifier. -/
def isFunctionAhead : Parse Bool := do
  let r ← get
  return functionFollows (r.tokens.toList.drop r.pos)

/-- An array type of elements of a type. -/
def arrayOf (type : TypeId) : Parse TypeId := do
  let (s, id) := (← Checker.currentSession).arrayType type
  Checker.setSession s
  return id

/-- Stars after a type: pointers to it. -/
def stars : Nat → TypeId → Parse TypeId
  | 0, _ => throw .endless
  | depth + 1, type => within .stars do
    if !(← accept .star) then return type
    let (s, id) := (← Checker.currentSession).pointerType type
    Checker.setSession s
    stars depth id

/-! ## Structures -/

/-- Bounds after the name of a field; their values do not count. -/
def fieldBounds : Nat → TypeId → Parse TypeId
  | 0, _ => throw .endless
  | depth + 1, type => within .fieldBounds do
    if !(← accept .leftBracket) then return type
    if !(← check .rightBracket) then let _ ← conditionalExpression depth
    want .rightBracket "]"
    fieldBounds depth (← arrayOf type)

/-- The fields of one member declaration; a field without a name ends it. -/
def fieldList : Nat → TypeId → Parse (List Checker.WrittenField)
  | 0, _ => throw .endless
  | depth + 1, base => within .fieldList do
    let type ← stars depth base
    let name ← current
    if !(← expect .identifier "member name") then return []
    let type ← fieldBounds depth type
    let field : Checker.WrittenField := ⟨name.spelling, type, name.loc⟩
    if ← accept .comma then return field :: (← fieldList depth base) else return [field]

mutual

/-- A type specifier, if one starts here. -/
def typeSpecifier : Nat → Parse (Option TypeId)
  | 0 => throw .endless
  | depth + 1 => within .typeSpecifier do
    let tok ← current
    match tok.kind with
    | .intWord | .longWord => advance; return some TypeId.int
    | .charWord => advance; return some TypeId.char
    | .floatWord | .doubleWord => advance; return some TypeId.float
    | .voidWord => advance; return some TypeId.void
    | .structWord =>
      advance
      return some (← structureSpecifier depth tok.loc)
    | _ =>
      match ← typeNamed? tok with
      | none => return none
      | some type => advance; return some type

/-- A structure after its keyword: a tag, fields in braces or both. -/
def structureSpecifier : Nat → Location → Parse TypeId
  | 0, _ => throw .endless
  | depth + 1, start => within .structureSpecifier do
    let tok ← current
    let tagged ← accept .identifier
    let tag := if tagged then tok.spelling else 0
    if !(← accept .leftBrace) then
      if tag != 0 then return ← Checker.structureOf tag tok.loc
      reportMissing "\x7b"
      return TypeId.undefined
    let fields ← members depth
    want .rightBrace "\x7d"
    Checker.declareStructure tag fields (← spanFrom start)

/-- The member declarations of a structure. -/
def members : Nat → Parse (List Checker.WrittenField)
  | 0 => throw .endless
  | depth + 1 => within .members do
    if (← check .rightBrace) || (← check .endOfInput) then return []
    match ← typeSpecifier depth with
    | none =>
      reportMissing "member declaration"
      synchronize
      members depth
    | some base =>
      let fields ← fieldList depth base
      want .semicolon ";"
      synchronize
      return fields ++ (← members depth)

end

/-! ## Variables -/

/-- The bounds after the name of a variable and the type that they make. -/
def bounds : Nat → TypeId → Parse (List Handle × TypeId)
  | 0, _ => throw .endless
  | depth + 1, type => within .bounds do
    let opening := (← current).loc
    if !(← accept .leftBracket) then return ([], type)
    let bound ← if ← check .rightBracket
      then Checker.emptyBound (Location.span opening (← current).loc)
      else conditionalExpression depth
    want .rightBracket "]"
    let (rest, type) ← bounds depth (← arrayOf type)
    return (bound :: rest, type)

/-- A variable with its bounds and its initializer. -/
def declarator (depth : Nat) (type : TypeId) : Parse Handle := within .declarator do
  let name ← current
  if !(← expect .identifier "identifier") then return .broken
  let (bounds, type) ← bounds depth type
  let id ← Checker.declareVariable type name.spelling name.loc
  let hasInit ← accept .assign
  let init ← if hasInit then initializer depth else pure .broken
  Checker.variableDeclaration id bounds init hasInit (← spanFrom name.loc)

/-- One or more variables of a base type. -/
def declaratorList : Nat → TypeId → Parse (List Handle)
  | 0, _ => throw .endless
  | depth + 1, base => within .declaratorList do
    let first ← declarator depth (← stars depth base)
    if ← accept .comma then return first :: (← declaratorList depth base) else return [first]

/-- The rest of a declaration after its type specifier. -/
def restOfDeclaration (depth : Nat) (base : TypeId) (start : Location) : Parse Handle :=
  within .restOfDeclaration do
  let parts ← if ← check .semicolon then pure [] else declaratorList depth base
  want .semicolon ";"
  Checker.declaration parts (← spanFrom start)

/-- A type definition after its keyword. -/
def restOfTypedef (depth : Nat) (start : Location) : Parse Handle := within .restOfTypedef do
  match ← typeSpecifier depth with
  | none =>
    reportMissing "type"
    return .broken
  | some base =>
    let type ← stars depth base
    let name ← current
    if !(← expect .identifier "type name") then return .broken
    want .semicolon ";"
    let part ← Checker.typeDefinition type name.spelling name.loc
    Checker.declaration [part] (← spanFrom start)

/-- A declaration of variables or of a type name, with its semicolon. -/
def declaration (depth : Nat) : Parse Handle := within .declaration do
  let start := (← current).loc
  if ← accept .typedefWord then return ← restOfTypedef depth start
  match ← typeSpecifier depth with
  | none =>
    reportMissing "type"
    return .broken
  | some base => restOfDeclaration depth base start

/-! ## Parameters -/

/-- Empty bounds after a parameter. -/
def parameterBounds : Nat → TypeId → Parse TypeId
  | 0, _ => throw .endless
  | depth + 1, type => within .parameterBounds do
    if !(← accept .leftBracket) then return type
    want .rightBracket "]"
    parameterBounds depth (← arrayOf type)

/-- One or more parameters. -/
def parameterList : Nat → Parse (List Checker.Parameter)
  | 0 => throw .endless
  | depth + 1 => within .parameterList do
    let start := (← current).loc
    match ← typeSpecifier depth with
    | none =>
      reportMissing "parameter type"
      return []
    | some base =>
      let type ← stars depth base
      let tok ← current
      let named ← accept .identifier
      let type ← parameterBounds depth type
      let parameter : Checker.Parameter :=
        if named then ⟨tok.spelling, type, tok.loc⟩ else ⟨0, type, start⟩
      if ← accept .comma then return parameter :: (← parameterList depth) else return [parameter]

/-- The parameters of a function; a lone void means none. -/
def parameters (depth : Nat) : Parse (List Checker.Parameter) := within .parameters do
  if ← check .rightParen then return []
  if (← check .voidWord) && (← peek).kind == .rightParen then
    advance
    return []
  parameterList depth

end BilingualC.Grammar
