import BilingualC.Checker.Expression

/-!
# Rules for declarations

Variables, types, structures and functions, and the program as a whole.
-/

namespace BilingualC.Checker

/-! ## Variables -/

/-- The type of the innermost elements of an array, at most so many levels deep. -/
def innermost (types : TypeTable) : Nat → TypeId → Guarded TypeId
  | 0, _ => throw .endless
  | depth + 1, id => do
    if types.isArray id then innermost types depth (← types.element id) else return id

/-- Declares a variable and gives its declaration, or zero after a report. -/
def declareVariable (type : TypeId) (spelling : Int) (loc : Location) : Check Int := do
  let types ← types
  if TypeId.isVoid (← innermost types (types.cells.size + 1) type) then
    report loc (.plain .voidVariable)
    return 0
  match ← declare spelling .variable type with
  | .ok id => return id
  | .error e =>
    reportDeclaration e spelling loc
    return 0

/-- Checks the bounds of an array: whether all are right, and whether one is left open. -/
def checkBounds : List Handle → Check (Bool × Bool)
  | [] => return (true, false)
  | bound :: rest => do
    let broken ← isBroken bound
    let left := !broken && (← kindOf bound) == .emptyBound
    let wrong := !broken && !left && !TypeId.isInteger (← typeOf bound)
    if wrong then report (← locationOf bound) (.plain .boundNotInteger)
    let (ok, isOpen) ← checkBounds rest
    return (ok && !broken && !wrong, isOpen || left)

/-- Checks the initializer of a variable: the initializer after conversion if it is right. An array
is initialized by a list or a string only. -/
def checkInitializer (type : TypeId) (init : Handle) : Check (Option Handle) := do
  if ← isBroken init then return none
  let kind ← kindOf init
  if (← types).isArray type && kind != .initializer && kind != .string then
    report (← locationOf init) (.plain .wrongInit)
    return none
  let (init, problem) ← convert type init
  match problem with
  | some d =>
    report (← locationOf init) d
    return none
  | none => return some init

/-- The declaration of a variable with its bounds and its initializer. -/
def variableDeclaration (id : Int) (bounds : List Handle) (init : Handle) (hasInit : Bool)
    (loc : Location) : Check Handle :=
  do
  if id == 0 then return .broken
  let (boundsOk, isOpen) ← checkBounds bounds
  let missing := isOpen && !hasInit
  if missing then report loc (.plain .emptyBoundNoInit)
  let type := ((← currentSession).identifier id).type
  let init ← if hasInit then checkInitializer type init else pure (some init)
  match init with
  | none => return .broken
  | some init =>
    if !boundsOk || missing then return .broken
    build .variable loc [id, bounds.length, flagWord hasInit] (bounds ++ [init])

/-! ## Types -/

/-- Gives a type a name. -/
def typeDefinition (type : TypeId) (spelling : Int) (loc : Location) : Check Handle := do
  match ← declare spelling .typeName type with
  | .ok id => build .typeDefinition loc [id] []
  | .error e =>
    reportDeclaration e spelling loc
    return .broken

/-- A field of a structure as it is written. -/
structure WrittenField where
  name : Int
  type : TypeId
  loc : Location
deriving Repr

/-- The spelling under which the structure of a tag is declared. -/
def tagSpelling (tag : Int) : Check Int := do
  let s ← currentSession
  let (s, spelling) := s.intern ("struct " ++ s.spellingText tag)
  setSession s
  return spelling

/-- What is wrong with a field after fields with the given names. -/
def fieldProblem (seen : List Int) (f : WrittenField) : Check (Option Diagnostic) := do
  let types ← types
  if types.isArray f.type then return some (.plain .arrayMember)
  if TypeId.isVoid f.type then return some (.plain .voidVariable)
  if seen.contains f.name then
    return some (.named .redeclared ((← currentSession).spellingText f.name))
  return none

/-- Checks fields and says whether all are right; every problem is reported. -/
def checkFields (seen : List Int) : List WrittenField → Check Bool
  | [] => return true
  | f :: rest => do
    let problem ← fieldProblem seen f
    if let some d := problem then report f.loc d
    let ok ← checkFields (f.name :: seen) rest
    return ok && problem.isNone

/-- Declares a structure and, if it has a tag, the tag. -/
def declareStructure (tag : Int) (fields : List WrittenField) (loc : Location) : Check TypeId := do
  if !(← checkFields [] fields) then return TypeId.undefined
  let (s, type) ← (← currentSession).structType (fields.map fun f => ⟨f.type, f.name⟩)
  setSession s
  if tag != 0 then
    match ← declare (← tagSpelling tag) .typeName type with
    | .ok _ => pure ()
    | .error e => reportDeclaration e tag loc
  return type

/-- The structure that a tag was declared for. -/
def structureOf (tag : Int) (loc : Location) : Check TypeId := do
  match ← namedType? (← tagSpelling tag) with
  | some type => return type
  | none =>
    report loc (.named .unknownStruct ((← currentSession).spellingText tag))
    return TypeId.undefined

def declaration (parts : List Handle) (loc : Location) : Check Handle :=
  build .declaration loc [] parts

/-! ## Functions -/

/-- A parameter as it is written; an unnamed one has the spelling zero. -/
structure Parameter where
  spelling : Int
  type : TypeId
  loc : Location
deriving Repr

/-- Declares a function, or finds its earlier declaration, which has to have the same type. -/
def declareFunction (spelling : Int) (type : TypeId) (loc : Location) : Check Int := do
  let s ← currentSession
  let (previous, entry) ← lookup spelling
  if previous != 0 && entry.kind == .function && s.inCurrentScope previous then
    if ← s.types.equal entry.type type then return previous
    report loc (.named .prototypeMismatch (s.spellingText spelling))
    return 0
  match ← declare spelling .function type with
  | .ok id =>
    modify fun c => { c with functionPlaces := (id, loc) :: c.functionPlaces }
    return id
  | .error e =>
    reportDeclaration e spelling loc
    return 0

/-- Declares parameters. -/
def declareParameters : List Parameter → Check Unit
  | [] => pure ()
  | p :: rest => do
    if p.spelling == 0 then report p.loc (.expected "parameter name")
    else ignore (← declareVariable p.type p.spelling p.loc)
    declareParameters rest
where
  /-- A parameter that cannot be declared was reported already. -/
  ignore (_ : Int) : Check Unit := pure ()

/-- Opens the scope of a function body and declares its parameters. -/
def beginFunction (id : Int) (parameters : List Parameter) (loc : Location) : Check Scope := do
  if (← get).function != 0 then report loc (.plain .nestedFunction)
  let entry := (← currentSession).identifier id
  if id != 0 && entry.defined then
    report loc (.named .redeclared ((← currentSession).identifierText id))
  let (s, scope) := (← currentSession).enterFunction
  setSession s
  let resultType ← s.types.result entry.type
  modify fun c => { c with function := id, resultType, labels := some #[] }
  declareParameters parameters
  return scope

/-- Reports the labels that were mentioned but never placed. -/
def reportLabels : List Label → Check Unit
  | [] => pure ()
  | l :: rest => do
    if !l.defined then report l.mention (.named .labelUndefined l.name)
    reportLabels rest

/-- Closes a function body. -/
def functionDefinition (id : Int) (scope : Scope) (body : Handle) (loc : Location) : Check Handle :=
  do
  reportLabels (((← get).labels.getD #[]).toList)
  let (s, frame) ← (← currentSession).exitFunction scope
  setSession s
  modify fun c => { c with function := 0, labels := none }
  if id == 0 || (← isBroken body) || (s.identifier id).defined then return .broken
  setSession (← s.setDefined id)
  build .functionDefinition loc [id, frame] [body]

/-! ## The program -/

/-- Reports the functions that were declared but never defined, from a declaration on. -/
def reportUndefined : List (Identifier × Nat) → Check Unit
  | [] => pure ()
  | (entry, id) :: rest => do
    if entry.kind == .function && !entry.defined then
      let loc := ((← get).functionPlaces.lookup (id : Int)).getD .none
      report loc (.named .functionNotDefined ((← currentSession).spellingText entry.spelling))
    reportUndefined rest

/-- Finishes the program: it needs an entry point, and every declared function a definition. -/
def unit (stop : Location) : Check Handle := do
  if (← currentSession).main == 0 then report stop (.plain .noMain)
  reportUndefined ((← currentSession).identifiers.toList.zipIdx.drop 1)
  return (← tree).root

end BilingualC.Checker
