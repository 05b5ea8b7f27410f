import BilingualC.Node
import BilingualC.Session

/-!
# Checking programs

The checker applies the rules of the language and builds the nodes of the program tree. Every rule
takes operands that are already built. It gives the new node, or it reports one diagnostic and gives
a broken node; a broken operand is passed on without a second report.

Operands are built under the root of the tree and move under their node when it is built.
-/

namespace BilingualC

/-- A label of the function that is being checked. -/
structure Label where
  identifier : Int
  spelling : Int
  name : String
  defined : Bool
  /-- Where the label was first mentioned. -/
  mention : Location
deriving Repr

/-- The state of the checker. -/
structure Checker where
  session : Session
  /-- The type of string literals. -/
  stringType : TypeId
  /-- Where functions were first declared. -/
  functionPlaces : List (Int × Location)
  /-- The function that is being checked, or zero. -/
  function : Int
  /-- The type that a return statement has to give. -/
  resultType : TypeId
  /-- The labels of the function; there are none outside of functions. -/
  labels : Option (Array Label)
  loops : Int
  switches : Int

/-- A step of the checker. -/
abbrev Check (α : Type) := StateT Checker (Except Fault) α

namespace Checker

/-! ## Access to the session -/

def currentSession : Check Session := return (← get).session
def tree : Check Arena := return (← get).session.tree
def types : Check TypeTable := return (← get).session.types
def setSession (s : Session) : Check Unit := modify fun c => { c with session := s }
def setTree (t : Arena) : Check Unit :=
  modify fun c => { c with session := { c.session with tree := t } }

/-- Takes the tree out of the session to change it; `setTree` puts the changed one back. -/
def takeTree : Check Arena :=
  modifyGet fun c => (c.session.tree, { c with session := { c.session with tree := default } })

def report (loc : Location) (d : Diagnostic) : Check Unit := do
  setSession (← (← currentSession).error loc d)

def warn (w : Warning) (loc : Location) (d : Diagnostic) : Check Unit := do
  setSession (← (← currentSession).warn w loc d)

/-- Reports an error and gives a broken node. -/
def refuse (loc : Location) (d : Diagnostic) : Check Handle := do
  report loc d
  return .broken

/-! ## Access to nodes -/

def isBroken (n : Handle) : Check Bool := return (← tree).isBroken n
def kindOf (n : Handle) : Check Kind := return (← tree).kind n
def typeOf (n : Handle) : Check TypeId := do (← tree).exprType n
def isPlace (n : Handle) : Check Bool := do (← tree).isPlace n
def payloadOf (n : Handle) : Check Int := do (← tree).payload n
def locationOf (n : Handle) : Check Location := do (← tree).location n
def childOf (n : Handle) (i : Int) : Check Handle := do (← tree).child n i
def typeName (id : TypeId) : Check String := do (← currentSession).typeName id

/-- Says whether one of some nodes is broken. -/
def anyBroken (nodes : List Handle) : Check Bool := do
  let t ← tree
  return nodes.any t.isBroken

def isLiteral (n : Handle) : Check Bool := return (← kindOf n) == .literal

/-- Moves nodes under another one; broken nodes and refused moves are passed over. -/
def adoptAll (above : Handle) : List Handle → Check Unit
  | [] => pure ()
  | n :: rest => do
    if !(← isBroken n) then
      let (t, _) ← (← takeTree).adopt above n
      setTree t
    adoptAll above rest

/-- Builds a node and moves its children under it. -/
def build (kind : Kind) (loc : Location) (args : List Int) (children : List Handle) :
    Check Handle :=
  do
  let t ← takeTree
  let (t, n) ← t.addNode t.root kind loc args
  setTree t
  adoptAll n children
  return n

/-- Builds an expression and moves its operands under it. -/
def buildExpr (kind : Kind) (type : TypeId) (category : Category) (loc : Location) (args : List Int)
    (operands : List Handle) : Check Handle :=
  build kind loc (type :: category.word :: args) operands

/-- Builds a constant. -/
def buildConstant (type : TypeId) (value : Int) (loc : Location) : Check Handle :=
  buildExpr .literal type .value loc [value] []

/-- Removes a node; a refused removal is passed over. -/
def discard (n : Handle) : Check Unit := do
  match ← (← tree).remove n with
  | .ok t => setTree t
  | .error _ => pure ()

/-! ## Conversions -/

/-- Converts an expression to floating: a constant by its value, anything else by a cast around
it. -/
def cast (type : TypeId) (n : Handle) : Check Handle := do
  let source ← typeOf n
  let t ← tree
  if ← isLiteral n then
    let t ← t.putArg n 2 (Binary64.ofInt (← t.payload n)).toWord
    setTree (← t.putArg n 0 type)
    return n
  let loc ← t.location n
  let (t, c) ← t.insert n Kind.cast.number 5
  let t ← t.putArg c 0 type
  let t ← t.putArg c 1 Category.value.word
  let t ← t.putArg c 2 source
  setTree (← t.setLocation c loc)
  return c

/-- Brings two arithmetic operands to a common type: floating if one of them is. -/
def unify (l r : Handle) : Check (Handle × Handle × TypeId) := do
  let lf := TypeId.isFloating (← typeOf l)
  let rf := TypeId.isFloating (← typeOf r)
  if lf && !rf then return (l, ← cast TypeId.float r, TypeId.float)
  if rf && !lf then return (← cast TypeId.float l, r, TypeId.float)
  return (l, r, if lf then TypeId.float else TypeId.int)

/-- Checks that an expression that is no list can be stored in a place of a type, converting an
integer to floating where needed. -/
def convertValue (want : TypeId) (value : Handle) : Check (Handle × Option Diagnostic) := do
  let got ← typeOf value
  if TypeId.isFloating want && TypeId.isInteger got then return (← cast want value, none)
  if TypeId.isInteger want && TypeId.isFloating got then return (value, some (.plain .floatToInt))
  if TypeId.isInteger want && TypeId.isInteger got then return (value, none)
  if ← (← types).equal want got then return (value, none)
  return (value, some (.mismatch (← typeName want) (← typeName got)))

/-- Checks that an initializer can be stored in a place of a type, at most so many lists deep. A
list matches a structure field by field and an array element by element, and takes on the type that
it matches. -/
def convertAt : Nat → TypeId → Handle → Check (Handle × Option Diagnostic)
  | 0, _, _ => throw .endless
  | depth + 1, want, value => do
    if (← kindOf value) != .initializer then return ← convertValue want value
    let types ← types
    let count := (← tree).amount value
    let finish (problem : Option Diagnostic) : Check (Handle × Option Diagnostic) := do
      if problem.isNone then setTree (← (← tree).putArg value 0 want)
      return (value, problem)
    if types.isStructure want then
      let fields ← types.fields want
      if (fields.length : Int) != count then
        return (value, some (.counted .wrongInitCount fields.length count))
      finish (← convertElements depth value 0 (fields.map (·.type)))
    else if types.isArray want then
      finish (← convertElements depth value 0 (List.replicate count.toNat (← types.element want)))
    else return (value, some (.plain .wrongInit))
where
  /-- Checks the elements of a list from a number on against types; the first problem ends the
  check. -/
  convertElements (depth : Nat) (value : Handle) : Int → List TypeId → Check (Option Diagnostic)
    | _, [] => return none
    | i, type :: rest => do
      match (← convertAt depth type (← childOf value i)).2 with
      | some d => return some d
      | none => convertElements depth value (i + 1) rest

/-- Checks that an initializer can be stored in a place of a type. -/
def convert (want : TypeId) (value : Handle) : Check (Handle × Option Diagnostic) := do
  convertAt (← tree).walkBound want value

/-! ## Declarations -/

/-- Reports why a declaration is refused. -/
def reportDeclaration (e : DeclarationError) (spelling : Int) (loc : Location) : Check Unit := do
  match e with
  | .mainRedefined => report loc (.plain .mainRedefined)
  | .redeclared => report loc (.named .redeclared ((← currentSession).spellingText spelling))

/-- Declares an identifier without a report. -/
def declare (spelling : Int) (kind : IdentKind) (type : TypeId) :
    Check (Except DeclarationError Int) :=
  do
  match ← (← currentSession).declare spelling kind type with
  | .ok (s, id) => setSession s; return .ok id
  | .error e => return .error e

/-- The visible declaration of a spelling. -/
def lookup (spelling : Int) : Check (Int × Identifier) := do
  let s ← currentSession
  let id := s.lookup spelling
  return (id, s.identifier id)

/-- The library function that a spelling currently stands for. -/
def builtin? (spelling : Int) : Check (Option Builtin) := do
  let (id, entry) ← lookup spelling
  return if id == 0 || entry.kind != .builtin then none else some (.ofNumber entry.displacement)

/-- The type that a spelling currently names. -/
def namedType? (spelling : Int) : Check (Option TypeId) := do
  let (id, entry) ← lookup spelling
  return if id == 0 || entry.kind != .typeName then none else some entry.type

/-! ## Starting -/

/-- Declares a spelling of a library function unless it is taken. -/
def declareBuiltin (s : Session) (b : Builtin) (text : String) : Guarded Session := do
  let (s, spelling) := s.intern text
  if s.lookup spelling != 0 then return s
  match ← s.declare spelling .builtin TypeId.undefined with
  | .ok (s, id) => s.setDisplacement id b.number
  | .error _ => return s

/-- The spellings of the library functions: both names of each, in small and in capital letters. -/
def builtinSpellings : List (Builtin × String) :=
  Builtin.all.flatMap fun b =>
    match b.names? with
    | none => []
    | some (english, russian) =>
      [(b, english), (b, Text.upper english), (b, russian), (b, Text.upper russian)]

/-- Declares all library functions. -/
def declareBuiltins (s : Session) : List (Builtin × String) → Guarded Session
  | [] => pure s
  | (b, text) :: rest => do declareBuiltins (← declareBuiltin s b text) rest

/-- A checker for a session: the library functions are declared in the outermost scope, and the
scope of the program is opened. -/
def new (s : Session) : Guarded Checker := do
  let (s, stringType) := s.arrayType TypeId.char
  let s ← declareBuiltins s builtinSpellings
  return ⟨s.enterBlock.1, stringType, [], 0, TypeId.undefined, none, 0, 0⟩

end Checker

end BilingualC
