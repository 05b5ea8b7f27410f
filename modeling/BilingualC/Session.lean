import BilingualC.Arena
import BilingualC.Journal
import BilingualC.Lexeme
import BilingualC.Spelling
import BilingualC.TypeTable

/-!
# Sessions

A session is one compilation: the node arena, the journal and the tables of spellings, types,
identifiers, functions and strings.

Identifiers are visible by scopes. Entering a block remembers where its declarations start; leaving
it gives every spelling back the declaration it had before, and frees the frame cells of the block.
Variables of a function live in its local frame, all others in the global frame.
-/

namespace BilingualC

/-! ## Identifiers -/

/-- What an identifier names. -/
inductive IdentKind where
  | variable
  | function
  | builtin
  | typeName
  | label
  | unlisted (number : Int)
deriving DecidableEq, Repr, Inhabited

namespace IdentKind

def number : IdentKind → Int
  | .variable => 0
  | .function => 1
  | .builtin => 2
  | .typeName => 3
  | .label => 4
  | .unlisted n => n

def ofNumber (n : Int) : IdentKind :=
  if n == 0 then .variable
  else if n == 1 then .function
  else if n == 2 then .builtin
  else if n == 3 then .typeName
  else if n == 4 then .label
  else .unlisted n

end IdentKind

/-- A declaration. -/
structure Identifier where
  /-- The declaration of the same spelling that was visible before, or zero. -/
  previous : Int
  spelling : Int
  type : TypeId
  kind : IdentKind
  /-- The frame displacement of a variable, the number of a function or of a builtin, or the address
  of a label. -/
  displacement : Int
  defined : Bool
deriving DecidableEq, Repr

/-- The entry for what is not declared. -/
def Identifier.none : Identifier := ⟨0, 0, TypeId.undefined, .variable, 0, false⟩

instance : Inhabited Identifier := ⟨Identifier.none⟩

/-- Why a declaration is refused. -/
inductive DeclarationError where
  | redeclared
  | mainRedefined
deriving DecidableEq, Repr

def DeclarationError.message : DeclarationError → String
  | .redeclared => "identifier is already declared in this scope"
  | .mainRedefined => "main is already defined"

/-- What is remembered when a block is entered. -/
structure Scope where
  start : Int
  displacement : Int
deriving DecidableEq, Repr, Inhabited

/-! ## The session -/

/-- One compilation. -/
structure Session where
  tree : Arena
  journal : Journal
  spellings : Spellings
  types : TypeTable
  /-- The declarations; the one with number zero is not one. -/
  identifiers : Array Identifier
  /-- The first declaration of the innermost open block. -/
  scopeStart : Int
  /-- The addresses of the functions by number; zero while unknown. -/
  functions : Array Int
  strings : Array String
  /-- Says whether variables go to a local frame. -/
  isLocal : Bool
  displacement : Int
  maxDisplacement : Int
  globalDisplacement : Int
  /-- The entry point, or zero. -/
  main : Int

namespace Session

/-- The first displacement of a frame; the cells below it belong to the machine. -/
def frameStart : Int := 3

/-- A session whose tree has a root of the given type. -/
def new (rootType : Int) (journal : Journal) : Session where
  tree := .new rootType
  journal
  spellings := .empty
  types := .empty
  identifiers := #[.none]
  scopeStart := 1
  functions := #[]
  strings := #[]
  isLocal := false
  displacement := 0
  maxDisplacement := 0
  globalDisplacement := frameStart
  main := 0

def options (s : Session) : Option Options := s.journal.options

/-! ## Reports -/

def error (s : Session) (loc : Location) (d : Diagnostic) : Guarded Session := do
  return { s with journal := ← s.journal.error loc d }

def warn (s : Session) (w : Warning) (loc : Location) (d : Diagnostic) : Guarded Session := do
  return { s with journal := ← s.journal.warn (some w) loc d }

/-! ## Spellings -/

/-- The number of a spelling. -/
def intern (s : Session) (text : String) : Session × Int :=
  let (spellings, id) := s.spellings.intern text
  ({ s with spellings }, id)

def spellingText (s : Session) (id : Int) : String := s.spellings.text id

/-- The visible declaration of a spelling, or zero. -/
def lookup (s : Session) (id : Int) : Int := s.spellings.declaration id

def setDeclaration (s : Session) (id declaration : Int) : Guarded Session := do
  return { s with spellings := ← s.spellings.setDeclaration id declaration }

/-- Says whether a spelling names the entry point. -/
def isEntryName (s : Session) (id : Int) : Bool := Spellings.isEntryName (s.spellingText id)

/-! ## Types -/

def pointerType (s : Session) (element : TypeId) : Session × TypeId :=
  let (types, id) := s.types.pointer element
  ({ s with types }, id)

def arrayType (s : Session) (element : TypeId) : Session × TypeId :=
  let (types, id) := s.types.array element
  ({ s with types }, id)

def functionType (s : Session) (result : TypeId) (parameters : List TypeId) : Session × TypeId :=
  let (types, id) := s.types.function result parameters
  ({ s with types }, id)

def structType (s : Session) (fields : List Field) : Guarded (Session × TypeId) := do
  let (types, id) ← s.types.struct fields
  return ({ s with types }, id)

/-- Spells a type for messages. -/
def typeName (s : Session) (id : TypeId) : Guarded String := s.types.describe s.spellingText id

/-! ## Identifiers -/

/-- The declaration with a given number. -/
def identifier (s : Session) (id : Int) : Identifier :=
  if 0 < id && id < s.identifiers.size then s.identifiers.getD id.toNat .none else .none

/-- The number of declarations. -/
def identifierCount (s : Session) : Nat := s.identifiers.size - 1

def identifierText (s : Session) (id : Int) : String := s.spellingText (s.identifier id).spelling

/-- Changes a declaration. -/
def changeIdentifier (s : Session) (id : Int) (change : Identifier → Identifier) :
    Guarded Session :=
  do
  let entry ← cellAt s.identifiers id
  return { s with identifiers := ← setCellAt s.identifiers id (change entry) }

def setIdentifierType (s : Session) (id : Int) (type : TypeId) : Guarded Session :=
  s.changeIdentifier id fun entry => { entry with type }

def setDisplacement (s : Session) (id displacement : Int) : Guarded Session :=
  s.changeIdentifier id fun entry => { entry with displacement }

def setDefined (s : Session) (id : Int) : Guarded Session :=
  s.changeIdentifier id fun entry => { entry with defined := true }

/-- Takes cells of the current frame and gives the displacement of the first. Global cells have
negative displacements. -/
def allocate (s : Session) (size : Int) : Session × Int :=
  if s.isLocal then
    let top := wrap64 (s.displacement + size)
    ({ s with displacement := top, maxDisplacement := max s.maxDisplacement top }, s.displacement)
  else
    ({ s with globalDisplacement := wrap64 (s.globalDisplacement + size) },
      wrap64 (-s.globalDisplacement))

/-- Gives a new declaration its place: cells of the frame for a variable, the next number for a
function. -/
def place (s : Session) (entry : Identifier) (id : Int) : Guarded (Session × Identifier) :=
  match entry.kind with
  | .variable => do
    let (s, displacement) := s.allocate (← s.types.sizeOf entry.type)
    return (s, { entry with displacement })
  | .function =>
    let main := if s.isEntryName entry.spelling then id else s.main
    pure ({ s with functions := s.functions.push 0, main },
      { entry with displacement := s.functions.size })
  | _ => pure (s, entry)

/-- Declares an identifier in the innermost block. A label is stored without becoming visible. -/
def declare (s : Session) (spelling : Int) (kind : IdentKind) (type : TypeId) :
    Guarded (Except DeclarationError (Session × Int)) := do
  let id : Int := s.identifiers.size
  if kind == .label then
    let entry : Identifier := ⟨0, spelling, type, kind, 0, false⟩
    return .ok ({ s with identifiers := s.identifiers.push entry }, id)
  let previous := (← cellAt s.spellings.entries spelling).declaration
  if kind == .function && s.isEntryName spelling && s.main != 0 then return .error .mainRedefined
  if previous != 0 && s.scopeStart ≤ previous then return .error .redeclared
  let (s, entry) ← s.place ⟨previous, spelling, type, kind, 0, false⟩ id
  let s := { s with identifiers := s.identifiers.push entry }
  return .ok (← s.setDeclaration spelling id, id)

/-- Says whether a declaration belongs to the innermost block. -/
def inCurrentScope (s : Session) (id : Int) : Bool := id != 0 && s.scopeStart ≤ id

/-! ## Scopes -/

/-- Opens a block. -/
def enterBlock (s : Session) : Session × Scope :=
  ({ s with scopeStart := s.identifiers.size }, ⟨s.scopeStart, s.displacement⟩)

/-- Gives the spellings of some declarations, last declaration first, back what they stood for. -/
def hideAll (s : Session) : List Identifier → Guarded Session
  | [] => pure s
  | entry :: rest => do
    let s ← if entry.kind == .label then pure s else s.setDeclaration entry.spelling entry.previous
    s.hideAll rest

/-- Closes a block: its declarations are no longer visible and its cells are free. -/
def exitBlock (s : Session) (scope : Scope) : Guarded Session := do
  let s ← s.hideAll (s.identifiers.toList.drop s.scopeStart.toNat).reverse
  return { s with scopeStart := scope.start, displacement := scope.displacement }

/-- Opens the scope of a function with a fresh local frame. -/
def enterFunction (s : Session) : Session × Scope :=
  let (s, scope) := s.enterBlock
  ({ s with isLocal := true, displacement := frameStart, maxDisplacement := frameStart }, scope)

/-- Closes the scope of a function and gives the size of its frame. -/
def exitFunction (s : Session) (scope : Scope) : Guarded (Session × Int) := do
  let size := s.maxDisplacement
  let s ← s.exitBlock scope
  return ({ s with isLocal := false }, size)

/-! ## Functions and strings -/

/-- The address of a function, or zero. -/
def functionAddress (s : Session) (number : Int) : Int :=
  if inTable s.functions.size number then s.functions.getD number.toNat 0 else 0

def setFunctionAddress (s : Session) (number address : Int) : Guarded Session := do
  return { s with functions := ← setCellAt s.functions number address }

/-- Stores a string and gives its place. -/
def addString (s : Session) (text : String) : Session × Int :=
  ({ s with strings := s.strings.push text }, s.strings.size)

def stringAt (s : Session) (index : Int) : String :=
  if inTable s.strings.size index then s.strings.getD index.toNat "" else ""

/-- The declarations as words: previous declaration, spelling, type and displacement of each. -/
def identifierTable (s : Session) : List Int :=
  (s.identifiers.toList.drop 1).flatMap fun e => [e.previous, e.spelling, e.type, e.displacement]

/-! ## Tokens -/

/-- Takes in the notes about a lexeme. -/
def takeNotes (s : Session) : List Note → Guarded Session
  | [] => pure s
  | note :: rest => do
    let s ← match note.warning with
      | none => s.error note.loc note.diagnostic
      | some w => s.warn w note.loc note.diagnostic
    s.takeNotes rest

/-- The token of a word: a keyword, or an identifier with its spelling stored. -/
def wordToken (s : Session) (features : Features) (loc : Location) (text : String) :
    Session × Token :=
  match Keyword.find? features.englishKeywords features.russianKeywords text with
  | some kind => (s, .bare kind loc)
  | none =>
    let (s, spelling) := s.intern text
    (s, { Token.bare .identifier loc with text, spelling })

/-- The token of a lexeme. -/
def lexemeToken (s : Session) (features : Features) (loc : Location) : Lexeme → Session × Token
  | .endOfInput => (s, .bare .endOfInput loc)
  | .punctuator kind => (s, .bare kind loc)
  | .word text => s.wordToken features loc text
  | .integer text value => (s, { Token.bare .intLiteral loc with text, intValue := value })
  | .floating text value => (s, { Token.bare .floatLiteral loc with text, floatValue := value })
  | .character none => (s, .bare .charLiteral loc)
  | .character (some c) =>
    (s, { Token.bare .charLiteral loc with text := String.singleton c, intValue := c.toNat })
  | .text value =>
    let (s, stringIndex) := s.addString value
    (s, { Token.bare .stringLiteral loc with text := value, stringIndex })

/-- Takes in a scanned lexeme: its notes are reported and its token is made. -/
def takeScan (s : Session) (features : Features) (scan : Scan) : Guarded (Session × Token) := do
  let s ← s.takeNotes scan.notes
  return s.lexemeToken features ⟨scan.start, scan.stop⟩ scan.lexeme

/-- Takes in scanned lexemes in order. -/
def takeScans (s : Session) (features : Features) : List Scan → Guarded (Session × List Token)
  | [] => pure (s, [])
  | scan :: rest => do
    let (s, token) ← s.takeScan features scan
    let (s, tokens) ← s.takeScans features rest
    return (s, token :: tokens)

/-- Adds a source file and gives its tokens; the last one is the end of the input. -/
def tokenize (s : Session) (features : Features) (name : String) (content : List Char) :
    Guarded (Session × List Token) :=
  let base := s.journal.nextBase
  let s := { s with journal := s.journal.addFile name content.toArray }
  s.takeScans features (Lexeme.scanAll features ⟨base, content⟩)

end Session

end BilingualC
