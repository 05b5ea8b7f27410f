import BilingualC.Checker.Declaration
import BilingualC.Checker.Library
import BilingualC.Checker.Statement

/-!
# Reading tokens

The reader walks through the tokens of a program with one token of look-ahead. After a syntax error
it recovers: no further syntax errors are reported until it has found the end of the statement.

Grammar rules call each other to any depth. Each of them takes a bound on the depth and ends with
`endless` when the bound is used up; `depthBound` is large enough for every program on which the
rules come to an end. A loop is a rule that calls itself.

The reader knows which rules are being applied and where they started. It can be made to watch for a
start of a rule, at which it stops; programs are read without a watch.
-/

namespace BilingualC

namespace Grammar

/-- The rules of the grammar. -/
inductive Rule where
  | skipStatement
  | expression
  | expressionTail
  | assignmentExpression
  | conditionalExpression
  | binaryExpression
  | binaryTail
  | unaryExpression
  | postfixExpression
  | postfixTail
  | primaryExpression
  | arguments
  | argumentList
  | controlExpression
  | initializer
  | initializerElements
  | stars
  | fieldBounds
  | fieldList
  | typeSpecifier
  | structureSpecifier
  | members
  | bounds
  | declarator
  | declaratorList
  | restOfDeclaration
  | restOfTypedef
  | declaration
  | parameterBounds
  | parameterList
  | parameters
  | statement
  | loopBody
  | forStatement
  | firstClause
  | scopedBlock
  | blockBody
  | blockItems
  | function
  | externalDeclaration
  | externalDeclarations
deriving DecidableEq, Repr

/-- The start of a rule: where it happens and from within which other rules, the innermost first. -/
structure Start where
  rule : Rule
  pos : Nat
  current : Token
  previous : Token
  within : List (Rule × Nat)
  session : Session

/-- Says at which starts of rules a reader stops. -/
abbrev Watch := Start → Bool

end Grammar

/-- A place in the tokens of a program. -/
structure Reader where
  tokens : Array Token
  pos : Nat
  current : Token
  previous : Token
  recovering : Bool
  /-- The rules that are being applied, the innermost first, and where they started. -/
  trail : List (Grammar.Rule × Nat)
  watch : Grammar.Watch

/-- The reader at the next token; the last token is never passed. -/
def Reader.advanced (r : Reader) : Reader :=
  if r.pos + 1 < r.tokens.size then
    { r with
      previous := r.current
      pos := r.pos + 1
      current := r.tokens.getD (r.pos + 1) r.current }
  else { r with previous := r.current }

/-- A step of the reader, which may check what it has read. -/
abbrev Parse (α : Type) := StateT Reader (StateT Checker (Except Fault)) α

namespace Grammar

/-- A reader at the first token. Tokens that do not end with the end of the input get one. -/
def reader (tokens : List Token) (watch : Watch) : Reader :=
  let stop := Token.bare .endOfInput .none
  let all := if (tokens.getLast?.map (·.kind)) == some .endOfInput then tokens else tokens ++ [stop]
  ⟨all.toArray, 0, all.headD stop, stop, false, [], watch⟩

/-- The watch that never stops a reader. -/
def unwatched : Watch := fun _ => false

/-- Applies a rule, unless its start is watched for. -/
def within {α : Type} (rule : Rule) (body : Parse α) : Parse α := do
  let r ← get
  let session ← Checker.currentSession
  if r.watch ⟨rule, r.pos, r.current, r.previous, r.trail, session⟩ then throw .stopped
  set { r with trail := (rule, r.pos) :: r.trail }
  let result ← body
  modify fun after => { after with trail := r.trail }
  return result

/-- How deep the grammar rules may nest: a fixed number of rules for each token. -/
def depthBound (r : Reader) : Nat := 32 * (r.tokens.size + 4)

/-- Moves to the next token; the last token is never passed. -/
def advance : Parse Unit := modify Reader.advanced

def current : Parse Token := return (← get).current
def position : Parse Nat := return (← get).pos

/-- The token after the current one. -/
def peek : Parse Token := do
  let r ← get
  return r.tokens.getD (r.pos + 1) (r.tokens.back?.getD r.current)

def check (kind : TokenKind) : Parse Bool := return (← get).current.kind == kind

/-- Passes over a token of a kind, if it is the current one. -/
def accept (kind : TokenKind) : Parse Bool := do
  if ← check kind then
    advance
    return true
  return false

/-- Reports that something is missing, unless the reader is recovering. -/
def reportMissing (what : String) : Parse Unit := do
  let r ← get
  if r.recovering then return
  Checker.report r.current.loc (.expected what)
  set { r with recovering := true }

/-- Passes over a token of a kind or reports that it is missing. -/
def expect (kind : TokenKind) (what : String) : Parse Bool := do
  if ← accept kind then return true
  reportMissing what
  return false

/-- Passes over a token of a kind or reports that it is missing, and goes on in either case. -/
def want (kind : TokenKind) (what : String) : Parse Unit := do
  let _ ← expect kind what

/-- Skips tokens past the next semicolon or up to a closing brace. -/
def skipStatement : Nat → Parse Unit
  | 0 => pure ()
  | left + 1 => within .skipStatement do
    if (← check .endOfInput) || (← check .rightBrace) then return
    if ← accept .semicolon then return
    advance
    skipStatement left

/-- Ends the recovery from a syntax error at the end of the statement. A statement that ended with
its semicolon needs no skipping. -/
def synchronize : Parse Unit := do
  let r ← get
  if !r.recovering then return
  if r.previous.kind != .semicolon then skipStatement r.tokens.size
  modify fun r => { r with recovering := false }

/-- The range from a start to the end of the token before the current one. -/
def spanFrom (start : Location) : Parse Location := return ⟨start.start, (← get).previous.loc.stop⟩

end Grammar

end BilingualC
