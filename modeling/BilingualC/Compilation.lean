import BilingualC.Grammar.Statement
import BilingualC.Lowering.Statement

/-!
# Compilation

The sources of a program are scanned one after the other into one list of tokens, which is read and
checked as a whole. If nothing was wrong the tree is lowered to an image.
-/

namespace BilingualC

/-- A named source text. -/
structure Source where
  name : String
  content : List Char
deriving Repr

/-- Why a compilation gives no image. -/
inductive CompileError where
  | noSources
  /-- The program has errors, which were reported. -/
  | diagnostics (count : Nat)
  | generation (e : Lowering.GenerationError)
deriving Repr

def CompileError.message : CompileError → String
  | .noSources => "no input files specified"
  | .diagnostics count => "compilation failed: " ++ toString count ++ " error(s)"
  | .generation e => e.message

/-- What a compilation leaves behind. -/
structure Compilation where
  session : Session
  result : Except CompileError Image

namespace Compilation

/-- The tokens of every source; each list ends with the end of its source. -/
def tokenizeEach (features : Features) (s : Session) : List Source →
    Guarded (Session × List (List Token))
  | [] => pure (s, [])
  | source :: rest => do
    let (s, tokens) ← s.tokenize features source.name source.content
    let (s, more) ← tokenizeEach features s rest
    return (s, tokens :: more)

/-- Joins the tokens of several sources and leaves out the ends of the single sources. -/
def joined (files : List (List Token)) : List Token :=
  files.flatten.filter fun t => t.kind != .endOfInput

/-- The end of the last source. -/
def endOfSources (s : Session) : Location :=
  match s.journal.files.back? with
  | none => .none
  | some file => ⟨file.base + file.content.size, file.base + file.content.size⟩

/-- Reads and checks a program. -/
def analyze (s : Session) (tokens : List Token) : Guarded (Session × Handle) := do
  let (c, root) ← Grammar.parse (← Checker.new s) tokens
  return (c.session, root)

/-- The session in which the sources are scanned. -/
def opening (options : Options) : Session := .new Kind.unit.number (.new (some options) false)

/-- Scans sources as one program: the tokens of all of them and one end of the input. -/
def scan (options : Options) (sources : List Source) : Guarded (Session × List Token) := do
  let (s, files) ← tokenizeEach options.features (opening options) sources
  return (s, joined files ++ [.bare .endOfInput (endOfSources s)])

/-- Compiles sources as one program. -/
def run (options : Options) (sources : List Source) : Guarded Compilation := do
  if sources.isEmpty then return ⟨opening options, .error .noSources⟩
  let (s, tokens) ← scan options sources
  let (s, root) ← analyze s tokens
  if s.journal.hadError then return ⟨s, .error (.diagnostics s.journal.errorCount)⟩
  let (s, result) ← Lowering.generate s root
  return ⟨s, result.mapError .generation⟩

/-- A function with a call of itself and with jumps forward and backward. -/
def jumpingProgram : List Source :=
  [⟨"jump.c", "void f() { goto end; again: goto again; f(); end: ; } void main() { f(); }".toList⟩]

theorem compiles_jumpingProgram :
    ∃ out, run Options.initial jumpingProgram = .ok out ∧ out.session.journal.hadError = false := by
  have checked : (match run Options.initial jumpingProgram with
      | .ok out => !out.session.journal.hadError
      | .error _ => false) = true := by decide +kernel
  split at checked
  next out done => exact ⟨out, done, by simpa using checked⟩
  next => cases checked

end Compilation

end BilingualC
