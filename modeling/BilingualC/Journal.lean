import BilingualC.Fault
import BilingualC.Options
import BilingualC.Token

/-!
# The journal of a compilation

The journal knows the source files and collects the findings about them. Files lie one after the
other in one range of offsets, each followed by one free offset. A finding is printed as it comes
in: its place, its message, the source line and a caret under the place.
-/

namespace BilingualC

/-! ## Source files -/

/-- A source file and the offset of its first character. -/
structure SourceFile where
  name : String
  content : Array Char
  base : Nat
deriving Repr

/-- The last file that starts at or before an offset. -/
def fileAt? (files : Array SourceFile) (offset : Int) : Option SourceFile :=
  files.toList.reverse.find? fun file => (file.base : Int) ≤ offset

/-- Moves a line and a column past one character. -/
def advancePosition (here : Nat × Nat) (c : Char) : Nat × Nat :=
  if c == '\n' then (here.1 + 1, 1) else (here.1, here.2 + 1)

/-- The name of the file, the line and the column of an offset; lines and columns start at one. An
offset before the first file has no place. -/
def positionOf (files : Array SourceFile) (offset : Int) : String × Nat × Nat :=
  match fileAt? files offset with
  | none => ("unknown", 0, 0)
  | some file =>
    (file.name, (file.content.toList.take (offset - file.base).toNat).foldl advancePosition (1, 1))

/-! ## Source lines -/

/-- A source line with the marked range: the characters of the line, the column of the first mark
and the number of marks. -/
structure MarkedLine where
  text : List Char
  column : Nat
  marks : Int
deriving Repr

/-- The number of marks for a range that starts `pos` characters into the file on a line that ends
at `lineEnd`: at least one, and none past the end of the line unless it is the only one. -/
def markCount (loc : Location) (pos lineEnd : Nat) : Int :=
  let length := max (wrap64 (loc.stop - loc.start)) 1
  if wrap64 (pos + length) > lineEnd then max ((lineEnd : Int) - pos) 1 else length

/-- The source line of a location, clamped to the end of its file. -/
def markedLine? (files : Array SourceFile) (loc : Location) : Option MarkedLine :=
  (fileAt? files loc.start).map fun file =>
    let content := file.content.toList
    let pos := min (loc.start - file.base).toNat content.length
    let before := ((content.take pos).reverse.takeWhile (· != '\n')).reverse
    let after := (content.drop pos).takeWhile (· != '\n')
    ⟨before ++ after, before.length, markCount loc pos (pos + after.length)⟩

/-- Shows a marked line and the marks under it. -/
def MarkedLine.render (line : MarkedLine) : Guarded String :=
  if line.marks - 1 > largestBlock then throw .badLength
  else pure <| "  " ++ String.ofList line.text ++ "\n  " ++ Text.repeated line.column ' ' ++ "^"
    ++ Text.repeated (line.marks - 1).toNat '~' ++ "\n"

/-! ## Reports -/

inductive Severity where
  | error
  | warning
deriving DecidableEq, Repr

def Severity.name : Severity → String
  | .error => "error"
  | .warning => "warning"

/-- A finding with its place. -/
structure Report where
  severity : Severity
  loc : Location
  diagnostic : Diagnostic
deriving DecidableEq, Repr

/-- The source files, the findings about them and the text printed so far. -/
structure Journal where
  /-- The options in force; without options every warning is reported, in Russian. -/
  options : Option Options
  /-- A silent journal collects findings without printing them. -/
  silent : Bool
  files : Array SourceFile
  reports : Array Report
  printed : String
deriving Repr

namespace Journal

/-- A journal without files and findings. -/
def new (options : Option Options) (silent : Bool) : Journal := ⟨options, silent, #[], #[], ""⟩

/-- The offset at which the next file starts. -/
def nextBase (j : Journal) : Nat :=
  match j.files.back? with
  | none => 0
  | some last => last.base + last.content.size + 1

/-- Adds a file. -/
def addFile (j : Journal) (name : String) (content : Array Char) : Journal :=
  { j with files := j.files.push ⟨name, content, j.nextBase⟩ }

def language (j : Journal) : Language :=
  match j.options with
  | none => .russian
  | some o => o.language

/-- The number of errors found. -/
def errorCount (j : Journal) : Nat := j.reports.countP fun r => r.severity == .error

def hadError (j : Journal) : Bool := j.reports.any fun r => r.severity == .error

/-- Shows a finding with its place and its source line. -/
def rendering (j : Journal) (r : Report) (tag : String) : Guarded String := do
  let (file, line, column) := positionOf j.files r.loc.start
  let head := s!"{file}:{line}:{column}: " ++ r.severity.name ++ ": "
    ++ r.diagnostic.message j.language ++ tag ++ "\n"
  match markedLine? j.files r.loc with
  | none => pure head
  | some marked => return head ++ (← marked.render)

/-- Takes in a finding and prints it. -/
def add (j : Journal) (r : Report) (tag : String) : Guarded Journal := do
  let text ← if j.silent then pure "" else j.rendering r tag
  pure { j with reports := j.reports.push r, printed := j.printed ++ text }

/-- Takes in an error. -/
def error (j : Journal) (loc : Location) (d : Diagnostic) : Guarded Journal :=
  j.add ⟨.error, loc, d⟩ ""

/-- Takes in a warning if it is switched on. A warning that the options do not know is never on. -/
def warn (j : Journal) (w : Option Warning) (loc : Location) (d : Diagnostic) : Guarded Journal :=
  match j.options, w with
  | none, _ => j.add ⟨.warning, loc, d⟩ ""
  | some _, none => pure j
  | some o, some w =>
    if o.warnings.get w then j.add ⟨.warning, loc, d⟩ (" [-W" ++ w.name ++ "]") else pure j

end Journal

end BilingualC
