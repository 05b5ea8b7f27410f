import BilingualC.CommandLine
import BilingualC.Sorting

/-!
# Help pages

A program prints a page about its flags: the flags in alphabetical order and one section for each
group, every entry with a column for the flag and a wrapped column for its description. The width of
a text is counted in bytes when lines are filled, and in characters when columns are padded.
-/

namespace BilingualC

/-- What a program says about itself. -/
structure Program where
  name : String
  /-- The usage line after the name; the empty text stands for the usual one. -/
  synopsis : String
  description : String
  authors : List String
  repository : String
deriving DecidableEq, Repr

namespace Help

/-- Fills lines with words as long as they fit; a line holds at least one word. -/
def fill (width : Int) (line : String) : List String → List String
  | [] => [line]
  | word :: rest =>
    if (line.utf8ByteSize + 1 + word.utf8ByteSize : Int) > width then line :: fill width word rest
    else fill width (line ++ " " ++ word) rest

/-- Breaks a text into lines. -/
def wrap (text : String) (width : Int) : List String :=
  match Text.fields text with
  | [] => []
  | word :: rest => fill width word rest

/-- One entry of a help page. -/
structure Row where
  left : String
  usage : String
  note : String
deriving DecidableEq, Repr

/-- The left column of a flag. -/
def spelling (f : CommandFlag) : String :=
  let value := if !f.value.isSwitch && f.placeholder != "" then " <" ++ f.placeholder ++ ">" else ""
  if f.short != "" then "-" ++ f.short ++ ", --" ++ f.name ++ value else "--" ++ f.name ++ value

/-- The remark about the default of a flag. -/
def defaultNote (f : CommandFlag) : String :=
  if f.value.isSwitch || f.default == "" || f.default == "0" then ""
  else "(default " ++ f.default ++ ")"

/-- The rows of the flags that belong to no group. -/
def optionRows (c : CommandLine) : List Row :=
  (Sorting.sort (·.name < ·.name) (c.flags.filter (!·.grouped))).map fun f =>
    ⟨spelling f, f.usage, defaultNote f⟩

/-- The rows of a group. -/
def groupRows (g : FlagGroup) : List Row :=
  let letter := (g.entries.head?.map (·.letter)).getD ""
  let entries := Sorting.sort (·.name < ·.name) g.entries
  ⟨"-" ++ letter ++ "<" ++ g.kind ++ ">", "Enable a specific " ++ g.kind ++ ".", ""⟩
    :: ⟨"-" ++ letter ++ "no-<" ++ g.kind ++ ">", "Disable a specific " ++ g.kind ++ ".", ""⟩
    :: entries.map fun e => ⟨"  " ++ e.name, e.usage, if e.default then "[on]" else "[off]"⟩

/-- The least width of the right column. -/
def leastUsageWidth : Int := 20

/-- Writes a row. -/
def writeRow (leftWidth : Nat) (width : Int) (r : Row) : String :=
  let usageWidth := max (width - 4 - leftWidth) leastUsageWidth
  let usage := if r.note != "" then r.usage ++ " " ++ r.note else r.usage
  let lines := wrap usage usageWidth
  "  " ++ Text.padRight leftWidth r.left ++ "  " ++ lines.headD "" ++ "\n"
    ++ String.join (lines.tail.map fun l => Text.repeated (leftWidth + 4) ' ' ++ l ++ "\n")

end Help

namespace Program

/-- The usage line after the name of the program. -/
def usage (p : Program) : String := if p.synopsis == "" then "[options] [input] ..." else p.synopsis

/-- The lines about the people behind a program. -/
def credits (p : Program) : String :=
  (if p.authors.isEmpty && p.repository == "" then "" else "\n")
    ++ (if p.authors.isEmpty then ""
      else "Written by " ++ ", ".intercalate p.authors ++ " and contributors.\n")
    ++ (if p.repository == "" then "" else "Report bugs at " ++ p.repository ++ "\n")

/-- The help page for a terminal of some width. -/
def helpPage (p : Program) (c : CommandLine) (width : Int) : String :=
  let options := Help.optionRows c
  let sections := c.groups.map fun g => (g.title, Help.groupRows g)
  let rows := options ++ sections.flatMap (·.2)
  let leftWidth := rows.foldl (fun w r => max w r.left.utf8ByteSize) 0
  let write (rows : List Help.Row) := String.join (rows.map (Help.writeRow leftWidth width))
  "Usage: " ++ p.name ++ " " ++ p.usage ++ "\n"
    ++ (if p.description == "" then ""
      else "\n" ++ String.join ((Help.wrap p.description (width - 2)).map fun l =>
        "  " ++ l ++ "\n"))
    ++ (if options.isEmpty then "" else "\nOptions:\n" ++ write options)
    ++ String.join (sections.map fun (title, rows) => "\n" ++ title ++ ":\n" ++ write rows)
    ++ p.credits

/-- What is printed when the arguments cannot be read. -/
def complaint (p : Program) (e : CommandLine.ReadError) : String :=
  p.name ++ ": " ++ e.message ++ "\nUsage: " ++ p.name ++ " " ++ p.usage ++ "\nRun '" ++ p.name
    ++ " --help' for all available options.\n"

/-- What a program does with its arguments. -/
inductive Reply where
  | complain (e : CommandLine.ReadError)
  | help
  | act (args : List String)
deriving DecidableEq, Repr

/-- The flag that asks for the help page. -/
def helpFlag : CommandFlag := .ofSwitch "help" "h" false "Display this information."

/-- The width of the help page where there is no terminal. -/
def defaultWidth : Int := 80

/-- Starts a program: defines the help flag, reads the arguments and decides what to do. -/
def start (c : CommandLine) (arguments : List String) :
    CommandLine × Except DefinitionError Reply :=
  match c.define helpFlag with
  | (c, some e) => (c, .error e)
  | (c, none) =>
    match c.parse arguments with
    | (c, some e) => (c, .ok (.complain e))
    | (c, none) => (c, .ok (if c.isOn helpFlag.name then .help else .act c.args))

end Program

end BilingualC
