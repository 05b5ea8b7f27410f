import BilingualC.CommandLine
import BilingualC.Golden.Runner

/-!
# Flags of the test command

The test command takes flags of a simpler kind than the compiler: one or two dashes and a name, and
the value after an equals sign or as the next argument. Reading stops at the first argument that is
no flag.
-/

namespace BilingualC

/-- The value of a flag of the test command. -/
inductive TestValue where
  | text (value : String)
  | span (value : Duration)
  | number (value : Int)
  | switch (on : Bool)
deriving DecidableEq, Repr

/-- A flag of the test command with its current value. -/
structure TestFlag where
  name : String
  value : TestValue
  usage : String
deriving DecidableEq, Repr

namespace TestFlag

/-- Why a text is no value. -/
inductive Reason where
  | malformed
  | outOfRange
deriving DecidableEq, Repr

def Reason.message : Reason → String
  | .malformed => "parse error"
  | .outOfRange => "value out of range"

/-! ## Whole numbers -/

/-- The base of a number and its digits: a beginning of a zero and a letter names the base, and a
zero alone means base eight. -/
def baseAndDigits : List Char → Nat × List Char
  | '0' :: c :: d :: rest =>
    if c.toLower == 'b' then (2, d :: rest)
    else if c.toLower == 'o' then (8, d :: rest)
    else if c.toLower == 'x' then (16, d :: rest)
    else (8, c :: d :: rest)
  | '0' :: rest => (8, rest)
  | cs => (10, cs)

/-- The value of a digit. -/
def digitValue (c : Char) : Nat :=
  if c.isDigit then c.toNat - '0'.toNat
  else if 'a' ≤ c.toLower && c.toLower ≤ 'z' then c.toLower.toNat - 'a'.toNat + 10
  else 36

/-- The value of digits in a base, passing over underscores. -/
def magnitude (base : Nat) (sum : Nat) : List Char → Except Reason Nat
  | [] => .ok sum
  | c :: cs =>
    if c == '_' then magnitude base sum cs
    else if base ≤ digitValue c then .error .malformed
    else
      let sum := sum * base + digitValue c
      if 18446744073709551615 < sum then .error .outOfRange else magnitude base sum cs

/-- Says whether every underscore follows a digit and comes before one; `afterDigit` tells whether a
digit or the name of a base came before. -/
def underscoresFit (isHex afterDigit : Bool) : List Char → Bool
  | [] => true
  | '_' :: cs => afterDigit && !cs.isEmpty && cs.head? != some '_' && underscoresFit isHex false cs
  | c :: cs => underscoresFit isHex (c.isDigit || (isHex && digitValue c < 16)) cs

/-- Reads a whole number with 64 bits. -/
def wholeNumber (s : String) : Except Reason Int := do
  let (negative, cs) := Text.splitSign s.toList
  if cs.isEmpty then throw .malformed
  let (base, digits) := baseAndDigits cs
  let n ← magnitude base 0 digits
  if digits.contains '_' &&
    !underscoresFit (base == 16) (digits.length + 2 == cs.length || base == 8) digits then
    throw .malformed
  if negative then
    if 9223372036854775808 < n then throw .outOfRange else return -(n : Int)
  else if 9223372036854775807 < n then throw .outOfRange
  else return n

/-! ## Values -/

def TestValue.set (s : String) : TestValue → Except Reason TestValue
  | .text _ => .ok (.text s)
  | .span _ =>
    match Duration.ofText? s with
    | some d => .ok (.span d)
    | none => .error .malformed
  | .number _ => (wholeNumber s).map .number
  | .switch _ =>
    match boolean? s with
    | some b => .ok (.switch b)
    | none => .error .malformed

/-- What the usage page calls the value of a flag. -/
def kindName : TestValue → String
  | .text _ => " string"
  | .span _ => " duration"
  | .number _ => " int"
  | .switch _ => ""

/-- The remark about the value of a flag that is not given; empty values are not mentioned. -/
def defaultNote : TestValue → String
  | .text s => if s == "" then "" else " (default " ++ Text.quote s ++ ")"
  | .span d => if d == 0 then "" else " (default " ++ Duration.text d ++ ")"
  | .number n => if n == 0 then "" else " (default " ++ toString n ++ ")"
  | .switch on => if on then " (default true)" else ""

/-- The lines of the usage page about a flag. -/
def usageLines (f : TestFlag) : String :=
  let left := "  -" ++ f.name ++ kindName f.value
  left ++ (if left.utf8ByteSize ≤ 4 then "\t" else "\n    \t") ++ f.usage ++
    defaultNote f.value ++ "\n"

end TestFlag

namespace TestFlags

/-- The flags of the test command before anything is read. -/
def initial : List TestFlag :=
  [⟨"compiler", .text "./gruc", "Path to the compiler under test."⟩, ⟨"compiler-args",
   .text "", "Extra arguments for the compiler (space-separated)."⟩, ⟨"generate-golden",
   .text "", "Record golden files for the given sources (space-separated globs)."⟩,
   ⟨"test-files", .text "tests/*.c", "Glob pattern(s) for files to test (space-separated)."⟩,
   ⟨"skip-files", .text "", "Files to skip (space-separated)."⟩,
   ⟨"output", .text ".test_results.json", "Where to write the JSON report."⟩,
   ⟨"timeout", .span 5000000000, "Timeout for each compiler invocation."⟩,
   ⟨"j", .number 4, "Number of parallel jobs."⟩, ⟨"v", .switch false, "Log every compilation."⟩,
   ⟨"listing", .switch false, "Also record and compare the -d listing."⟩, ⟨"dir", .text "",
   "Directory holding golden files and the report (defaults to the source's directory)."⟩,
   ⟨"ignore-lines", .text "",
   "Comma-separated substrings; matching diagnostic lines are not compared."⟩]

/-- The usage page of a command: the flags in alphabetical order with the values they start with. -/
def usage (command : String) : String :=
  "Usage of " ++ command ++ ":\n"
    ++ String.join ((initial.mergeSort fun a b => a.name ≤ b.name).map TestFlag.usageLines)

/-- Why reading the flags ends the command. -/
inductive Stop where
  | help
  | badSyntax (arg : String)
  | undefined (name : String)
  | needsArgument (name : String)
  | badSwitch (value name : String) (reason : TestFlag.Reason)
  | badValue (value name : String) (reason : TestFlag.Reason)
deriving DecidableEq, Repr

/-- What is printed before the usage page. -/
def Stop.message : Stop → String
  | .help => ""
  | .badSyntax arg => "bad flag syntax: " ++ arg ++ "\n"
  | .undefined name => "flag provided but not defined: -" ++ name ++ "\n"
  | .needsArgument name => "flag needs an argument: -" ++ name ++ "\n"
  | .badSwitch value name reason =>
    "invalid boolean value " ++ Text.quote value ++ " for -" ++ name ++ ": " ++
    reason.message ++ "\n"
  | .badValue value name reason =>
    "invalid value " ++ Text.quote value ++ " for flag -" ++ name ++ ": " ++ reason.message ++ "\n"

def Stop.exitCode : Stop → Int
  | .help => 0
  | _ => 2

def put (flags : List TestFlag) (name : String) (value : TestValue) : List TestFlag :=
  flags.map fun f => if f.name == name then { f with value } else f

/-- Cuts a text at an equals sign that is not its first character. -/
def cutAtEquals : List Char → String × Option String
  | [] => ("", none)
  | c :: cs =>
    let name := String.ofList (c :: cs.takeWhile (· != '='))
    match cs.dropWhile (· != '=') with
    | [] => (name, none)
    | _ :: value => (name, some (String.ofList value))

/-- Reads one flag; the answer tells whether the next argument was used up as its value. -/
def readFlag (flags : List TestFlag) (arg : String) (body : List Char) (next : Option String) :
    Except Stop (List TestFlag × Bool) :=
  if body.isEmpty || body.head? == some '-' || body.head? == some '=' then .error (.badSyntax arg)
  else
    let (name, value) := cutAtEquals body
    match flags.find? (·.name == name) with
    | none => .error (if name == "help" || name == "h" then .help else .undefined name)
    | some ⟨_, .switch on, _⟩ =>
      match value with
      | none => .ok (put flags name (.switch true), false)
      | some text =>
        match TestFlag.TestValue.set text (.switch on) with
        | .ok v => .ok (put flags name v, false)
        | .error reason => .error (.badSwitch text name reason)
    | some f =>
      match value.or next with
      | none => .error (.needsArgument name)
      | some text =>
        match TestFlag.TestValue.set text f.value with
        | .ok v => .ok (put flags name v, value.isNone)
        | .error reason => .error (.badValue text name reason)

/-- Reads flags up to the first argument that is none. -/
def read (flags : List TestFlag) : List String → Except Stop (List TestFlag)
  | [] => .ok flags
  | arg :: rest =>
    let flag (body : List Char) := readFlag flags arg body rest.head?
    match arg.toList with
    | ['-', '-'] => .ok flags
    | '-' :: '-' :: body =>
      match flag body with
      | .error stop => .error stop
      | .ok (flags, used) => read flags (if used then rest.tail else rest)
    | '-' :: c :: body =>
      match flag (c :: body) with
      | .error stop => .error stop
      | .ok (flags, used) => read flags (if used then rest.tail else rest)
    | _ => .ok flags
termination_by args => args.length
decreasing_by all_goals (split <;> simp only [List.length_cons, List.length_tail] <;> omega)

def textOf (flags : List TestFlag) (name : String) : String :=
  match flags.find? (·.name == name) with
  | some ⟨_, .text s, _⟩ => s
  | _ => ""

def isOn (flags : List TestFlag) (name : String) : Bool :=
  match flags.find? (·.name == name) with
  | some ⟨_, .switch on, _⟩ => on
  | _ => false

def spanOf (flags : List TestFlag) (name : String) : Duration :=
  match flags.find? (·.name == name) with
  | some ⟨_, .span d, _⟩ => d
  | _ => 0

/-- What the flags ask a test run to do. -/
def options (flags : List TestFlag) (scratch : String) : TestOptions where
  compiler := textOf flags "compiler"
  compilerArgs := Text.fields (textOf flags "compiler-args")
  testFiles := textOf flags "test-files"
  skipFiles := Text.fields (textOf flags "skip-files")
  report := textOf flags "output"
  goldenDirectory := textOf flags "dir"
  ignored :=
    let ignored := textOf flags "ignore-lines"
    if ignored == "" then [] else Text.splitAtChar ',' ignored
  timeout := spanOf flags "timeout"
  verbose := isOn flags "v"
  listing := isOn flags "listing"
  scratch

end TestFlags

end BilingualC
