import BilingualC.Text.Fields
import BilingualC.Text.Numeral
import BilingualC.Word

/-!
# Command lines

A command line has flags and positional arguments. A flag is written with its name after one or two
dashes, or with its shorthand after one dash. Switches and counters are set by their presence; other
flags take a value, which follows an equals sign or is the next argument. Shorthands of switches can
be put together behind one dash, and the last of such a cluster may take a value.

Reading goes from left to right and keeps what was read before an error, so reading two lists of
arguments one after the other is the same as reading them together.
-/

namespace BilingualC

/-! ## Values -/

/-- The current value of a flag. -/
inductive FlagValue where
  | text (value : String)
  | number (value : Int)
  | switch (on : Bool)
  /-- How often the flag was given. -/
  | count (value : Int)
deriving DecidableEq, Repr

/-- A text that is no value of a flag. -/
inductive ValueError where
  | notInteger (text : String)
  | notBoolean (text : String)
  | notCount (text : String)
deriving DecidableEq, Repr

def ValueError.message : ValueError → String
  | .notInteger text => "invalid integer value '" ++ text ++ "'"
  | .notBoolean text => "invalid boolean value '" ++ text ++ "'"
  | .notCount text => "invalid count '" ++ text ++ "'"

/-- Reads a truth value. -/
def boolean? (text : String) : Option Bool :=
  if ["1", "t", "T", "TRUE", "true", "True"].contains text then some true
  else if ["0", "f", "F", "FALSE", "false", "False"].contains text then some false
  else none

def booleanText (b : Bool) : String := if b then "true" else "false"

namespace FlagValue

/-- Says whether a flag is set by its presence alone. -/
def isSwitch : FlagValue → Bool
  | .switch _ | .count _ => true
  | _ => false

def toText : FlagValue → String
  | .text value => value
  | .number value => toString value
  | .switch on => booleanText on
  | .count value => toString value

/-- The value after a flag was given with a text. The empty text is no text for a switch. -/
def set (text : String) : FlagValue → Except ValueError FlagValue
  | .text _ => .ok (.text text)
  | .number _ =>
    match Text.word? text with
    | some n => .ok (.number n)
    | none => .error (.notInteger text)
  | .switch _ =>
    if text == "" then .ok (.switch true)
    else match boolean? text with
      | some b => .ok (.switch b)
      | none => .error (.notBoolean text)
  | .count n =>
    if text == "" then .ok (.count (wrap64 (n + 1)))
    else match Text.word? text with
      | some n => .ok (.count n)
      | none => .error (.notCount text)

/-- The value after a flag was given without a text. -/
def touch : FlagValue → FlagValue
  | .switch _ => .switch true
  | .count n => .count (wrap64 (n + 1))
  | v => v

end FlagValue

/-! ## Flags -/

/-- A flag with its current value. -/
structure CommandFlag where
  name : String
  /-- The shorthand; the empty text means that there is none. -/
  short : String
  usage : String
  /-- What the help page calls the value. -/
  placeholder : String
  /-- The value that the help page shows. -/
  default : String
  value : FlagValue
  /-- Says whether the flag belongs to a group. -/
  grouped : Bool
deriving DecidableEq, Repr

/-- One member of a group: `<letter><name>` switches it on and `<letter>no-<name>` off. A switch
that is missing cannot be given. -/
structure GroupEntry where
  name : String
  letter : String
  usage : String
  enabled : Option Bool
  disabled : Option Bool
  default : Bool
deriving DecidableEq, Repr

/-- Flags that the help page lists in a section of their own. -/
structure FlagGroup where
  title : String
  kind : String
  entries : List GroupEntry
deriving DecidableEq, Repr

/-- The flags of a program with their values, and the positional arguments. -/
structure CommandLine where
  flags : List CommandFlag
  groups : List FlagGroup
  args : List String
deriving DecidableEq, Repr

/-- Why a flag cannot be defined. -/
inductive DefinitionError where
  | emptyName
  | redefined (name : String)
  | shortRedefined (short : String)
deriving DecidableEq, Repr

def DefinitionError.message : DefinitionError → String
  | .emptyName => "cli: flag name cannot be empty"
  | .redefined name => "cli: flag redefined: " ++ name
  | .shortRedefined short => "cli: shorthand redefined: " ++ short

namespace CommandFlag

def ofText (name short value usage placeholder : String) : CommandFlag :=
  ⟨name, short, usage, placeholder, value, .text value, false⟩
def ofNumber (name short : String) (value : Int) (usage placeholder : String) : CommandFlag :=
  ⟨name, short, usage, placeholder, toString value, .number value, false⟩
def ofSwitch (name short : String) (on : Bool) (usage : String) : CommandFlag :=
  ⟨name, short, usage, "", booleanText on, .switch on, false⟩
def ofCount (name short usage : String) : CommandFlag :=
  ⟨name, short, usage, "", "", .count 0, false⟩

end CommandFlag

namespace GroupEntry

def onName (e : GroupEntry) : String := e.letter ++ e.name
def offName (e : GroupEntry) : String := e.letter ++ "no-" ++ e.name

/-- The flags of a member. -/
def flags (e : GroupEntry) : List CommandFlag :=
  let on := e.enabled.map fun b =>
    { CommandFlag.ofSwitch e.onName "" b e.usage with grouped := true }
  let off := e.disabled.map fun b =>
    { CommandFlag.ofSwitch e.offName "" b ("Disable '" ++ e.name ++ "'.") with grouped := true }
  on.toList ++ off.toList

end GroupEntry

namespace CommandLine

def empty : CommandLine := ⟨[], [], []⟩

def find? (c : CommandLine) (name : String) : Option CommandFlag :=
  c.flags.find? fun f => f.name == name

def findShort? (c : CommandLine) (short : String) : Option CommandFlag :=
  c.flags.find? fun f => f.short == short

/-- Defines a flag. A flag whose shorthand is taken is an error, but it can be given by its name. -/
def define (c : CommandLine) (f : CommandFlag) : CommandLine × Option DefinitionError :=
  if f.name == "" then (c, some .emptyName)
  else if (c.find? f.name).isSome then (c, some (.redefined f.name))
  else
    let more := { c with flags := c.flags ++ [f] }
    if f.short != "" && (c.findShort? f.short).isSome then (more, some (.shortRedefined f.short))
    else (more, none)

/-- Defines flags in order up to the first error. -/
def defineAll (c : CommandLine) : List CommandFlag → CommandLine × Option DefinitionError
  | [] => (c, none)
  | f :: rest =>
    match c.define f with
    | (c, none) => c.defineAll rest
    | failed => failed

/-- Defines the flags of a group. -/
def addGroup (c : CommandLine) (g : FlagGroup) : CommandLine × Option DefinitionError :=
  match c.defineAll (g.entries.flatMap GroupEntry.flags) with
  | (c, none) => ({ c with groups := c.groups ++ [g] }, none)
  | failed => failed

/-- Defines groups in order up to the first error. -/
def addGroups (c : CommandLine) : List FlagGroup → CommandLine × Option DefinitionError
  | [] => (c, none)
  | g :: rest =>
    match c.addGroup g with
    | (c, none) => c.addGroups rest
    | failed => failed

/-- The command line with some flags and then some groups. -/
def ofFlags (flags : List CommandFlag) (groups : List FlagGroup) :
    CommandLine × Option DefinitionError :=
  match empty.defineAll flags with
  | (c, none) => c.addGroups groups
  | failed => failed

/-! ## Values of flags -/

def valueOf? (c : CommandLine) (name : String) : Option FlagValue := (c.find? name).map (·.value)

def textOf (c : CommandLine) (name : String) : String :=
  match c.valueOf? name with
  | some (.text value) => value
  | _ => ""

def numberOf (c : CommandLine) (name : String) : Int :=
  match c.valueOf? name with
  | some (.number value) => value
  | _ => 0

def isOn (c : CommandLine) (name : String) : Bool :=
  match c.valueOf? name with
  | some (.switch on) => on
  | _ => false

def setValue (c : CommandLine) (name : String) (value : FlagValue) : CommandLine :=
  { c with flags := c.flags.map fun f => if f.name == name then { f with value } else f }

/-! ## Reading -/

/-- Why arguments cannot be read. -/
inductive ReadError where
  | emptyName (arg : String)
  | unknownName (name : String)
  | unknownShort (short : String)
  | missingValue (flag : String)
  /-- A bad value, with the name of the flag if that was written out. -/
  | badValue (name : Option String) (e : ValueError)
deriving DecidableEq, Repr

def ReadError.message : ReadError → String
  | .emptyName arg => "empty flag name in '" ++ arg ++ "'"
  | .unknownName name => "unknown flag: --" ++ name
  | .unknownShort short => "unknown shorthand flag: -" ++ short
  | .missingValue flag => "flag needs an argument: " ++ flag
  | .badValue (some name) e => "-" ++ name ++ ": " ++ e.message
  | .badValue none e => e.message

/-- What reading one argument came to: an error, or whether the next argument was used up as a
value. -/
abbrev Step := CommandLine × Except ReadError Bool

/-- Gives a flag a value. -/
def give (c : CommandLine) (f : CommandFlag) (text : String) (written : Option String)
    (usedNext : Bool) : Step :=
  match f.value.set text with
  | .ok value => (c.setValue f.name value, .ok usedNext)
  | .error e => (c, .error (.badValue written e))

/-- Reads a cluster of shorthands. -/
def readShorts (c : CommandLine) (next : Option String) : List Char → Step
  | [] => (c, .ok false)
  | letter :: rest =>
    let short := String.singleton letter
    match c.findShort? short with
    | none => (c, .error (.unknownShort short))
    | some f =>
      if f.value.isSwitch then readShorts (c.setValue f.name f.value.touch) next rest
      else
        let attached := if rest.head? == some '=' then rest.tail else rest
        if !attached.isEmpty then c.give f (String.ofList attached) none false
        else match next with
          | some text => c.give f text none true
          | none => (c, .error (.missingValue ("-" ++ short)))

/-- Cuts a text at its first equals sign. -/
def cutAtEquals (body : List Char) : String × Option String :=
  let name := String.ofList (body.takeWhile (· != '='))
  match body.dropWhile (· != '=') with
  | [] => (name, none)
  | _ :: value => (name, some (String.ofList value))

/-- Reads a flag that was written as `arg`; `body` is what follows the dashes. -/
def readFlag (c : CommandLine) (arg : String) (isLong : Bool) (body : List Char)
    (next : Option String) : Step :=
  let (name, value) := cutAtEquals body
  if name == "" then (c, .error (.emptyName arg))
  else match c.find? name with
    | none => if isLong then (c, .error (.unknownName name)) else c.readShorts next body
    | some f =>
      match value with
      | some text => c.give f text (some name) false
      | none =>
        if f.value.isSwitch then (c.setValue f.name f.value.touch, .ok false)
        else match next with
          | some text => c.give f text (some name) true
          | none => (c, .error (.missingValue arg))

/-- Reads one argument; a lone dash is a positional argument. -/
def readArg (c : CommandLine) (arg : String) (next : Option String) : Step :=
  match arg.toList with
  | '-' :: '-' :: body => c.readFlag arg true body next
  | '-' :: letter :: body => c.readFlag arg false (letter :: body) next
  | _ => ({ c with args := c.args ++ [arg] }, .ok false)

/-- The argument after which all others are positional. -/
def terminator : String := "--"

/-- Reads arguments in order, up to the first error. -/
def readArgs (c : CommandLine) : List String → CommandLine × Option ReadError
  | [] => (c, none)
  | arg :: rest =>
    if arg == terminator then ({ c with args := c.args ++ rest }, none)
    else match c.readArg arg rest.head? with
      | (c, .error e) => (c, some e)
      | (c, .ok false) => c.readArgs rest
      | (c, .ok true) => c.readArgs rest.tail
termination_by args => args.length
decreasing_by
  · simp
  · simp only [List.length_tail, List.length_cons]; omega

/-- Reads arguments in place of the positional ones of an earlier reading. -/
def parse (c : CommandLine) (arguments : List String) : CommandLine × Option ReadError :=
  { c with args := [] }.readArgs arguments

end CommandLine

end BilingualC
