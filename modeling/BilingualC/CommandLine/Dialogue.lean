import BilingualC.CommandLine.Help

/-!
# Dialogues

A program can be asked several times: to read arguments, to start with arguments, or to show its
help page. What one request sets stays set for the next, and every request that reads arguments uses
the storage of the one before it.

The positional arguments of a command line are kept in storage that the next reading uses again. So
arguments that were handed out after one reading and are looked at after a later one show what was
written in their place since. Storage that is too small is left as it is, and a larger one is used
from then on.
-/

namespace BilingualC

/-! ## Arguments of earlier readings -/

/-- Cells for arguments, and how many there is room for. -/
structure ArgStore where
  cells : List String
  room : Nat
deriving DecidableEq, Repr

/-- Arguments that were handed out: the first cells of some storage. -/
structure ArgView where
  store : Nat
  length : Nat
deriving DecidableEq, Repr

/-- All storage that was ever used; the last one is in use. -/
structure Recall where
  stores : Array ArgStore
deriving DecidableEq, Repr

namespace Recall

def empty : Recall := ⟨#[⟨[], 0⟩]⟩

def current (r : Recall) : ArgStore := r.stores.back?.getD ⟨[], 0⟩

/-- The room that is set aside when so much is asked for. -/
def rounded (n : Nat) : Nat :=
  if n ≤ 16 then n
  else if n ≤ 32 then (n + 1) / 2 * 2
  else if n ≤ 48 then (n + 3) / 4 * 4
  else (n + 7) / 8 * 8

/-- The room of the storage that follows a full one: twice as much, or as much as is needed. -/
def grown (room needed : Nat) : Nat := rounded (max (2 * room) needed)

/-- Writes arguments after the first `length` ones of the reading that is going on. -/
def append (r : Recall) (length : Nat) (args : List String) : Recall :=
  let s := r.current
  if args.isEmpty then r
  else if length + args.length ≤ s.room then
    let cells := s.cells.take length ++ args ++ s.cells.drop (length + args.length)
    ⟨r.stores.pop.push { s with cells }⟩
  else ⟨r.stores.push ⟨s.cells.take length ++ args, grown s.room (length + args.length)⟩⟩

/-- Writes arguments one by one. -/
def appendEach (r : Recall) (length : Nat) : List String → Recall
  | [] => r
  | arg :: rest => (r.append length [arg]).appendEach (length + 1) rest

/-- Writes the arguments of a reading; the last ones, which stood behind the terminator, are written
together. -/
def note (r : Recall) (args : List String) (trailing : Nat) : Recall × ArgView :=
  let single := args.length - trailing
  let r := (r.appendEach 0 (args.take single)).append single (args.drop single)
  (r, ⟨r.stores.size - 1, args.length⟩)

/-- What arguments that were handed out show now. -/
def shown (r : Recall) (v : ArgView) : List String :=
  ((r.stores[v.store]?).map fun s => s.cells.take v.length).getD []

end Recall

namespace CommandLine

/-- How many of the arguments stand behind a terminator that reading them reaches. -/
def trailing (c : CommandLine) : List String → Nat
  | [] => 0
  | arg :: rest =>
    if arg == terminator then rest.length
    else match c.readArg arg rest.head? with
      | (_, .error _) => 0
      | (c, .ok false) => c.trailing rest
      | (c, .ok true) => c.trailing rest.tail
termination_by args => args.length
decreasing_by
  · simp
  · simp only [List.length_tail, List.length_cons]; omega

end CommandLine

/-! ## Requests -/

/-- What a program is asked for. -/
inductive Request where
  | parse (arguments : List String)
  | run (arguments : List String)
  | help (width : Int)
deriving DecidableEq, Repr

/-- Why a request fails. -/
inductive RequestError where
  | unreadable (e : CommandLine.ReadError)
  | undefinable (e : DefinitionError)
deriving DecidableEq, Repr

/-- What came of a request: the command line afterwards, the texts that were printed, whether the
action of the program was taken, and the arguments. -/
structure Response where
  line : CommandLine
  failure : Option RequestError
  stdout : String
  stderr : String
  acted : Bool
  args : ArgView
deriving DecidableEq, Repr

/-- A program between two requests. -/
structure Dialogue where
  program : Program
  hasAction : Bool
  line : CommandLine
  memory : Recall
  args : ArgView
deriving DecidableEq, Repr

namespace Dialogue

def start (program : Program) (hasAction : Bool) (line : CommandLine) : Dialogue :=
  ⟨program, hasAction, line, .empty, ⟨0, 0⟩⟩

/-- Goes on with a command line on which arguments were read; `before` is the command line that read
them. -/
def noted (d : Dialogue) (line before : CommandLine) (arguments : List String) : Dialogue :=
  let (memory, args) := d.memory.note line.args (before.trailing arguments)
  { d with line, memory, args }

/-- The response that goes with a state. -/
def respond (d : Dialogue) (failure : Option RequestError) (stdout stderr : String) (acted : Bool) :
    Dialogue × Response :=
  (d, ⟨d.line, failure, stdout, stderr, acted, d.args⟩)

/-- Serves one request. -/
def ask (d : Dialogue) : Request → Dialogue × Response
  | .help width => d.respond none (d.program.helpPage d.line width) "" false
  | .parse arguments =>
    let (line, e) := d.line.parse arguments
    (d.noted line d.line arguments).respond (e.map .unreadable) "" "" false
  | .run arguments =>
    let before := (d.line.define Program.helpFlag).1
    match Program.start d.line arguments with
    | (line, .error e) => { d with line }.respond (some (.undefinable e)) "" "" false
    | (line, .ok (.complain e)) =>
      (d.noted line before arguments).respond (some (.unreadable e)) ""
        (d.program.complaint e) false
    | (line, .ok .help) =>
      (d.noted line before arguments).respond none
        (d.program.helpPage line Program.defaultWidth) "" false
    | (line, .ok (.act _)) => (d.noted line before arguments).respond none "" "" d.hasAction

/-- Serves requests in order. -/
def askAll (d : Dialogue) : List Request → Dialogue × List Response
  | [] => (d, [])
  | r :: rest =>
    let (d, response) := d.ask r
    let (d, responses) := d.askAll rest
    (d, response :: responses)

end Dialogue

end BilingualC
