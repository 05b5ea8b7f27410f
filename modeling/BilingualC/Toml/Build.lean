import BilingualC.Toml
import Std.Data.HashSet

/-!
# Carrying out the statements of a settings file

Tables that are only mentioned on the way to something else are implied; an implied table can be
given later. A name that has a value cannot be given another one, except that an implied table gives
way to an array, and an array to the table that a dotted key needs in its place.
-/

namespace BilingualC.Toml

/-- The table that is being built. -/
structure Builder where
  root : Entries
  /-- The tables that were only implied so far. -/
  implied : Std.HashSet Key
  /-- The keys whose value was last seen to be an array. -/
  arrays : Std.HashSet Key
  /-- The table that the next assignment goes to. -/
  context : Key

/-- A step of building, which fails on a contradiction. -/
abbrev Build (α : Type) := StateT Builder Option α

namespace Build

def setContext (context : Key) : Build Unit := modify fun b => { b with context }
def imply (key : Key) : Build Unit := modify fun b => { b with implied := b.implied.insert key }
def confirm (key : Key) : Build Unit := modify fun b => { b with implied := b.implied.erase key }

/-- Remembers whether the value of a name is an array. The empty name stands for the table
itself. -/
def noteKind (name : String) (isArray : Bool) : Build Unit := modify fun b =>
  let key := if name == "" then b.context else b.context ++ [name]
  let key := if key.isEmpty then [""] else key
  { b with arrays := if isArray then b.arrays.insert key else b.arrays.erase key }

/-- The entries of a table. -/
def entriesOf (key : Key) : Build Entries := do entriesAt? (← get).root key

def setEntries (key : Key) (entries : Entries) : Build Unit := do
  let root ← updateAt entries key (← get).root
  modify fun b => { b with root }

/-- Gives a name of the current table a value. -/
def assign (name : String) (v : Toml) : Build Unit := do
  let b ← get
  let key := b.context ++ [name]
  let entries ← entriesOf b.context
  if (entries.lookup name).isNone then setEntries b.context (insert name v entries)
  else if b.implied.contains key then
    confirm key
    if b.arrays.contains key then setEntries b.context (insert name v entries)
  else failure

/-- Makes the tables on the way to a key that are missing, below a table with the path `above` in
reverse. Gives the entries of that table and the keys of the tables that were made. -/
def establish (above : Key) : Key → Entries → Option (Entries × List Key)
  | [], entries => some (entries, [])
  | name :: rest, entries => do
    match entries.lookup name with
    | none =>
      let (inner, made) ← establish (name :: above) rest []
      return (insert name (.table inner) entries, (name :: above).reverse :: made)
    | some v =>
      let (inner, made) ← establish (name :: above) rest (← v.entries?)
      return (insert name (v.withEntries inner) entries, made)

/-- Makes the tables on the way to a key. -/
def descend (key : Key) : Build Unit := do
  let (root, made) ← establish [] key (← get).root
  modify fun b => { b with root, implied := made.foldl (·.insert ·) b.implied }

/-- Goes to a table, which is made new; or to a new one of several tables. -/
def openTable (key : Key) (oneOfSeveral : Bool) : Build Unit := do
  let above := key.dropLast
  let name := key.getLastD ""
  descend above
  setContext above
  if oneOfSeveral then
    let entries ← entriesOf above
    match entries.lookup name with
    | none => setEntries above (insert name (.tables [[]]) entries)
    | some (.tables items) => setEntries above (insert name (.tables (items ++ [[]])) entries)
    | some _ => failure
  else assign name (.table [])
  setContext key

/-- Goes to the table of a dotted key. -/
def enter : Key → Build Unit
  | [] => pure ()
  | name :: rest => do
    let key := (← get).context ++ [name]
    imply key
    openTable key false
    enter rest

/-- Puts a value into entries of its own under a dotted key. -/
def insertUnder (v : Toml) : Key → Entries → Option Entries
  | [], _ => none
  | [name], entries => some (insert name v entries)
  | name :: rest, entries => do
    let inner ← match entries.lookup name with
      | none => some []
      | some (.table inner) => some inner
      | some _ => none
    return insert name (.table (← insertUnder v rest inner)) entries

def isArray : Toml → Bool
  | .array _ => true
  | _ => false

/-- Gives a dotted key of the current table the value that `read` finds there. -/
def assignUnder (key : Key) (read : Build Toml) : Build Toml := do
  enter key.dropLast
  let v ← read
  assign (key.getLastD "") v
  noteKind (key.getLastD "") (isArray v)
  return v

mutual

/-- The value of what is written for a name. -/
def value (name : String) (inArray : Bool) : Written → Build Toml
  | .value v => pure v
  | .array items => do
    noteKind name true
    return .array (← values name items)
  | .inline entries => do
    let outside := (← get).context
    let context := outside ++ [name]
    imply context
    openTable context inArray
    let result ← inlineEntries context [] entries
    setContext outside
    return .table result

/-- The values of the items of an array. -/
def values (name : String) : List Written → Build (List Toml)
  | [] => pure []
  | item :: rest => do return (← value name true item) :: (← values name rest)

/-- The entries of an inline table. -/
def inlineEntries (context : Key) (done : Entries) : List (Key × Written) → Build Entries
  | [] => pure done
  | (key, written) :: rest => do
    let v ← assignUnder key (value (key.getLastD "") false written)
    setContext context
    inlineEntries context (← insertUnder v key done) rest

end

/-- Carries out a statement. -/
def statement : Statement → Build Unit
  | .table key => do
    openTable key false
    noteKind "" false
  | .tableItem key => do
    openTable key true
    noteKind "" false
  | .assign key written => do
    let outside := (← get).context
    let _ ← assignUnder key (value (key.getLastD "") false written)
    setContext outside

end Build

/-- The table that statements build. -/
def ofStatements (statements : List Statement) : Option Entries := do
  let (_, b) ← (statements.forM Build.statement).run ⟨[], ∅, ∅, []⟩
  return b.root

end BilingualC.Toml
