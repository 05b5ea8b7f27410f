/-!
# Settings files

The values of a TOML file and the statements that build them. Reading a file goes in two steps: its
text is read as a list of statements, and the statements are carried out one after the other on a
table that starts empty.
-/

namespace BilingualC

/-- A value of a settings file. -/
inductive Toml where
  | string (value : String)
  | integer (value : Int)
  | float
  | boolean (value : Bool)
  /-- A date, a time or both. -/
  | moment
  | array (items : List Toml)
  | table (entries : List (String × Toml))
  /-- Tables that were given one by one under a header. -/
  | tables (items : List (List (String × Toml)))
deriving Repr, Inhabited

namespace Toml

/-- A dotted key. -/
abbrev Key := List String

/-- A value as it is written. -/
inductive Written where
  | value (v : Toml)
  | array (items : List Written)
  | inline (entries : List (Key × Written))
deriving Repr, Inhabited

/-- A statement of a settings file. -/
inductive Statement where
  /-- The header of a table. -/
  | table (key : Key)
  /-- The header of one of several tables. -/
  | tableItem (key : Key)
  | assign (key : Key) (value : Written)
deriving Repr, Inhabited

/-- The entries of a table. -/
abbrev Entries := List (String × Toml)

/-- Puts a value under a name. -/
def insert (name : String) (v : Toml) : Entries → Entries
  | [] => [(name, v)]
  | (n, old) :: rest => if n == name then (n, v) :: rest else (n, old) :: insert name v rest

/-- The entries that a value holds; of several tables the last one counts. -/
def entries? : Toml → Option Entries
  | .table entries => some entries
  | .tables items => items.getLast?
  | _ => none

/-- A value with other entries. -/
def withEntries (new : Entries) : Toml → Toml
  | .tables items => .tables (items.dropLast ++ [new])
  | _ => .table new

/-- The entries at the end of a path. -/
def entriesAt? (root : Entries) : Key → Option Entries
  | [] => some root
  | name :: rest => do entriesAt? (← (← root.lookup name).entries?) rest

/-- Replaces the entries at the end of a path. -/
def updateAt (new : Entries) : Key → Entries → Option Entries
  | [], _ => some new
  | name :: rest, root => do
    let v ← root.lookup name
    let inner ← updateAt new rest (← v.entries?)
    return insert name (v.withEntries inner) root

end Toml

end BilingualC
