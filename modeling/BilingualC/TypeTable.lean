import BilingualC.Fault
import BilingualC.Word
import Std.Data.TreeMap

/-!
# Types

A type is named by a word. The scalar types have fixed negative names; a derived type is named by
the place of its record in the type table. Equal records are stored once, so types built in the same
way have the same name.

Records start with their form: `[pointer, element]`, `[array, element]`, `[function, result, count,
parameters...]` and `[structure, size, count, type and name of each field...]`.
-/

namespace BilingualC

/-- The name of a type. -/
abbrev TypeId := Int

namespace TypeId

def undefined : TypeId := 0
def int : TypeId := -1
def char : TypeId := -2
def float : TypeId := -3
def void : TypeId := -4

def isInteger (t : TypeId) : Bool := t == int || t == char
def isFloating (t : TypeId) : Bool := t == float
def isArithmetic (t : TypeId) : Bool := isInteger t || isFloating t
def isVoid (t : TypeId) : Bool := t == void

end TypeId

/-- The form of a derived type. -/
inductive Form where
  | pointer
  | array
  | function
  | record
deriving DecidableEq, Repr

namespace Form

def word : Form → Int
  | .pointer => 1001
  | .array => 1002
  | .function => 1003
  | .record => 1004

def ofWord? (w : Int) : Option Form :=
  if w == 1001 then some .pointer
  else if w == 1002 then some .array
  else if w == 1003 then some .function
  else if w == 1004 then some .record
  else none

end Form

/-- A field of a structure: its type and the number of its spelling. -/
structure Field where
  type : TypeId
  name : Int
deriving DecidableEq, Repr

/-- The records of the derived types. The cell with number zero belongs to no record. -/
structure TypeTable where
  cells : Array Int
  known : Std.TreeMap (List Int) TypeId

namespace TypeTable

def empty : TypeTable := ⟨#[0], ∅⟩

/-- The name of a record and the table with it. -/
def add (t : TypeTable) (record : List Int) : TypeTable × TypeId :=
  match t.known[record]? with
  | some id => (t, id)
  | none =>
    let id : TypeId := t.cells.size
    (⟨t.cells ++ record, t.known.insert record id⟩, id)

/-- The form of a type, if it is a derived one. -/
def form? (t : TypeTable) (id : TypeId) : Option Form :=
  if 0 < id && id < t.cells.size then Form.ofWord? (t.cells.getD id.toNat 0) else none

def isPointer (t : TypeTable) (id : TypeId) : Bool := t.form? id == some .pointer
def isArray (t : TypeTable) (id : TypeId) : Bool := t.form? id == some .array
def isFunction (t : TypeTable) (id : TypeId) : Bool := t.form? id == some .function
def isStructure (t : TypeTable) (id : TypeId) : Bool := t.form? id == some .record
def isScalar (t : TypeTable) (id : TypeId) : Bool := TypeId.isArithmetic id || t.isPointer id

/-- A cell of the record of a type. -/
def cell (t : TypeTable) (id : TypeId) (i : Int) : Guarded Int := cellAt t.cells (id + i)

/-- The number of words that a value takes. An array is one word, a reference to its elements. -/
def sizeOf (t : TypeTable) (id : TypeId) : Guarded Int :=
  if id == TypeId.void || id == TypeId.undefined then pure 0
  else if t.isStructure id then t.cell id 1
  else pure 1

/-! ## Building types -/

def pointer (t : TypeTable) (element : TypeId) : TypeTable × TypeId :=
  t.add [Form.pointer.word, element]
def array (t : TypeTable) (element : TypeId) : TypeTable × TypeId :=
  t.add [Form.array.word, element]

def function (t : TypeTable) (result : TypeId) (parameters : List TypeId) : TypeTable × TypeId :=
  t.add (Form.function.word :: result :: parameters.length :: parameters)

/-- The number of words of some fields together. -/
def totalSize (t : TypeTable) : List Field → Guarded Int
  | [] => pure 0
  | f :: fields => do return wrap64 ((← t.sizeOf f.type) + (← t.totalSize fields))

/-- A structure takes as many words as its fields together. -/
def struct (t : TypeTable) (fields : List Field) : Guarded (TypeTable × TypeId) := do
  let size ← t.totalSize fields
  return t.add (Form.record.word :: size :: fields.length :: fields.flatMap fun f =>
    [f.type, f.name])

/-! ## Taking types apart -/

/-- The type of the elements of an array or of the target of a pointer. -/
def element (t : TypeTable) (id : TypeId) : Guarded TypeId :=
  if t.isPointer id || t.isArray id then t.cell id 1 else pure TypeId.undefined

/-- The type of the result of a function. -/
def result (t : TypeTable) (id : TypeId) : Guarded TypeId :=
  if t.isFunction id then t.cell id 1 else pure TypeId.undefined

/-- The number of components that a record claims to have. -/
def componentCount (t : TypeTable) (id : TypeId) : Guarded Nat := do
  let count ← t.cell id 2
  if count < 0 || largestBlock < count then throw .badLength
  return count.toNat

/-- The cells from one place of a record on, with a given distance between them. -/
def cellsFrom (t : TypeTable) (id : TypeId) (distance : Int) : Nat → Int → Guarded (List Int)
  | 0, _ => pure []
  | left + 1, i => do return (← t.cell id i) :: (← t.cellsFrom id distance left (i + distance))

/-- The types of the parameters of a function. -/
def parameters (t : TypeTable) (id : TypeId) : Guarded (List TypeId) := do
  if !t.isFunction id then return []
  t.cellsFrom id 1 (← t.componentCount id) 3

/-- The fields of a structure. -/
def fields (t : TypeTable) (id : TypeId) : Guarded (List Field) := do
  if !t.isStructure id then return []
  let count ← t.componentCount id
  let types ← t.cellsFrom id 2 count 3
  let names ← t.cellsFrom id 2 count 4
  return types.zipWith Field.mk names

/-- Says whether a type is an array of characters. -/
def isString (t : TypeTable) (id : TypeId) : Guarded Bool := do
  return t.isArray id && (← t.element id) == TypeId.char

/-- Looks for a field by name among fields that start at a displacement. -/
def memberFrom (t : TypeTable) (name : Int) : Int → List Field → Guarded (Option (TypeId × Int))
  | _, [] => pure none
  | displacement, f :: fields => do
    if f.name == name then return some (f.type, displacement)
    t.memberFrom name (wrap64 (displacement + (← t.sizeOf f.type))) fields

/-- The type of a field and its displacement from the start of the structure. -/
def member (t : TypeTable) (id : TypeId) (name : Int) : Guarded (Option (TypeId × Int)) := do
  t.memberFrom name 0 (← t.fields id)

/-! ## Comparing types -/

/-- Compares two types by their structure, at most so many levels deep. -/
def equalAt (t : TypeTable) : Nat → TypeId → TypeId → Guarded Bool
  | 0, _, _ => throw .endless
  | depth + 1, a, b => do
    if a == b then return true
    if a ≤ 0 || b ≤ 0 then return false
    if t.form? a != t.form? b then return false
    match t.form? a with
    | some .pointer | some .array => t.equalAt depth (← t.element a) (← t.element b)
    | some .function =>
      let as ← t.parameters a
      let bs ← t.parameters b
      if as.length != bs.length then return false
      if !(← t.equalAt depth (← t.result a) (← t.result b)) then return false
      equalAll depth as bs
    | some .record =>
      let as ← t.fields a
      let bs ← t.fields b
      if as.length != bs.length then return false
      equalFields depth as bs
    | none =>
      return false
where
  /-- Compares types pair by pair. -/
  equalAll (depth : Nat) : List TypeId → List TypeId → Guarded Bool
    | a :: as, b :: bs => do
      if ← t.equalAt depth a b then equalAll depth as bs else return false
    | _, _ => pure true
  /-- Compares the names and types of fields pair by pair. -/
  equalFields (depth : Nat) : List Field → List Field → Guarded Bool
    | a :: as, b :: bs => do
      if a.name != b.name then return false
      if ← t.equalAt depth a.type b.type then equalFields depth as bs else return false
    | _, _ => pure true

/-- Compares two types by their structure. -/
def equal (t : TypeTable) (a b : TypeId) : Guarded Bool :=
  t.equalAt ((t.cells.size + 1) * (t.cells.size + 1)) a b

/-! ## Naming types -/

/-- Spells a type, at most so many levels deep. -/
def describeAt (t : TypeTable) (nameOf : Int → String) : Nat → TypeId → Guarded String
  | 0, _ => throw .endless
  | depth + 1, id => do
    if id == TypeId.int then return "int"
    if id == TypeId.char then return "char"
    if id == TypeId.float then return "float"
    if id == TypeId.void then return "void"
    match t.form? id with
    | some .pointer => return (← t.describeAt nameOf depth (← t.element id)) ++ "*"
    | some .array => return (← t.describeAt nameOf depth (← t.element id)) ++ "[]"
    | some .function =>
      let names ← (← t.parameters id).mapM (t.describeAt nameOf depth)
      return (← t.describeAt nameOf depth (← t.result id)) ++ "(" ++ ", ".intercalate names ++ ")"
    | some .record =>
      let parts ← (← t.fields id).mapM fun f => do
        return " " ++ (← t.describeAt nameOf depth f.type) ++ " " ++ nameOf f.name ++ ";"
      return "struct \x7b" ++ String.join parts ++ " \x7d"
    | none => return "undefined"

/-- Spells a type for messages. -/
def describe (t : TypeTable) (nameOf : Int → String) (id : TypeId) : Guarded String :=
  t.describeAt nameOf (t.cells.size + 1) id

/-- The records as words. -/
def table (t : TypeTable) : List Int := t.cells.toList.drop 1

end TypeTable

end BilingualC
