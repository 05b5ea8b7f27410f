/-!
# Faults

A table or an arena that is asked for a cell it does not have cannot answer. Such a request ends
the operation with a `Fault`; an operation that follows links has an explicit bound on the number
of steps and ends with `endless` when the bound is used up.
-/

namespace BilingualC

/-- Why an operation on raw tables cannot go on. -/
inductive Fault where
  /-- A cell outside the table was asked for. -/
  | badIndex
  /-- A block of negative or impossible length was asked for. -/
  | badLength
  /-- The links that had to be followed lead nowhere. -/
  | endless
  /-- Something happened that was watched for. -/
  | stopped
deriving DecidableEq, Repr

/-- An operation that can be stopped by a fault. -/
abbrev Guarded (α : Type) := Except Fault α

/-- The largest number of cells that one block may have. -/
def largestBlock : Int := 35184372088832

/-- Reads a cell of a table by its index. -/
def cellAt (cells : Array α) (i : Int) : Guarded α :=
  if i < 0 then throw .badIndex
  else match cells[i.toNat]? with
    | some cell => pure cell
    | none => throw .badIndex

/-- Writes a cell of a table by its index. -/
def setCellAt (cells : Array α) (i : Int) (value : α) : Guarded (Array α) :=
  if 0 ≤ i ∧ i.toNat < cells.size then pure (cells.setIfInBounds i.toNat value)
  else throw .badIndex

/-- Says whether an index names a cell of a table with the given number of cells. -/
def inTable (size : Nat) (i : Int) : Bool := 0 ≤ i && i < size

end BilingualC
