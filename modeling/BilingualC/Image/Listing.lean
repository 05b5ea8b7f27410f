import BilingualC.Fault
import BilingualC.Image
import BilingualC.Instruction
import BilingualC.Text.Fields
import BilingualC.Text.Quoted
import BilingualC.Word

/-!
# Listings

A listing shows the code of an image line by line: an instruction with its operands, a text that
lies in the code, or a single cell that is neither. The lines cover the code without gap or overlap.
-/

namespace BilingualC

/-- What one line of a listing shows. -/
inductive ListingLine where
  /-- A text in the code, with the jump over it. -/
  | text (cells : List Int)
  | instruction (i : Instruction) (operands : List Int)
  | word (w : Int)
deriving Repr

namespace ListingLine

/-- The number of cells that a line shows. -/
def size : ListingLine → Nat
  | .text cells => 5 + cells.length
  | .instruction _ operands => 1 + operands.length
  | .word _ => 1

/-- What is written after the address. -/
def content : ListingLine → String
  | .text cells =>
    ".string " ++ Text.quote (String.ofList (cells.map fun w => Text.letterOfCode (wrap32 w)))
  | .instruction i operands => " ".intercalate (i.name :: operands.map toString)
  | .word w => ".word " ++ toString w

/-- A line at an address. -/
def render (pc : Nat) (line : ListingLine) : String :=
  Text.padLeft 6 (toString pc) ++ ": " ++ line.content

/-- Every line shows at least one cell. -/
theorem size_pos (line : ListingLine) : 0 < line.size := by
  cases line <;> simp only [size] <;> omega

end ListingLine

namespace Listing

/-- The characters of a text that starts at an address: an instruction that pushes the address of
the first character, a jump past the last one, the length, and the characters. -/
def textAt? (pc : Nat) : List Int → Guarded (Option (List Int))
  | push :: first :: jump :: stop :: length :: rest =>
    if push != (Instruction.single .loadConstant).code || jump != (Instruction.single .branch).code
      || first != pc + 5 || stop != wrap64 (first + length) ||
          (pc + 5 + rest.length : Int) < stop then
      pure none
    else if length < 0 || largestBlock < length then throw .badLength
    else pure (some (rest.take length.toNat))
  | _ => pure none

/-- The line for an instruction or a single cell. -/
def plainLine (cell : Int) (rest : List Int) : ListingLine :=
  match Instruction.ofCode? cell with
  | none => .word cell
  | some i => if rest.length < i.operands then .word cell else .instruction i (rest.take i.operands)

/-- The line at an address. -/
def lineAt (pc : Nat) (cell : Int) (rest : List Int) : Guarded ListingLine := do
  match ← textAt? pc (cell :: rest) with
  | some cells => return .text cells
  | none => return plainLine cell rest

/-- The lines of the cells from an address on, each with its address. -/
def linesFrom (pc : Nat) (cells : List Int) : Guarded (List (Nat × ListingLine)) :=
  match cells with
  | [] => pure []
  | cell :: rest => do
    let line ← lineAt pc cell rest
    return (pc, line) :: (← linesFrom (pc + line.size) (rest.drop (line.size - 1)))
termination_by cells.length
decreasing_by simp only [List.length_cons, List.length_drop]; omega

/-- The lines of the code of a memory. -/
def ofMemory (memory : List Int) : Guarded (List (Nat × ListingLine)) :=
  linesFrom Image.codeStart (memory.drop Image.codeStart)

/-- The listing of a memory as texts. -/
def render (memory : List Int) : Guarded (List String) := do
  return (← ofMemory memory).map fun (pc, line) => line.render pc

end Listing

end BilingualC
