import BilingualC.Builtin
import BilingualC.Instruction
import BilingualC.Operator

/-!
# Choosing instructions

Which instruction carries out an operator or a library function, and how to get from an instruction
to the one that stores through an address, works on floating values or leaves nothing.
-/

namespace BilingualC

/-- Why there is no instruction for a wish. -/
inductive SelectionError where
  | noVariants (name : String)
  | noMember (name : String) (member : Member)
  | noUnary (name : String)
  | noBinary (name : String)
  | noBuiltin (name : String)
deriving DecidableEq, Repr

def SelectionError.message (e : SelectionError) : String :=
  "instr: no instruction for operation: " ++ match e with
    | .noVariants name => name ++ " has no variants"
    | .noMember name member => name ++ " has no " ++ member.describe ++ " variant"
    | .noUnary name => "unary " ++ name
    | .noBinary name => "binary " ++ name
    | .noBuiltin name => "builtin " ++ name

/-- A step from an instruction to another member of its family. -/
inductive Derivation where
  | toAddress
  | toFloat
  | toVoid
deriving DecidableEq, Repr

namespace Instruction

/-- The member that a step leads to. -/
def step (d : Derivation) (m : Member) : Member :=
  match d with
  | .toAddress => { m with address := true }
  | .toFloat => { m with float := true }
  | .toVoid => { m with void := true }

/-- The member of the same family after a step. -/
def deriveMember (d : Derivation) (i : Instruction) : Except SelectionError Instruction :=
  match i with
  | .single op => .error (.noVariants op.name)
  | .store f m =>
    let stepped := step d m
    if f.hasFloat || !stepped.float then .ok (.store f stepped)
      else .error (.noMember i.name stepped)

/-- Takes a step. An operation on integers steps to the one on floating values. -/
def derive (d : Derivation) (i : Instruction) : Except SelectionError Instruction :=
  match d, i with
  | .toFloat, .single op =>
    match op.onFloats? with
    | some floating => .ok (.single floating)
    | none => deriveMember d i
  | _, _ => deriveMember d i

/-- Takes a step from an opcode. -/
def deriveCode (d : Derivation) (code : Int) : Except SelectionError Int :=
  match ofCode? code with
  | some i => (derive d i).map Instruction.code
  | none => .error (.noVariants (nameOfCode code))

/-- The instruction of a unary operator. -/
def ofUnary (op : UnaryOp) : Except SelectionError Instruction :=
  match op with
  | .postIncrement => .ok (.store .postIncrement .base)
  | .postDecrement => .ok (.store .postDecrement .base)
  | .preIncrement => .ok (.store .preIncrement .base)
  | .preDecrement => .ok (.store .preDecrement .base)
  | .minus => .ok (.single .negate)
  | .complement => .ok (.single .complement)
  | .logicalNot => .ok (.single .logicalNot)
  | .absolute => .ok (.single .absolute)
  | _ => .error (.noUnary op.name)

/-- The instruction of a binary operator. -/
def ofBinary (op : BinaryOp) : Except SelectionError Instruction :=
  match op with
  | .assign => .ok (.store .assign .base)
  | .mulAssign => .ok (.store .mul .base)
  | .divAssign => .ok (.store .div .base)
  | .remAssign => .ok (.store .rem .base)
  | .addAssign => .ok (.store .add .base)
  | .subAssign => .ok (.store .sub .base)
  | .shlAssign => .ok (.store .shl .base)
  | .shrAssign => .ok (.store .shr .base)
  | .andAssign => .ok (.store .and .base)
  | .xorAssign => .ok (.store .xor .base)
  | .orAssign => .ok (.store .or .base)
  | .mul => .ok (.single .mul)
  | .div => .ok (.single .div)
  | .rem => .ok (.single .rem)
  | .add => .ok (.single .add)
  | .sub => .ok (.single .sub)
  | .shl => .ok (.single .shl)
  | .shr => .ok (.single .shr)
  | .less => .ok (.single .less)
  | .greater => .ok (.single .greater)
  | .lessEqual => .ok (.single .lessEqual)
  | .greaterEqual => .ok (.single .greaterEqual)
  | .equal => .ok (.single .equal)
  | .notEqual => .ok (.single .notEqual)
  | .and => .ok (.single .and)
  | .xor => .ok (.single .xor)
  | .or => .ok (.single .or)
  | .logicalAnd => .ok (.single .logicalAnd)
  | .logicalOr => .ok (.single .logicalOr)
  | .comma | .unlisted _ => .error (.noBinary op.name)

/-- The instruction of a library function. -/
def ofBuiltin (b : Builtin) : Except SelectionError Instruction :=
  match b with
  | .printf => .ok (.single .printf)
  | .print => .ok (.single .print)
  | .printid => .ok (.single .printIdentifier)
  | .getid => .ok (.single .readIdentifier)
  | .abs => .ok (.single .absolute)
  | .sqrt => .ok (.single .sqrt)
  | .exp => .ok (.single .exp)
  | .sin => .ok (.single .sin)
  | .cos => .ok (.single .cos)
  | .log => .ok (.single .log)
  | .log10 => .ok (.single .log10)
  | .asin => .ok (.single .asin)
  | .rand => .ok (.single .random)
  | .round => .ok (.single .round)
  | .strcpy => .ok (.single .strcpy)
  | .strncpy => .ok (.single .strncpy)
  | .strcat => .ok (.single .strcat)
  | .strncat => .ok (.single .strncat)
  | .strcmp => .ok (.single .strcmp)
  | .strncmp => .ok (.single .strncmp)
  | .strstr => .ok (.single .strstr)
  | .strlen => .ok (.single .strlen)
  | .assert => .ok (.single .assert)
  | .upb => .ok (.single .upb)
  | .unlisted _ => .error (.noBuiltin b.name)

end Instruction

end BilingualC
