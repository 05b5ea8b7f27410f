/-!
# Instructions of the stack machine

Most instructions stand alone. Assignments and steps come in families: the base member stores to a
frame displacement and leaves the value on the stack, and further members store through an address
on the stack (`@`), work on floating values (`f`) or leave nothing (`V`).

Opcodes are consecutive numbers: first the single instructions, then the base members, then the
other members family by family.
-/

namespace BilingualC

/-! ## Single instructions -/

/-- The instructions that belong to no family, in the order of their opcodes. -/
inductive Operation where
  | nop
  | stop
  | branch
  | branchIfZero
  | branchUnlessZero
  | functionStart
  | callStart
  | callTarget
  | returnValue
  | returnVoid
  | loadConstant
  | load
  | loadAddress
  | loadIndirect
  | select
  | slice
  | widen
  | duplicate
  | copyFrame
  | copyIndirect
  | copyField
  | defineArray
  | initArray
  | beginInit
  | initString
  | rem
  | shl
  | shr
  | and
  | xor
  | or
  | logicalAnd
  | logicalOr
  | equal
  | notEqual
  | less
  | greater
  | lessEqual
  | greaterEqual
  | add
  | sub
  | mul
  | div
  | negate
  | complement
  | logicalNot
  | absolute
  | equalFloat
  | notEqualFloat
  | lessFloat
  | greaterFloat
  | lessEqualFloat
  | greaterEqualFloat
  | addFloat
  | subFloat
  | mulFloat
  | divFloat
  | negateFloat
  | absoluteFloat
  | sqrt
  | exp
  | sin
  | cos
  | log
  | log10
  | asin
  | random
  | round
  | strcpy
  | strncpy
  | strcat
  | strncat
  | strcmp
  | strncmp
  | strstr
  | strlen
  | assert
  | upb
  | printf
  | print
  | printIdentifier
  | readIdentifier
deriving DecidableEq, Repr

namespace Operation

/-- All operations in the order of their opcodes. -/
def all : List Operation := [
  .nop, .stop, .branch, .branchIfZero, .branchUnlessZero, .functionStart, .callStart, .callTarget,
  .returnValue, .returnVoid, .loadConstant, .load, .loadAddress, .loadIndirect, .select, .slice,
  .widen, .duplicate, .copyFrame, .copyIndirect, .copyField, .defineArray, .initArray, .beginInit,
  .initString, .rem, .shl, .shr, .and, .xor, .or, .logicalAnd, .logicalOr, .equal, .notEqual,
  .less, .greater, .lessEqual, .greaterEqual, .add, .sub, .mul, .div, .negate, .complement,
  .logicalNot, .absolute, .equalFloat, .notEqualFloat, .lessFloat, .greaterFloat, .lessEqualFloat,
  .greaterEqualFloat, .addFloat, .subFloat, .mulFloat, .divFloat, .negateFloat, .absoluteFloat,
  .sqrt, .exp, .sin, .cos, .log, .log10, .asin, .random, .round, .strcpy, .strncpy, .strcat,
  .strncat, .strcmp, .strncmp, .strstr, .strlen, .assert, .upb, .printf, .print, .printIdentifier,
  .readIdentifier]

/-- The place of an operation in the order of opcodes. -/
def index (op : Operation) : Nat := op.ctorIdx

/-- How an operation is written in listings. -/
def name : Operation → String
  | .nop => "NOP"
  | .stop => "STOP"
  | .branch => "B"
  | .branchIfZero => "BE0"
  | .branchUnlessZero => "BNE0"
  | .functionStart => "FUNCBEG"
  | .callStart => "CALL1"
  | .callTarget => "CALL2"
  | .returnValue => "RETURNVAL"
  | .returnVoid => "RETURNVOID"
  | .loadConstant => "LI"
  | .load => "LOAD"
  | .loadAddress => "LA"
  | .loadIndirect => "L@"
  | .select => "SELECT"
  | .slice => "SLICE"
  | .widen => "WIDEN"
  | .duplicate => "DOUBLE"
  | .copyFrame => "COPY0ST"
  | .copyIndirect => "COPY1ST"
  | .copyField => "COPYST"
  | .defineArray => "DEFARR"
  | .initArray => "ARRINIT"
  | .beginInit => "BEGINIT"
  | .initString => "STRINGINIT"
  | .rem => "%"
  | .shl => "<<"
  | .shr => ">>"
  | .and => "&"
  | .xor => "^"
  | .or => "|"
  | .logicalAnd => "&&"
  | .logicalOr => "||"
  | .equal => "=="
  | .notEqual => "!="
  | .less => "<"
  | .greater => ">"
  | .lessEqual => "<="
  | .greaterEqual => ">="
  | .add => "+"
  | .sub => "-"
  | .mul => "*"
  | .div => "/"
  | .negate => "UNMINUS"
  | .complement => "BITNOT"
  | .logicalNot => "NOT"
  | .absolute => "ABSI"
  | .equalFloat => "==f"
  | .notEqualFloat => "!=f"
  | .lessFloat => "<f"
  | .greaterFloat => ">f"
  | .lessEqualFloat => "<=f"
  | .greaterEqualFloat => ">=f"
  | .addFloat => "+f"
  | .subFloat => "-f"
  | .mulFloat => "*f"
  | .divFloat => "/f"
  | .negateFloat => "UNMINUSf"
  | .absoluteFloat => "ABS"
  | .sqrt => "SQRT"
  | .exp => "EXP"
  | .sin => "SIN"
  | .cos => "COS"
  | .log => "LOG"
  | .log10 => "LOG10"
  | .asin => "ASIN"
  | .random => "RAND"
  | .round => "ROUND"
  | .strcpy => "STRCPY"
  | .strncpy => "STRNCPY"
  | .strcat => "STRCAT"
  | .strncat => "STRNCAT"
  | .strcmp => "STRCMP"
  | .strncmp => "STRNCMP"
  | .strstr => "STRSTR"
  | .strlen => "STRLEN"
  | .assert => "ASSERT"
  | .upb => "UPB"
  | .printf => "PRINTF"
  | .print => "PRINT"
  | .printIdentifier => "PRINTID"
  | .readIdentifier => "GETID"

/-- The number of operands that follow the opcode. -/
def operands : Operation → Nat
  | .branch | .branchIfZero | .branchUnlessZero | .callTarget | .returnValue | .loadConstant | .load
  | .loadAddress | .select | .slice | .copyIndirect | .beginInit | .initString | .printf | .print
  | .printIdentifier | .readIdentifier =>
    1
  | .functionStart | .copyFrame => 2
  | .copyField => 3
  | .initArray => 4
  | .defineArray => 6
  | _ => 0

/-- The operation on floating values that corresponds to one on integers. -/
def onFloats? : Operation → Option Operation
  | .equal => some .equalFloat
  | .notEqual => some .notEqualFloat
  | .less => some .lessFloat
  | .greater => some .greaterFloat
  | .lessEqual => some .lessEqualFloat
  | .greaterEqual => some .greaterEqualFloat
  | .add => some .addFloat
  | .sub => some .subFloat
  | .mul => some .mulFloat
  | .div => some .divFloat
  | .negate => some .negateFloat
  | .absolute => some .absoluteFloat
  | _ => none

end Operation

/-! ## Families -/

/-- The families of storing instructions, in the order of their opcodes. -/
inductive Family where
  | assign
  | rem
  | shl
  | shr
  | and
  | xor
  | or
  | add
  | sub
  | mul
  | div
  | preIncrement
  | preDecrement
  | postIncrement
  | postDecrement
  | record
deriving DecidableEq, Repr

namespace Family

/-- All families in the order of their opcodes. -/
def all : List Family := [
  .assign, .rem, .shl, .shr, .and, .xor, .or, .add, .sub, .mul, .div, .preIncrement,
  .preDecrement, .postIncrement, .postDecrement, .record]

def index (f : Family) : Nat := f.ctorIdx

/-- How the base member is written in listings. -/
def name : Family → String
  | .assign => "="
  | .rem => "%="
  | .shl => "<<="
  | .shr => ">>="
  | .and => "&="
  | .xor => "^="
  | .or => "|="
  | .add => "+="
  | .sub => "-="
  | .mul => "*="
  | .div => "/="
  | .preIncrement => "INC"
  | .preDecrement => "DEC"
  | .postIncrement => "POSTINC"
  | .postDecrement => "POSTDEC"
  | .record => "COPYSTASS"

/-- Says whether a family has members for floating values. -/
def hasFloat : Family → Bool
  | .rem | .shl | .shr | .and | .xor | .or | .record => false
  | _ => true

/-- The number of operands of the base member; a member with `@` has one less. -/
def operands : Family → Nat
  | .record => 2
  | _ => 1

end Family

/-- Selects a member of a family. -/
structure Member where
  address : Bool
  float : Bool
  void : Bool
deriving DecidableEq, Repr

namespace Member

def base : Member := ⟨false, false, false⟩

/-- All members in the order of their opcodes, the base member first. -/
def all : List Member := [
  ⟨false, false, false⟩, ⟨true, false, false⟩, ⟨false, true, false⟩, ⟨true, true, false⟩,
  ⟨false, false, true⟩, ⟨true, false, true⟩, ⟨false, true, true⟩, ⟨true, true, true⟩]

/-- Shows the choices of a member. -/
def describe (m : Member) : String :=
  "\x7bAddress:" ++ toString m.address ++ " Float:" ++ toString m.float ++ " Void:" ++
    toString m.void ++ "\x7d"

end Member

/-! ## Instructions -/

/-- An instruction of the machine. -/
inductive Instruction where
  | single (op : Operation)
  | store (family : Family) (member : Member)
deriving DecidableEq, Repr

namespace Instruction

/-- The first opcode. -/
def firstCode : Int := 9000

/-- The members of a family. -/
def membersOf (f : Family) : List Member := Member.all.filter fun m => f.hasFloat || !m.float

/-- All instructions in the order of their opcodes. -/
def all : List Instruction :=
  Operation.all.map .single ++ Family.all.map (.store · .base)
    ++ Family.all.flatMap fun f => ((membersOf f).drop 1).map (.store f)

/-- The instructions as a table for decoding. -/
def table : Array Instruction := all.toArray

/-- The instruction with a given opcode. -/
def ofCode? (code : Int) : Option Instruction :=
  if code < firstCode then none else table[(code - firstCode).toNat]?

/-- The opcode of an instruction. -/
def code (i : Instruction) : Int := firstCode + all.idxOf i

/-- How an instruction is written in listings. -/
def name : Instruction → String
  | .single op => op.name
  | .store f m =>
    f.name ++ (if m.address then "@" else "") ++ (if m.float then "f" else "") ++
      (if m.void then "V" else "")

/-- The number of operands that follow the opcode. -/
def operands : Instruction → Nat
  | .single op => op.operands
  | .store f m => f.operands - if m.address then 1 else 0

/-- How an opcode is written in listings; an unknown one is shown by its number. -/
def nameOfCode (code : Int) : String :=
  match ofCode? code with
  | some i => i.name
  | none => "?" ++ toString code

end Instruction

end BilingualC
