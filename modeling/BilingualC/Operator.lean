import BilingualC.Binary64

/-!
# Operators

The operators of expressions and their values on constants. An operator is stored in a node as its
number; a number that no operator has is kept as `unlisted`.
-/

namespace BilingualC

/-! ## Unary operators -/

/-- The operators with one operand. -/
inductive UnaryOp where
  | postIncrement
  | postDecrement
  | preIncrement
  | preDecrement
  | address
  | indirection
  | minus
  | complement
  | logicalNot
  | absolute
  /-- A number that the table does not list. -/
  | unlisted (number : Int)
deriving DecidableEq, Repr

namespace UnaryOp

/-- All operators in the order of their numbers, which start at 0. -/
def all : List UnaryOp := [
  .postIncrement, .postDecrement, .preIncrement, .preDecrement, .address, .indirection, .minus,
  .complement, .logicalNot, .absolute]

def number : UnaryOp → Int
  | .postIncrement => 0
  | .postDecrement => 1
  | .preIncrement => 2
  | .preDecrement => 3
  | .address => 4
  | .indirection => 5
  | .minus => 6
  | .complement => 7
  | .logicalNot => 8
  | .absolute => 9
  | .unlisted n => n

def ofNumber (n : Int) : UnaryOp :=
  if n < 0 then .unlisted n else all.getD n.toNat (.unlisted n)

/-- How an operator is named in messages. -/
def name : UnaryOp → String
  | .postIncrement => "x++"
  | .postDecrement => "x--"
  | .preIncrement => "++x"
  | .preDecrement => "--x"
  | .address => "&"
  | .indirection => "*"
  | .minus => "-"
  | .complement => "~"
  | .logicalNot => "!"
  | .absolute => "abs"
  | .unlisted _ => "?"

/-- Says whether an operator changes its operand. -/
def isStep : UnaryOp → Bool
  | .postIncrement | .postDecrement | .preIncrement | .preDecrement => true
  | .unlisted n => n < 0
  | _ => false

/-- Says whether an operator is written after its operand. -/
def isPostfix : UnaryOp → Bool
  | .postIncrement | .postDecrement => true
  | _ => false

/-- The value of an operator on an integer constant. -/
def onInt (op : UnaryOp) (v : Int) : Option Int :=
  match op with
  | .minus => some (wrap64 (-v))
  | .complement => some (-v - 1)
  | .logicalNot => some (flagWord (v == 0))
  | .absolute => some (if v < 0 then wrap64 (-v) else v)
  | _ => none

/-- The value of an operator on a floating constant. -/
def onFloat (op : UnaryOp) (v : Binary64) : Option Binary64 :=
  match op with
  | .minus => some v.neg
  | .absolute => some v.abs
  | _ => none

end UnaryOp

/-! ## Binary operators -/

/-- The operators with two operands. -/
inductive BinaryOp where
  | assign
  | mulAssign
  | divAssign
  | remAssign
  | addAssign
  | subAssign
  | shlAssign
  | shrAssign
  | andAssign
  | xorAssign
  | orAssign
  | mul
  | div
  | rem
  | add
  | sub
  | shl
  | shr
  | less
  | greater
  | lessEqual
  | greaterEqual
  | equal
  | notEqual
  | and
  | xor
  | or
  | logicalAnd
  | logicalOr
  | comma
  /-- A number that the table does not list. -/
  | unlisted (number : Int)
deriving DecidableEq, Repr

namespace BinaryOp

/-- All operators in the order of their numbers, which start at 0. -/
def all : List BinaryOp := [
  .assign, .mulAssign, .divAssign, .remAssign, .addAssign, .subAssign, .shlAssign, .shrAssign,
  .andAssign, .xorAssign, .orAssign, .mul, .div, .rem, .add, .sub, .shl, .shr, .less, .greater,
  .lessEqual, .greaterEqual, .equal, .notEqual, .and, .xor, .or, .logicalAnd, .logicalOr, .comma]

def number : BinaryOp → Int
  | .assign => 0
  | .mulAssign => 1
  | .divAssign => 2
  | .remAssign => 3
  | .addAssign => 4
  | .subAssign => 5
  | .shlAssign => 6
  | .shrAssign => 7
  | .andAssign => 8
  | .xorAssign => 9
  | .orAssign => 10
  | .mul => 11
  | .div => 12
  | .rem => 13
  | .add => 14
  | .sub => 15
  | .shl => 16
  | .shr => 17
  | .less => 18
  | .greater => 19
  | .lessEqual => 20
  | .greaterEqual => 21
  | .equal => 22
  | .notEqual => 23
  | .and => 24
  | .xor => 25
  | .or => 26
  | .logicalAnd => 27
  | .logicalOr => 28
  | .comma => 29
  | .unlisted n => n

def ofNumber (n : Int) : BinaryOp :=
  if n < 0 then .unlisted n else all.getD n.toNat (.unlisted n)

/-- How an operator is named in messages. -/
def name : BinaryOp → String
  | .assign => "="
  | .mulAssign => "*="
  | .divAssign => "/="
  | .remAssign => "%="
  | .addAssign => "+="
  | .subAssign => "-="
  | .shlAssign => "<<="
  | .shrAssign => ">>="
  | .andAssign => "&="
  | .xorAssign => "^="
  | .orAssign => "|="
  | .mul => "*"
  | .div => "/"
  | .rem => "%"
  | .add => "+"
  | .sub => "-"
  | .shl => "<<"
  | .shr => ">>"
  | .less => "<"
  | .greater => ">"
  | .lessEqual => "<="
  | .greaterEqual => ">="
  | .equal => "=="
  | .notEqual => "!="
  | .and => "&"
  | .xor => "^"
  | .or => "|"
  | .logicalAnd => "&&"
  | .logicalOr => "||"
  | .comma => ","
  | .unlisted _ => "?"

def isAssignment : BinaryOp → Bool
  | .assign | .mulAssign | .divAssign | .remAssign | .addAssign | .subAssign | .shlAssign
  | .shrAssign | .andAssign | .xorAssign | .orAssign => true
  | .unlisted n => n < 0
  | _ => false

/-- The operator that a compound assignment applies before it assigns. -/
def underlying : BinaryOp → BinaryOp
  | .mulAssign => .mul
  | .divAssign => .div
  | .remAssign => .rem
  | .addAssign => .add
  | .subAssign => .sub
  | .shlAssign => .shl
  | .shrAssign => .shr
  | .andAssign => .and
  | .xorAssign => .xor
  | .orAssign => .or
  | op => op

/-- Says whether both operands have to be integers. -/
def isIntegerOnly (op : BinaryOp) : Bool :=
  match op.underlying with
  | .rem | .shl | .shr | .and | .xor | .or => true
  | _ => false

def isComparison : BinaryOp → Bool
  | .less | .greater | .lessEqual | .greaterEqual | .equal | .notEqual => true
  | _ => false

def isEquality : BinaryOp → Bool
  | .equal | .notEqual => true
  | _ => false

def isLogical : BinaryOp → Bool
  | .logicalAnd | .logicalOr => true
  | _ => false

/-- The number of places of a shift: the low six bits of its right operand. -/
def shiftCount (r : Int) : Nat := (r % 64).toNat

/-- The value of an operator on integer constants, as a word. Division by zero has none. -/
def onInts (op : BinaryOp) (l r : Int) : Option Int :=
  match op with
  | .mul => some (wrap64 (l * r))
  | .div => if r == 0 then none else some (wrap64 (l.tdiv r))
  | .rem => if r == 0 then none else some (l.tmod r)
  | .add => some (wrap64 (l + r))
  | .sub => some (wrap64 (l - r))
  | .shl => some (wrap64 (l * Int.pow 2 (shiftCount r)))
  | .shr => some (l / Int.pow 2 (shiftCount r))
  | .less => some (flagWord (l < r))
  | .greater => some (flagWord (r < l))
  | .lessEqual => some (flagWord (l ≤ r))
  | .greaterEqual => some (flagWord (r ≤ l))
  | .equal => some (flagWord (l == r))
  | .notEqual => some (flagWord (l != r))
  | .and => some (wordBits l &&& wordBits r).toInt
  | .xor => some (wordBits l ^^^ wordBits r).toInt
  | .or => some (wordBits l ||| wordBits r).toInt
  | .logicalAnd => some (flagWord (l != 0 && r != 0))
  | .logicalOr => some (flagWord (l != 0 || r != 0))
  | _ => none

/-- The outcome of a comparison of floating values. -/
def compareFloats (op : BinaryOp) (l r : Binary64) : Option Bool :=
  match op with
  | .less => some (l.lt r)
  | .greater => some (r.lt l)
  | .lessEqual => some (l.le r)
  | .greaterEqual => some (r.le l)
  | .equal => some (l.eq r)
  | .notEqual => some (!l.eq r)
  | _ => none

/-- The value of an operator on floating constants; a comparison gives zero or one. Division by zero
has none. -/
def onFloats (op : BinaryOp) (l r : Binary64) : Option Binary64 :=
  match op with
  | .mul => some (l.mul r)
  | .div => if r.isZero then none else some (l.div r)
  | .add => some (l.add r)
  | .sub => some (l.sub r)
  | _ => (op.compareFloats l r).map fun b => .ofInt (flagWord b)

end BinaryOp

end BilingualC
