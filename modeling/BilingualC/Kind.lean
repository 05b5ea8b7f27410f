/-!
# Kinds of nodes

The type of a node is the number of its kind. A number that no kind has is kept as `unlisted`.
-/

namespace BilingualC

/-- What a node of the program tree stands for. -/
inductive Kind where
  | unit
  | functionDefinition
  | declaration
  | variable
  | typeDefinition
  | block
  | null
  | label
  | caseLabel
  | defaultLabel
  | ifElse
  | switching
  | whileLoop
  | doWhile
  | forLoop
  | jump
  | continuing
  | breaking
  | returning
  | identifier
  | literal
  | string
  | cast
  | subscript
  | call
  | builtin
  | member
  | unary
  | binary
  | assignment
  | ternary
  | initializer
  | emptyBound
  /-- A number that the table does not list. -/
  | unlisted (number : Int)
deriving DecidableEq, Repr

namespace Kind

/-- All kinds in the order of their numbers, which start at 0. -/
def all : List Kind := [
  .unit, .functionDefinition, .declaration, .variable, .typeDefinition, .block, .null, .label,
  .caseLabel, .defaultLabel, .ifElse, .switching, .whileLoop, .doWhile, .forLoop, .jump,
  .continuing, .breaking, .returning, .identifier, .literal, .string, .cast, .subscript, .call,
  .builtin, .member, .unary, .binary, .assignment, .ternary, .initializer, .emptyBound]

def number : Kind → Int
  | .unit => 0
  | .functionDefinition => 1
  | .declaration => 2
  | .variable => 3
  | .typeDefinition => 4
  | .block => 5
  | .null => 6
  | .label => 7
  | .caseLabel => 8
  | .defaultLabel => 9
  | .ifElse => 10
  | .switching => 11
  | .whileLoop => 12
  | .doWhile => 13
  | .forLoop => 14
  | .jump => 15
  | .continuing => 16
  | .breaking => 17
  | .returning => 18
  | .identifier => 19
  | .literal => 20
  | .string => 21
  | .cast => 22
  | .subscript => 23
  | .call => 24
  | .builtin => 25
  | .member => 26
  | .unary => 27
  | .binary => 28
  | .assignment => 29
  | .ternary => 30
  | .initializer => 31
  | .emptyBound => 32
  | .unlisted n => n

def ofNumber (n : Int) : Kind :=
  if n < 0 then .unlisted n else all.getD n.toNat (.unlisted n)

/-- How a kind is named in messages. -/
def name : Kind → String
  | .unit => "Unit"
  | .functionDefinition => "FuncDef"
  | .declaration => "Declaration"
  | .variable => "DeclVar"
  | .typeDefinition => "DeclType"
  | .block => "Block"
  | .null => "Nop"
  | .label => "Label"
  | .caseLabel => "Case"
  | .defaultLabel => "Default"
  | .ifElse => "If"
  | .switching => "Switch"
  | .whileLoop => "While"
  | .doWhile => "Do"
  | .forLoop => "For"
  | .jump => "Goto"
  | .continuing => "Continue"
  | .breaking => "Break"
  | .returning => "Return"
  | .identifier => "Identifier"
  | .literal => "Literal"
  | .string => "String"
  | .cast => "Cast"
  | .subscript => "Subscript"
  | .call => "Call"
  | .builtin => "Builtin"
  | .member => "Member"
  | .unary => "Unary"
  | .binary => "Binary"
  | .assignment => "Assignment"
  | .ternary => "Ternary"
  | .initializer => "Initializer"
  | .emptyBound => "EmptyBound"
  | .unlisted _ => "Unknown"

/-- Says whether a node of the kind has a type and a category. -/
def isExpression : Kind → Bool
  | .identifier | .literal | .string | .cast | .subscript | .call | .builtin | .member | .unary
  | .binary | .assignment | .ternary | .initializer | .emptyBound => true
  | _ => false

end Kind

end BilingualC
