import BilingualC.Arena
import BilingualC.Builtin
import BilingualC.Kind
import BilingualC.Operator
import BilingualC.Token
import BilingualC.TypeTable

/-!
# Nodes of the program tree

The arguments of a node end with its location. Those of an expression start with its type and its
category:

* identifier: type, category, declaration;
* literal: type, category, value (a floating value by its bits);
* string: type, category, place in the string table;
* cast: type, category, type of the operand;
* member: type, category, displacement, whether it is selected through a pointer;
* unary, binary, assignment: type, category, operator;
* library call: type, category, function;
* subscript, call, ternary, initializer, empty bound: type, category.

Function definitions carry their declaration and the size of their frame, variable declarations
their declaration, the number of bounds and whether there is an initializer, labels and jumps the
declaration of the label, and the other statements flags for their optional parts.
-/

namespace BilingualC

/-- Says whether an expression designates a place in memory. -/
inductive Category where
  | value
  | place
deriving DecidableEq, Repr

def Category.word : Category → Int
  | .value => 0
  | .place => 1

namespace Arena

def kind (t : Arena) (n : Handle) : Kind := .ofNumber (t.typeOf n)

/-- The location of a node; a node without arguments has none. -/
def location (t : Arena) (n : Handle) : Guarded Location := do
  let argc := t.argc n
  if argc < 2 then return .none
  return ⟨← t.arg n (argc - 2), ← t.arg n (argc - 1)⟩

/-- Writes an argument that may be missing. -/
def putArg (t : Arena) (n : Handle) (i value : Int) : Guarded Arena := do
  match ← t.setArg n i value with
  | .ok t => return t
  | .error _ => return t

/-- Writes the location of a node; a node without arguments is left alone. -/
def setLocation (t : Arena) (n : Handle) (loc : Location) : Guarded Arena := do
  let argc := t.argc n
  if argc < 2 then return t
  let t ← t.putArg n (argc - 2) loc.start
  t.putArg n (argc - 1) loc.stop

/-- Appends a node of a kind under another one. -/
def addNode (t : Arena) (above : Handle) (kind : Kind) (loc : Location) (args : List Int) :
    Guarded (Arena × Handle) :=
  t.addChild above kind.number (args ++ [loc.start, loc.stop])

/-! ## Expressions -/

def exprType (t : Arena) (n : Handle) : Guarded TypeId := t.arg n 0
def categoryWord (t : Arena) (n : Handle) : Guarded Int := t.arg n 1
def isPlace (t : Arena) (n : Handle) : Guarded Bool := return (← t.arg n 1) == Category.place.word

/-- The argument of an expression after its type and category. -/
def payload (t : Arena) (n : Handle) : Guarded Int := t.arg n 2

def unaryOp (t : Arena) (n : Handle) : Guarded UnaryOp := return .ofNumber (← t.payload n)
def binaryOp (t : Arena) (n : Handle) : Guarded BinaryOp := return .ofNumber (← t.payload n)
def builtinOf (t : Arena) (n : Handle) : Guarded Builtin := return .ofNumber (← t.payload n)

/-- Says whether a member is selected through a pointer. -/
def throughPointer (t : Arena) (n : Handle) : Guarded Bool := return (← t.arg n 3) != 0

/-- The value of a literal as a floating one; an integer is converted. -/
def literalFloat (t : Arena) (n : Handle) : Guarded Binary64 := do
  let word ← t.payload n
  return if TypeId.isFloating (← t.exprType n) then .ofWord word else .ofInt word

/-! ## Declarations and statements -/

/-- Says whether a flag of a statement or a declaration is set. -/
def flagAt (t : Arena) (n : Handle) (i : Int) : Guarded Bool := return (← t.arg n i) != 0

/-- The number of bounds of a variable declaration. -/
def boundCount (t : Arena) (n : Handle) : Guarded Int := t.arg n 1

def hasInitializer (t : Arena) (n : Handle) : Guarded Bool := t.flagAt n 2

/-- The initializer of a variable declaration, or a broken node. -/
def initializer (t : Arena) (n : Handle) : Guarded Handle := do
  if ← t.hasInitializer n then t.child n (← t.boundCount n) else return .broken

end Arena

end BilingualC
