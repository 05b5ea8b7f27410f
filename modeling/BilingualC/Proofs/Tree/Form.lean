import Mathlib
import BilingualC.Proofs.Arena.Block
import BilingualC.Proofs.TypeTable
import BilingualC.Session

/-!
# Forms of program trees

`IsExpr`, `IsStatement` and their companions say which trees stand for expressions, statements,
declarations and functions. They look at kinds, operators and the stored types only. What a tree
demands of the tables of its session is said node by node (`Session.Accepts`), so that it stays true
when the tables grow.
-/

namespace BilingualC

/-- The operators that give a value and leave their operand alone. -/
def UnaryOp.givesValue : UnaryOp → Bool
  | .minus | .complement | .logicalNot | .absolute => true
  | _ => false

/-- The operators that change their operand. -/
def UnaryOp.steps : UnaryOp → Bool
  | .postIncrement | .postDecrement | .preIncrement | .preDecrement => true
  | _ => false

/-- The operators that store, with or without an operation before it. -/
def BinaryOp.stores : BinaryOp → Bool
  | .unlisted _ => false
  | op => op.isAssignment

/-- The operators that need both operands and give a value. -/
def BinaryOp.givesValue : BinaryOp → Bool
  | .comma | .unlisted _ => false
  | op => !op.isAssignment && !op.isLogical

def Builtin.isListed : Builtin → Bool
  | .unlisted _ => false
  | _ => true

namespace Rose

/-- The type of an expression. -/
def exprType (r : Rose) : Int := r.arg 0

/-- Says whether an expression designates a place. -/
def isPlace (r : Rose) : Bool := r.arg 1 == Category.place.word

def unaryOp (r : Rose) : UnaryOp := .ofNumber (r.arg 2)
def binaryOp (r : Rose) : BinaryOp := .ofNumber (r.arg 2)
def builtin (r : Rose) : Builtin := .ofNumber (r.arg 2)

/-! ## Expressions -/

/-- The trees of expressions. An operation on floating values has an instruction for them, a
conversion goes from an integer to a floating value, and only a tree that has an address is a
place. -/
inductive IsExpr : Rose → Prop
  | literal {r : Rose} (kind : r.kind = .literal) (value : r.isPlace = false)
      (kids : r.children = []) : IsExpr r
  | string {r : Rose} (kind : r.kind = .string) (value : r.isPlace = false)
      (kids : r.children = []) : IsExpr r
  | identifier {r : Rose} (kind : r.kind = .identifier) (kids : r.children = []) : IsExpr r
  | cast {r e : Rose} (kind : r.kind = .cast) (value : r.isPlace = false) (kids : r.children = [e])
      (operand : IsExpr e) (source : TypeId.isInteger (r.arg 2) = true)
      (target : TypeId.isFloating r.exprType = true) : IsExpr r
  | subscript {r b x : Rose} (kind : r.kind = .subscript) (kids : r.children = [b, x])
      (base : IsExpr b) (index : IsExpr x) : IsExpr r
  | call {r f : Rose} {args : List Rose} (kind : r.kind = .call) (value : r.isPlace = false)
      (kids : r.children = f :: args) (callee : f.kind = .identifier) (leaf : f.children = [])
      (all : ∀ a ∈ args, IsExpr a) : IsExpr r
  | member {r b : Rose} (kind : r.kind = .member) (kids : r.children = [b]) (base : IsExpr b)
      (place : r.isPlace = true → r.arg 3 ≠ 0 ∨ b.isPlace = true) : IsExpr r
  | address {r e : Rose} (kind : r.kind = .unary)
      (value : r.isPlace = false) (kids : r.children = [e])
      (op : r.unaryOp = .address) (operand : IsExpr e) (place : e.isPlace = true) : IsExpr r
  | indirection {r e : Rose} (kind : r.kind = .unary) (kids : r.children = [e])
      (op : r.unaryOp = .indirection) (operand : IsExpr e) : IsExpr r
  | step {r e : Rose} (kind : r.kind = .unary) (value : r.isPlace = false) (kids : r.children = [e])
      (op : r.unaryOp.steps = true) (operand : IsExpr e) (place : e.isPlace = true) : IsExpr r
  | unary {r e : Rose} (kind : r.kind = .unary) (value : r.isPlace = false)
      (kids : r.children = [e]) (op : r.unaryOp.givesValue = true) (operand : IsExpr e)
      (integer : r.unaryOp = .complement → TypeId.isFloating e.exprType = false) : IsExpr r
  | comma {r l e : Rose} (kind : r.kind = .binary) (value : r.isPlace = false)
      (kids : r.children = [l, e]) (op : r.binaryOp = .comma) (left : IsExpr l)
      (right : IsExpr e) : IsExpr r
  | logical {r l e : Rose} (kind : r.kind = .binary) (value : r.isPlace = false)
      (kids : r.children = [l, e]) (op : r.binaryOp.isLogical = true) (left : IsExpr l)
      (right : IsExpr e) : IsExpr r
  | binary {r l e : Rose} (kind : r.kind = .binary) (value : r.isPlace = false)
      (kids : r.children = [l, e]) (op : r.binaryOp.givesValue = true) (left : IsExpr l)
      (right : IsExpr e)
      (integer : r.binaryOp.isIntegerOnly = true → TypeId.isFloating l.exprType = false) : IsExpr r
  | assignment {r t v : Rose} (kind : r.kind = .assignment) (value : r.isPlace = false)
      (kids : r.children = [t, v]) (op : r.binaryOp.stores = true) (target : IsExpr t)
      (stored : IsExpr v) (place : t.isPlace = true)
      (integer : r.binaryOp.isIntegerOnly = true → TypeId.isFloating r.exprType = false) : IsExpr r
  | ternary {r c y n : Rose} (kind : r.kind = .ternary) (value : r.isPlace = false)
      (kids : r.children = [c, y, n]) (test : IsExpr c) (yes : IsExpr y) (no : IsExpr n) : IsExpr r
  | library {r : Rose} (kind : r.kind = .builtin) (value : r.isPlace = false)
      (listed : r.builtin.isListed = true) (all : ∀ c ∈ r.children, IsExpr c) : IsExpr r

/-- The trees of initializers: expressions and lists of initializers. -/
inductive IsInitializer : Rose → Prop
  | expr {r : Rose} (expr : IsExpr r) : IsInitializer r
  | list {r : Rose} (kind : r.kind = .initializer) (all : ∀ c ∈ r.children, IsInitializer c) :
      IsInitializer r

/-- The bound of an array: left open, or an expression. -/
def IsBound (r : Rose) : Prop := (r.kind = .emptyBound ∧ r.children = []) ∨ IsExpr r

/-- The trees of variable declarations: the bounds and the initializer, if there is one. -/
structure IsVariable (r : Rose) (bounds : List Rose) (init : Option Rose) : Prop where
  kind : r.kind = .variable
  kids : r.children = bounds ++ init.toList
  count : r.arg 1 = bounds.length
  flag : r.arg 2 = flagWord init.isSome
  bounds : ∀ b ∈ bounds, IsBound b
  init : ∀ i ∈ init, IsInitializer i

/-- The trees of declarations. -/
structure IsDeclaration (r : Rose) : Prop where
  kind : r.kind = .declaration
  all : ∀ c ∈ r.children,
    (c.kind = .typeDefinition ∧ c.children = []) ∨ ∃ bounds init, IsVariable c bounds init

/-! ## Statements -/

/-- The trees of statements, inside a loop or not and inside a switch or not. -/
inductive IsStatement : Bool → Bool → Rose → Prop
  | block {loop switch : Bool} {r : Rose} (kind : r.kind = .block)
      (all : ∀ c ∈ r.children, IsStatement loop switch c) : IsStatement loop switch r
  | null {loop switch : Bool} {r : Rose} (kind : r.kind = .null) (leaf : r.children = []) :
      IsStatement loop switch r
  | declaration {loop switch : Bool} {r : Rose} (declaration : IsDeclaration r) :
      IsStatement loop switch r
  | ifOnly {loop switch : Bool} {r c y : Rose} (kind : r.kind = .ifElse) (flag : r.arg 0 = 0)
      (kids : r.children = [c, y]) (test : IsExpr c) (yes : IsStatement loop switch y) :
      IsStatement loop switch r
  | ifElse {loop switch : Bool} {r c y n : Rose} (kind : r.kind = .ifElse) (flag : r.arg 0 ≠ 0)
      (kids : r.children = [c, y, n]) (test : IsExpr c) (yes : IsStatement loop switch y)
      (no : IsStatement loop switch n) : IsStatement loop switch r
  | whileLoop {loop switch : Bool} {r c b : Rose} (kind : r.kind = .whileLoop)
      (kids : r.children = [c, b]) (test : IsExpr c) (body : IsStatement true switch b) :
      IsStatement loop switch r
  | doWhile {loop switch : Bool} {r b c : Rose} (kind : r.kind = .doWhile)
      (kids : r.children = [b, c]) (body : IsStatement true switch b) (test : IsExpr c) :
      IsStatement loop switch r
  | forLoop {loop switch : Bool} {r b : Rose} {init cond step : Option Rose}
      (kind : r.kind = .forLoop)
      (kids : r.children = init.toList ++ cond.toList ++ step.toList ++ [b])
      (hasInit : r.arg 0 = flagWord init.isSome) (hasCond : r.arg 1 = flagWord cond.isSome)
      (hasStep : r.arg 2 = flagWord step.isSome) (init : ∀ i ∈ init, IsDeclaration i ∨ IsExpr i)
      (cond : ∀ c ∈ cond, IsExpr c) (step : ∀ s ∈ step, IsExpr s)
      (body : IsStatement true switch b) : IsStatement loop switch r
  | switching {loop switch : Bool} {r c b : Rose} (kind : r.kind = .switching)
      (kids : r.children = [c, b]) (value : IsExpr c) (body : IsStatement loop true b) :
      IsStatement loop switch r
  | caseLabel {loop : Bool} {r v b : Rose} (kind : r.kind = .caseLabel)
      (kids : r.children = [v, b]) (value : IsExpr v) (body : IsStatement loop true b) :
      IsStatement loop true r
  | defaultLabel {loop : Bool} {r b : Rose} (kind : r.kind = .defaultLabel)
      (kids : r.children = [b]) (body : IsStatement loop true b) : IsStatement loop true r
  | breaking {loop switch : Bool} {r : Rose} (kind : r.kind = .breaking)
      (inside : loop = true ∨ switch = true) (leaf : r.children = []) : IsStatement loop switch r
  | continuing {switch : Bool} {r : Rose} (kind : r.kind = .continuing) (leaf : r.children = []) :
      IsStatement true switch r
  | jump {loop switch : Bool} {r : Rose} (kind : r.kind = .jump) (leaf : r.children = []) :
      IsStatement loop switch r
  | label {loop switch : Bool} {r b : Rose} (kind : r.kind = .label) (kids : r.children = [b])
      (body : IsStatement loop switch b) : IsStatement loop switch r
  | returnVoid {loop switch : Bool} {r : Rose} (kind : r.kind = .returning)
      (kids : r.children = []) : IsStatement loop switch r
  | returnValue {loop switch : Bool} {r e : Rose} (kind : r.kind = .returning)
      (kids : r.children = [e]) (value : IsExpr e) : IsStatement loop switch r
  | expr {loop switch : Bool} {r : Rose} (expr : IsExpr r) : IsStatement loop switch r

/-- The trees of function definitions. -/
structure IsFunction (r body : Rose) : Prop where
  kind : r.kind = .functionDefinition
  kids : r.children = [body]
  body : IsStatement false false body

/-- The trees that may stand under the root. -/
def IsPart (r : Rose) : Prop := IsDeclaration r ∨ ∃ body, IsFunction r body

end Rose

/-! ## Reading -/

namespace Arena.Has

variable {t : Arena} {r : Rose}

theorem payload (h : t.Has r) : t.payload (t.handle r.index) = .ok (r.arg 2) := h.arg 2

theorem unaryOp (h : t.Has r) : t.unaryOp (t.handle r.index) = .ok r.unaryOp := by
  rw [Arena.unaryOp, h.payload]
  rfl

theorem binaryOp (h : t.Has r) : t.binaryOp (t.handle r.index) = .ok r.binaryOp := by
  rw [Arena.binaryOp, h.payload]
  rfl

theorem builtinOf (h : t.Has r) : t.builtinOf (t.handle r.index) = .ok r.builtin := by
  rw [Arena.builtinOf, h.payload]
  rfl

theorem isPlace (h : t.Has r) : t.isPlace (t.handle r.index) = .ok r.isPlace := by
  have found : t.arg (t.handle r.index) 1 = .ok (r.arg 1) := h.arg 1
  rw [Arena.isPlace, found]
  rfl

theorem throughPointer (h : t.Has r) :
    t.throughPointer (t.handle r.index) = .ok (r.arg 3 != 0) := by
  have found : t.arg (t.handle r.index) 3 = .ok (r.arg 3) := h.arg 3
  rw [Arena.throughPointer, found]
  rfl

theorem flagAt (h : t.Has r) (k : Nat) : t.flagAt (t.handle r.index) k = .ok (r.arg k != 0) := by
  rw [Arena.flagAt, h.arg k]
  rfl

end Arena.Has

/-! ## Demands on the session -/

namespace Session

/-- Says whether a number names a function of the program. -/
def IsFunction (s : Session) (id : Int) : Prop :=
  (s.identifier id).kind = .function ∧ 0 ≤ (s.identifier id).displacement ∧
    (s.identifier id).displacement < s.functions.size

/-- Says whether a number names a label. -/
def IsLabel (s : Session) (id : Int) : Prop :=
  0 < id ∧ id < s.identifiers.size ∧ (s.identifier id).kind = .label

/-- What a node demands of the tables: its type is known, a list that initializes a variable without
bounds is for a structure, a function is called, a label is a label, and nothing else mentions
one. -/
structure NodeOk (s : Session) (r : Rose) : Prop where
  type : r.kind.isExpression = true → s.types.Valid r.exprType
  declared : r.kind = .variable → s.types.Valid (s.identifier (r.arg 0)).type ∧
    (s.identifier (r.arg 0)).kind ≠ .label
  list : r.kind = .variable → r.arg 1 = 0 → ∀ i ∈ r.children, i.kind = .initializer →
    s.types.isStructure (s.identifier (r.arg 0)).type = true
  callee : r.kind = .call → s.IsFunction ((r.children.headD default).arg 2)
  named : r.kind = .identifier → (s.identifier (r.arg 2)).kind ≠ .label
  jump : r.kind = .jump → s.IsLabel (r.arg 0)
  label : r.kind = .label → s.IsLabel (r.arg 0)
  function : r.kind = .functionDefinition → s.IsFunction (r.arg 0)

/-- The tables meet the demands of all nodes of a tree. -/
def Accepts (s : Session) (r : Rose) : Prop := ∀ x ∈ r.nodes, s.NodeOk x

theorem Accepts.self {s : Session} {r : Rose} (h : s.Accepts r) : s.NodeOk r := h r r.mem_nodes_self

theorem Accepts.child {s : Session} {r c : Rose} (h : s.Accepts r) (mem : c ∈ r.children) :
    s.Accepts c := fun x hx => h x (Rose.mem_nodes_child mem hx)

end Session

end BilingualC
