import Mathlib
import BilingualC.Proofs.Reading.Whole
import BilingualC.Proofs.TypeTable.Defined

/-!
# Types of expressions

In a program without errors the type of every expression is defined (`Session.Ruled.defined`). The
rule of a node gives its type from those of its operands, of a declaration, or of a signature;
declarations have defined types, and the parts of a defined type are defined. Lists in braces are
left out, because a list that was matched with nothing has no type; but they stand in initializers
only (`Rose.IsPart.isExpr`).
-/

namespace BilingualC

/-! ## Expressions in a tree -/

namespace Rose

variable {r body : Rose}

/-- A property of all nodes. -/
theorem forall_nodes {P : Rose → Prop} (self : P r) (below : ∀ c ∈ r.children, ∀ x ∈ c.nodes, P x) :
    ∀ x ∈ r.nodes, P x := by
  intro x mem
  rw [nodes_eq, List.mem_cons, List.mem_flatMap] at mem
  rcases mem with rfl | ⟨c, child, inside⟩
  · exact self
  · exact below c child x inside

/-- Every node of an expression is an expression. -/
theorem isExpr_of_mem (expr : IsExpr r) : ∀ x ∈ r.nodes, IsExpr x := by
  have whole := expr
  induction expr with
  | literal _ _ kids | string _ _ kids | identifier _ kids =>
    exact forall_nodes whole (by simp [kids])
  | cast _ _ kids operand _ _ ih | member _ kids operand _ ih | address _ _ kids _ operand _ ih
      | indirection _ kids _ operand ih
  | step _ _ kids _ operand _ ih | unary _ _ kids _ operand _ ih =>
    exact forall_nodes whole (by simpa [kids] using ih operand)
  | subscript _ kids left right first second | comma _ _ kids _ left right first second
  | logical _ _ kids _ left right first second | binary _ _ kids _ left right _ first second
  | assignment _ _ kids _ left right _ _ first second =>
    exact forall_nodes whole (by simpa [kids] using ⟨first left, second right⟩)
  | ternary _ _ kids test yes no first second third =>
    exact forall_nodes whole (by simpa [kids] using ⟨first test, second yes, third no⟩)
  | @call r f args _ _ kids callee leaf all each =>
    have name : ∀ x ∈ f.nodes, IsExpr x := forall_nodes (.identifier callee leaf) (by simp [leaf])
    refine forall_nodes whole fun c child => ?_
    rw [kids, List.mem_cons] at child
    rcases child with rfl | argument
    · exact name
    · exact each c argument (all c argument)
  | library _ _ _ all each => exact forall_nodes whole fun c child => each c child (all c child)

/-- All library calls in a tree are expressions. -/
def CallsLibrary (r : Rose) : Prop := ∀ x ∈ r.nodes, x.kind = .builtin → IsExpr x

theorem IsExpr.callsLibrary (expr : IsExpr r) : r.CallsLibrary :=
  fun x mem _ => isExpr_of_mem expr x mem

theorem callsLibrary_node {kind : Kind} (same : r.kind = kind) (other : kind ≠ .builtin)
    (below : ∀ c ∈ r.children, c.CallsLibrary) : r.CallsLibrary :=
  forall_nodes (fun library => absurd (same.symm.trans library) other) below

theorem IsInitializer.callsLibrary (init : IsInitializer r) : r.CallsLibrary := by
  induction init with
  | expr expr => exact expr.callsLibrary
  | list kind _ each => exact callsLibrary_node kind (by decide) each

theorem IsDeclaration.callsLibrary (form : IsDeclaration r) : r.CallsLibrary := by
  refine callsLibrary_node form.kind (by decide) fun c child => ?_
  rcases form.all c child with ⟨kind, leaf⟩ | ⟨bounds, init, isVariable⟩
  · exact callsLibrary_node kind (by decide) (by simp [leaf])
  · refine callsLibrary_node isVariable.kind (by decide) fun d inside => ?_
    rw [isVariable.kids, List.mem_append, Option.mem_toList] at inside
    rcases inside with bound | value
    · rcases isVariable.bounds d bound with ⟨kind, leaf⟩ | expr
      · exact callsLibrary_node kind (by decide) (by simp [leaf])
      · exact expr.callsLibrary
    · exact (isVariable.init d value).callsLibrary

theorem IsStatement.callsLibrary {inLoop inSwitch : Bool} (form : IsStatement inLoop inSwitch r) :
    r.CallsLibrary := by
  induction form with
  | block kind _ each => exact callsLibrary_node kind (by decide) each
  | null kind leaf | breaking kind _ leaf | continuing kind leaf | jump kind leaf
      | returnVoid kind leaf =>
    exact callsLibrary_node kind (by decide) (by simp [leaf])
  | declaration form => exact form.callsLibrary
  | ifOnly kind _ kids test _ yes =>
    exact callsLibrary_node kind (by decide) (by simpa [kids] using ⟨test.callsLibrary, yes⟩)
  | ifElse kind _ kids test _ _ yes no =>
    exact callsLibrary_node kind (by decide) (by simpa [kids] using ⟨test.callsLibrary, yes, no⟩)
  | whileLoop kind kids test _ body | switching kind kids test _ body
      | caseLabel kind kids test _ body =>
    exact callsLibrary_node kind (by decide) (by simpa [kids] using ⟨test.callsLibrary, body⟩)
  | doWhile kind kids _ test body =>
    exact callsLibrary_node kind (by decide) (by simpa [kids] using ⟨body, test.callsLibrary⟩)
  | forLoop kind kids _ _ _ init cond step _ body =>
    refine callsLibrary_node kind (by decide) fun c child => ?_
    simp only [kids, List.mem_append, Option.mem_toList, List.mem_singleton] at child
    rcases child with ((first | test) | next) | rfl
    · rcases init c first with declared | expr
      · exact declared.callsLibrary
      · exact expr.callsLibrary
    · exact (cond c test).callsLibrary
    · exact (step c next).callsLibrary
    · exact body
  | defaultLabel kind kids _ body | label kind kids _ body =>
    exact callsLibrary_node kind (by decide) (by simpa [kids] using body)
  | returnValue kind kids value =>
    exact callsLibrary_node kind (by decide) (by simpa [kids] using value.callsLibrary)
  | expr expr => exact expr.callsLibrary

/-- The library calls in a part of a program are expressions. -/
theorem IsPart.callsLibrary (part : IsPart r) : r.CallsLibrary := by
  rcases part with declared | ⟨body, form⟩
  · exact declared.callsLibrary
  · exact callsLibrary_node form.kind (by decide)
      (by simpa [form.kids] using form.body.callsLibrary)

end Rose

/-! ## Defined types -/

namespace Session

open Rose TypeTable

variable {ok : Fault → Prop} {s : Session} {names : NameEnds} {str : TypeId} {x : Rose}

theorem rule_self (ruled : s.Ruled names str x) : s.Rule names str x := ruled x x.mem_nodes_self

/-- The type of a library call. -/
theorem LibraryRule.defined (rule : s.LibraryRule str x) : s.types.Defined x.exprType := by
  obtain ⟨-, rule⟩ := rule
  have scalar {id : Int} (same : x.exprType = id) (low : id < 0) : s.types.Defined x.exprType :=
    .scalar (same ▸ low)
  cases b : x.builtin <;> simp only [b] at rule
  all_goals exact scalar rule.1 (by simp [Checker.signature, TypeId.void, TypeId.int, TypeId.float])

/-- The type of a name. -/
theorem NameRule.defined (rule : s.NameRule x) (tables : s.Tables) :
    s.types.Defined x.exprType := by
  obtain ⟨⟨low, high⟩, type, category⟩ := rule
  rw [type]
  refine tables.defined _ low high ?_
  rcases category with ⟨-, kind⟩ | ⟨-, kind⟩
  · exact ⟨by simp [kind], by simp [kind]⟩
  · exact ⟨by simp [kind], by simp [kind]⟩

/-- An operator other than a comma gives a number. -/
theorem BinaryRule.defined {l r : Rose} (rule : s.BinaryRule x l r) (other : x.binaryOp ≠ .comma) :
    s.types.Defined x.exprType := by
  have int (same : x.exprType = TypeId.int) : s.types.Defined x.exprType :=
    .scalar (same ▸ by decide)
  have float (same : x.exprType = TypeId.float) : s.types.Defined x.exprType :=
    .scalar (same ▸ by decide)
  obtain ⟨-, rule⟩ := rule
  cases op : x.binaryOp <;> simp only [op] at rule
  case comma => exact absurd op other
  case mul | div | add | sub =>
    exact rule.elim (fun both => float both.2.2) fun both => int both.2.2
  case equal | notEqual | less | greater | lessEqual | greaterEqual => exact int rule.2
  all_goals exact int rule.2.2

/-- A type with a defined target is defined. -/
theorem defined_of_element {id e : Int} (named : s.types.Named id)
    (pointer : s.types.isPointer id = true)
    (target : s.types.element id = .ok e) (defined : s.types.Defined e) : s.types.Defined id := by
  obtain ⟨-, low⟩ | ⟨r, holds⟩ := named.cases
  · simp [isPointer, form_of_scalar low] at pointer
  · rw [holds.isPointer] at pointer
    rw [holds.element] at target
    cases r with
    | pointer target' =>
      cases target
      exact .record holds.pos holds.recordAt
        (by simpa [TypeRecord.components, TypeRecord.element] using defined)
    | array _ | function _ _ | struct _ _ => simp [TypeRecord.form] at pointer

/-- The type of an expression in a program without errors is defined. -/
theorem Ruled.defined (ruled : s.Ruled names str x) (tables : s.Tables)
    (string : s.types.Holds str (.array TypeId.char)) (expr : x.IsExpr)
    (operand : s.types.Operand ok x) : s.types.Defined x.exprType := by
  -- by induction on the expression: the rule of a node says which type it takes from below
  induction expr with
  | literal kind => exact defined_arithmetic (rule_self ruled |>.literal kind).2.1
  | string kind _ kids =>
    have rule := rule_self ruled
    simp only [Rule, kind, kids] at rule
    rw [rule.1]
    refine .record string.pos string.recordAt fun e mem => ?_
    rw [List.mem_singleton.mp mem]
    exact .scalar (by decide)
  | identifier kind kids =>
    have rule := rule_self ruled
    simp only [Rule, kind, kids] at rule
    exact rule.defined tables
  | cast kind _ kids =>
    have rule := rule_self ruled
    simp only [Rule, kind, kids] at rule
    exact defined_arithmetic (by simp [TypeId.isArithmetic, rule.1])
  | @subscript r b i kind kids _ _ ih =>
    have child : b ∈ r.children := by simp [kids]
    have rule := rule_self ruled
    simp only [Rule, kind, kids] at rule
    exact (ih (ruled.child child) (operand.child child)).element (operand.child child).node.type
      (.inr rule.1) rule.2.1
  | @call r f args kind _ kids callee leaf =>
    have child : f ∈ r.children := by simp [kids]
    have rule := rule_self ruled
    have name := rule_self (ruled.child child)
    simp only [Rule, kind, kids] at rule
    simp only [Rule, callee, leaf] at name
    obtain ⟨-, -, isFunction, result, -⟩ := rule
    exact (name.defined tables).result (operand.child child).node.type isFunction result
  | @member r b kind kids _ _ ih =>
    have child : b ∈ r.children := by simp [kids]
    have base := ih (ruled.child child) (operand.child child)
    have named := (operand.child child).node.type
    have rule := rule_self ruled
    simp only [Rule, kind, kids] at rule
    obtain ⟨owner, name, -, -, found, how⟩ := rule
    -- the field is one of the operand or, behind an arrow, of what the operand points to
    rcases how with ⟨-, rfl, -⟩ | ⟨-, pointer, target, -⟩
    · exact base.member named found
    · obtain ⟨e, read, owned, -⟩ := named.element
      rw [read] at target
      cases target
      exact (base.element named (.inl pointer) read).member owned found
  | @address r e kind _ kids op _ _ ih =>
    have child : e ∈ r.children := by simp [kids]
    have rule := rule_self ruled
    simp only [Rule, kind, kids, UnaryRule, op] at rule
    exact defined_of_element operand.node.type rule.2.1 rule.2.2.1
      (ih (ruled.child child) (operand.child child))
  | @indirection r e kind kids op _ ih =>
    have child : e ∈ r.children := by simp [kids]
    have rule := rule_self ruled
    simp only [Rule, kind, kids, UnaryRule, op] at rule
    exact (ih (ruled.child child) (operand.child child)).element (operand.child child).node.type
      (.inl rule.1) rule.2.1
  | @step r e kind _ kids op _ _ ih =>
    have rule := rule_self ruled
    simp only [Rule, kind, kids, UnaryRule] at rule
    cases same : r.unaryOp <;> simp only [same, UnaryOp.steps, reduceCtorEq] at rule op
    all_goals exact defined_arithmetic (rule.2.2.1 ▸ rule.2.1)
  | @unary r e kind _ kids op _ _ ih =>
    have rule := rule_self ruled
    simp only [Rule, kind, kids, UnaryRule] at rule
    cases same : r.unaryOp <;> simp only [same, UnaryOp.givesValue, reduceCtorEq] at rule op
    case minus | absolute => exact defined_arithmetic (rule.2.1 ▸ rule.1)
    case complement | logicalNot => exact .scalar (by rw [rule.2.1]; decide)
  | @comma r l e kind _ kids op _ _ first second =>
    have child : e ∈ r.children := by simp [kids]
    have rule := rule_self ruled
    simp only [Rule, kind, kids, BinaryRule, op] at rule
    rw [rule.2]
    exact second (ruled.child child) (operand.child child)
  | @logical r l e kind _ kids op | @binary r l e kind _ kids op =>
    have rule := rule_self ruled
    simp only [Rule, kind, kids] at rule
    refine rule.defined fun comma => ?_
    rw [comma] at op
    cases op
  | @assignment r t v kind _ kids _ _ _ _ _ first =>
    have child : t ∈ r.children := by simp [kids]
    have rule := rule_self ruled
    simp only [Rule, kind, kids] at rule
    obtain ⟨-, -, -, -, same, -⟩ := rule
    rw [same]
    exact first (ruled.child child) (operand.child child)
  | @ternary r c y n kind _ kids _ _ _ _ second =>
    have child : y ∈ r.children := by simp [kids]
    have rule := rule_self ruled
    simp only [Rule, kind, kids] at rule
    rcases rule.2.2 with ⟨-, -, type⟩ | ⟨-, -, type⟩ | ⟨type, -⟩
    · exact .scalar (by rw [type]; decide)
    · exact .scalar (by rw [type]; decide)
    · rw [type]
      exact second (ruled.child child) (operand.child child)
  | library kind =>
    have rule := rule_self ruled
    simp only [Rule, kind] at rule
    exact rule.defined

end Session

end BilingualC
