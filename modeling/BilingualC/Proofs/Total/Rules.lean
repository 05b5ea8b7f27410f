import Mathlib
import BilingualC.Checker.Library
import BilingualC.Proofs.Guarded
import BilingualC.Proofs.Session.Regular
import BilingualC.Proofs.Tree.Form
import BilingualC.Proofs.Tree.Span

/-!
# Typing rules

`Session.Rule` is the typing rule of an expression node: what its type and its category are, and
what it demands of the types and categories of its children. A rule looks at the tables of the
session only, so it stays true when these go on (`Session.Operand.rules_later`).

`Session.Operand` is the part of it that every operand of the checker has at any time, also in the
middle of a conversion that fails: nodes of expressions with named types.
-/

namespace BilingualC

/-! ## Locations -/

/-- A location at an offset that thousands of the largest files can have. -/
structure Location.Near (loc : Location) : Prop where
  start : 0 ≤ loc.start ∧ loc.start ≤ 65536 * largestBlock
  stop : 0 ≤ loc.stop ∧ loc.stop ≤ 65536 * largestBlock

theorem Location.near_none : Location.none.Near := ⟨by decide, by decide⟩

theorem Location.Near.span {first last : Location} (a : first.Near) (b : last.Near) :
    (Location.span first last).Near :=
  ⟨a.start, b.stop⟩

/-! ## Values and places -/

namespace TypeId

/-- Says whether a value can be stored in a place of a type: a floating value in a floating place,
an integer in an integer place, and anything else in a place of its own type. -/
def Suits (want got : TypeId) : Prop :=
  (isFloating want = true ∧ isFloating got = true) ∨
    (isInteger want = true ∧ isInteger got = true) ∨ want = got

/-- Two operands are both floating or both integers. -/
def Alike (l r : TypeId) : Prop :=
  (isFloating l = true ∧ isFloating r = true) ∨ (isInteger l = true ∧ isInteger r = true)

end TypeId

namespace Session

open Rose

/-- Which names end where in the sources: an offset and the number of a spelling. -/
abbrev NameEnds := Int → Int → Prop

/-- The names among some tokens. -/
def nameEndsOf (tokens : List Token) : NameEnds :=
  fun stop name => ∃ tok ∈ tokens, tok.kind = .identifier ∧ tok.loc.stop = stop ∧
    tok.spelling = name

variable {ok : Fault → Prop} {s t : Session} {names : NameEnds} {str : TypeId} {x y : Rose}

/-! ## The rules -/

/-- A name: a variable is a place, a function is a value. -/
def NameRule (s : Session) (x : Rose) : Prop :=
  (0 < x.arg 2 ∧ x.arg 2 < s.identifiers.size) ∧ x.exprType = (s.identifier (x.arg 2)).type ∧
    ((x.isPlace = true ∧ (s.identifier (x.arg 2)).kind = .variable) ∨
      (x.isPlace = false ∧ (s.identifier (x.arg 2)).kind = .function))

/-- A selection of a field, from a structure or through a pointer to one. The field is the one whose
name ends where the selection ends. -/
def MemberRule (s : Session) (names : NameEnds) (x base : Rose) : Prop :=
  ∃ owner name, names x.location.stop name ∧ s.types.isStructure owner = true ∧
    s.types.member owner name = .ok (some (x.exprType, x.arg 2)) ∧
    ((x.arg 3 = 0 ∧ base.exprType = owner ∧ x.isPlace = base.isPlace) ∨
    (x.arg 3 = 1 ∧ s.types.isPointer base.exprType = true ∧
    s.types.element base.exprType = .ok owner ∧ x.isPlace = true))

/-- A unary operator. -/
def UnaryRule (s : Session) (x operand : Rose) : Prop :=
  match x.unaryOp with
  | .postIncrement | .postDecrement | .preIncrement | .preDecrement =>
    operand.isPlace = true ∧ TypeId.isArithmetic operand.exprType = true ∧
      x.exprType = operand.exprType ∧ x.isPlace = false
  | .address =>
    operand.isPlace = true ∧ s.types.isPointer x.exprType = true ∧
      s.types.element x.exprType = .ok operand.exprType ∧ x.isPlace = false
  | .indirection =>
    s.types.isPointer operand.exprType = true ∧ s.types.element operand.exprType = .ok x.exprType ∧
      x.isPlace = true
  | .minus | .absolute =>
    TypeId.isArithmetic operand.exprType = true ∧ x.exprType = operand.exprType ∧ x.isPlace = false
  | .complement =>
    TypeId.isInteger operand.exprType = true ∧ x.exprType = TypeId.int ∧ x.isPlace = false
  | .logicalNot =>
    s.types.isScalar operand.exprType = true ∧ x.exprType = TypeId.int ∧ x.isPlace = false
  | .unlisted _ => False

/-- A binary operator that gives a value. -/
def BinaryRule (s : Session) (x l r : Rose) : Prop :=
  x.isPlace = false ∧ match x.binaryOp with
  | .comma => x.exprType = r.exprType
  | .rem | .shl | .shr | .and | .xor | .or =>
    TypeId.isInteger l.exprType = true ∧ TypeId.isInteger r.exprType = true ∧
      x.exprType = TypeId.int
  | .logicalAnd | .logicalOr =>
    s.types.isScalar l.exprType = true ∧ s.types.isScalar r.exprType = true ∧
      x.exprType = TypeId.int
  | .equal | .notEqual =>
    (TypeId.Alike l.exprType r.exprType ∨
      (s.types.isPointer l.exprType = true ∧ l.exprType = r.exprType)) ∧ x.exprType = TypeId.int
  | .less | .greater | .lessEqual | .greaterEqual =>
    TypeId.Alike l.exprType r.exprType ∧ x.exprType = TypeId.int
  | .mul | .div | .add | .sub =>
    (TypeId.isFloating l.exprType = true ∧ TypeId.isFloating r.exprType = true ∧
      x.exprType = TypeId.float) ∨ (TypeId.isInteger l.exprType = true ∧
      TypeId.isInteger r.exprType = true ∧ x.exprType = TypeId.int)
  | _ => False

/-- An assignment. -/
def AssignmentRule (s : Session) (x target value : Rose) : Prop :=
  x.isPlace = false ∧ x.binaryOp.isAssignment = true ∧
    target.isPlace = true ∧ s.types.isArray target.exprType = false ∧
    x.exprType = target.exprType ∧ TypeId.Suits target.exprType value.exprType ∧
    (x.binaryOp ≠ .assign → TypeId.isArithmetic target.exprType = true ∧
    TypeId.isArithmetic value.exprType = true) ∧ (x.binaryOp.isIntegerOnly = true →
    TypeId.isInteger target.exprType = true ∧ TypeId.isInteger value.exprType = true)

/-- A call of a function of the program. -/
def CallRule (s : Session) (x callee : Rose) (args : List Rose) : Prop :=
  x.isPlace = false ∧ callee.kind = .identifier ∧ s.types.isFunction callee.exprType = true ∧
    s.types.result callee.exprType = .ok x.exprType ∧
    ∃ parameters, s.types.parameters callee.exprType = .ok parameters ∧
      List.Forall₂ (fun p a => TypeId.Suits p a.exprType) parameters args

/-- A conditional expression. -/
def TernaryRule (s : Session) (x cond l r : Rose) : Prop :=
  x.isPlace = false ∧ s.types.isScalar cond.exprType = true ∧
    ((TypeId.isFloating l.exprType = true ∧ TypeId.isFloating r.exprType = true ∧ x.exprType =
    TypeId.float) ∨ (TypeId.isInteger l.exprType = true ∧ TypeId.isInteger r.exprType = true ∧
    x.exprType = TypeId.int) ∨ (x.exprType = l.exprType ∧ l.exprType = r.exprType))

/-- What a library function wants in one place. -/
def Meets (s : Session) (want : Checker.Wanted) (arg : Rose) : Prop :=
  match want with
  | .type id => TypeId.Suits id arg.exprType
  | .anyArray => s.types.isArray arg.exprType = true

/-- A library call. -/
def LibraryRule (s : Session) (str : TypeId) (x : Rose) : Prop :=
  x.isPlace = false ∧ match x.builtin with
  | .printf =>
    x.exprType = TypeId.void ∧ ∃ format rest list, x.children = format :: rest ∧
      format.kind = .string ∧ Checker.conversions (s.stringAt (format.arg 2)) = .ok list ∧
      List.Forall₂ (fun c a => TypeId.Suits (c.type str) a.exprType) list rest
  | .print =>
    x.exprType = TypeId.void ∧ x.children ≠ [] ∧
      ∀ a ∈ x.children, s.types.isPointer a.exprType = false
  | .printid | .getid =>
    x.exprType = TypeId.void ∧ x.children ≠ [] ∧ ∀ a ∈ x.children, a.kind = .identifier ∧
      a.isPlace = true
  | .abs | .unlisted _ => False
  | b =>
    x.exprType = (Checker.signature str b).1 ∧
      List.Forall₂ (fun w a => s.Meets w a) (Checker.signature str b).2 x.children

/-- An element of a list suits a type: a list has taken it on. -/
def Matches (want : TypeId) (x : Rose) : Prop :=
  if x.kind = .initializer then x.exprType = want else TypeId.Suits want x.exprType

/-- A list in braces, which has the type that it was matched with. -/
def ListRule (s : Session) (x : Rose) : Prop :=
  x.isPlace = false ∧ (x.exprType = TypeId.undefined ∨
    (s.types.isStructure x.exprType = true ∧ ∃ fields, s.types.fields x.exprType = .ok fields ∧
      List.Forall₂ (fun f c => Matches f.type c) fields x.children) ∨
    (s.types.isArray x.exprType = true ∧ ∃ element, s.types.element x.exprType = .ok element ∧
      ∀ c ∈ x.children, Matches element c))

/-- The typing rule of an expression node. -/
def Rule (s : Session) (names : NameEnds) (str : TypeId) (x : Rose) : Prop :=
  match x.kind, x.children with
  | .identifier, [] => s.NameRule x
  | .literal, [] => TypeId.isArithmetic x.exprType = true ∧ x.isPlace = false
  | .string, [] => x.exprType = str ∧ x.isPlace = false
  | .cast, [e] =>
    TypeId.isFloating x.exprType = true ∧ TypeId.isInteger e.exprType = true ∧
      x.arg 2 = e.exprType ∧ x.isPlace = false
  | .subscript, [base, index] =>
    s.types.isArray base.exprType = true ∧ s.types.element base.exprType = .ok x.exprType ∧
      TypeId.isInteger index.exprType = true ∧ x.isPlace = true
  | .call, callee :: args => s.CallRule x callee args
  | .member, [base] => s.MemberRule names x base
  | .unary, [e] => s.UnaryRule x e
  | .binary, [l, r] => s.BinaryRule x l r
  | .assignment, [target, value] => s.AssignmentRule x target value
  | .ternary, [cond, l, r] => s.TernaryRule x cond l r
  | .builtin, _ => s.LibraryRule str x
  | .initializer, _ => s.ListRule x
  | .emptyBound, [] => x.exprType = TypeId.int ∧ x.isPlace = false
  | kind, _ => kind.isExpression = false

theorem Rule.literal (rule : s.Rule names str x) (kind : x.kind = .literal) :
    x.children = [] ∧ TypeId.isArithmetic x.exprType = true ∧ x.isPlace = false := by
  unfold Rule at rule
  rw [kind] at rule
  cases kids : x.children with
  | nil =>
    rw [kids] at rule
    exact ⟨rfl, rule⟩
  | cons y ys =>
    rw [kids] at rule
    cases rule

theorem rule_list (kind : x.kind = .initializer) : s.Rule names str x ↔ s.ListRule x := by
  unfold Rule
  rw [kind]

end Session

/-! ## Operands -/

namespace TypeTable

open Rose

variable {ok : Fault → Prop} {t u : TypeTable} {x y : Rose}

/-- A node of an expression with a named type. -/
structure ExprNode (ok : Fault → Prop) (t : TypeTable) (x : Rose) : Prop where
  kind : x.kind.isExpression = true
  long : 4 ≤ x.args.length
  word : x.kind = .literal → 5 ≤ x.args.length
  type : t.Named x.exprType
  near : Loose ok ∨ x.location.Near

/-- An expression all of whose nodes have named types. -/
def Operand (ok : Fault → Prop) (t : TypeTable) (x : Rose) : Prop := ∀ y ∈ x.nodes, t.ExprNode ok y

theorem Operand.node (operand : t.Operand ok x) : t.ExprNode ok x := operand x x.mem_nodes_self

theorem Operand.child (operand : t.Operand ok x) (mem : y ∈ x.children) : t.Operand ok y :=
  fun z inside => operand z (mem_nodes_child mem inside)

theorem operand_of_node (node : t.ExprNode ok x) (below : ∀ y ∈ x.children, t.Operand ok y) :
    t.Operand ok x := by
  intro y mem
  rw [nodes_eq, List.mem_cons, List.mem_flatMap] at mem
  rcases mem with rfl | ⟨z, child, inside⟩
  · exact node
  · exact below z child y inside

theorem Operand.continue (operand : t.Operand ok x) (continues : t.Continues u) (tiled : u.Tiled) :
    u.Operand ok x := by
  intro y mem
  have node := operand y mem
  exact ⟨node.kind, node.long, node.word, node.type.continue continues tiled, node.near⟩

end TypeTable

namespace Session

open Rose

variable {ok : Fault → Prop} {s t : Session} {names : NameEnds} {str : TypeId} {x y : Rose}

/-- Every expression node of a tree follows its rule. -/
def Ruled (s : Session) (names : NameEnds) (str : TypeId) (x : Rose) : Prop :=
  ∀ y ∈ x.nodes, s.Rule names str y

/-- A rule stays true if there are more names. -/
theorem Rule.mono {more : NameEnds} (rule : s.Rule names str x)
    (fewer : ∀ stop name, names stop name → more stop name) : s.Rule more str x := by
  unfold Rule at *
  split
  case h_7 base kind kids =>
    simp only [kind, kids] at rule
    obtain ⟨owner, name, ends, rest⟩ := rule
    exact ⟨owner, name, fewer _ _ ends, rest⟩
  all_goals simp_all only [and_self]

theorem Ruled.child (ruled : s.Ruled names str x) (mem : y ∈ x.children) : s.Ruled names str y :=
  fun z inside => ruled z (mem_nodes_child mem inside)

theorem ruled_of_node (rule : s.Rule names str x) (below : ∀ y ∈ x.children, s.Ruled names str y) :
    s.Ruled names str x := by
  intro y mem
  rw [nodes_eq, List.mem_cons, List.mem_flatMap] at mem
  rcases mem with rfl | ⟨z, child, inside⟩
  · exact rule
  · exact below z child y inside

/-! ## Tables that go on -/

section Later

variable (onward : s.Later t) (tiled : t.types.Tiled)

include onward

theorem NameRule.later (rule : s.NameRule x) : t.NameRule x := by
  obtain ⟨⟨low, high⟩, type, category⟩ := rule
  have more := onward.grows.more
  exact ⟨⟨low, by omega⟩, by rw [onward.grows.type high]; exact type,
    by rw [onward.grows.kind high]; exact category⟩

include tiled

theorem MemberRule.later {base : Rose} (baseNode : s.types.ExprNode ok base)
    (rule : s.MemberRule names x base) : t.MemberRule names x base := by
  obtain ⟨owner, name, ends, form, found, how⟩ := rule
  have owned : s.types.Named owner := by
    rcases how with ⟨_, same, _⟩ | ⟨_, pointer, target, _⟩
    · exact same ▸ baseNode.type
    · obtain ⟨e, read, named, _⟩ := baseNode.type.element
      rw [read] at target
      exact Except.ok.inj target ▸ named
  refine ⟨owner, name, ends, by rw [owned.isStructure_continue onward.grows.types]; exact form,
    by rw [owned.member_continue onward.grows.types tiled]; exact found,
      how.imp_right fun how => ?_⟩
  rw [baseNode.type.isPointer_continue onward.grows.types,
    baseNode.type.element_continue onward.grows.types tiled]
  exact how

theorem UnaryRule.later {operand : Rose} (node : s.types.ExprNode ok x)
    (below : s.types.ExprNode ok operand) (rule : s.UnaryRule x operand) :
    t.UnaryRule x operand := by
  unfold UnaryRule at *
  rw [node.type.isPointer_continue onward.grows.types, node.type.element_continue
    onward.grows.types tiled, below.type.isPointer_continue onward.grows.types,
    below.type.element_continue onward.grows.types tiled,
    below.type.isScalar_continue onward.grows.types]
  exact rule

theorem CallRule.later {callee : Rose} {args : List Rose} (node : s.types.ExprNode ok callee)
    (rule : s.CallRule x callee args) : t.CallRule x callee args := by
  unfold CallRule at *
  rw [node.type.isFunction_continue onward.grows.types, node.type.result_continue onward.grows.types
    tiled, node.type.parameters_continue onward.grows.types tiled]
  exact rule

theorem ListRule.later (node : s.types.ExprNode ok x) (rule : s.ListRule x) : t.ListRule x := by
  unfold ListRule at *
  rw [node.type.isStructure_continue onward.grows.types, node.type.fields_continue
    onward.grows.types tiled, node.type.isArray_continue onward.grows.types,
    node.type.element_continue onward.grows.types tiled]
  exact rule

omit tiled

theorem BinaryRule.later {l r : Rose} (left : s.types.ExprNode ok l) (right : s.types.ExprNode ok r)
    (rule : s.BinaryRule x l r) : t.BinaryRule x l r := by
  unfold BinaryRule at *
  rw [left.type.isScalar_continue onward.grows.types, right.type.isScalar_continue
    onward.grows.types, left.type.isPointer_continue onward.grows.types]
  exact rule

theorem AssignmentRule.later {target value : Rose} (node : s.types.ExprNode ok target)
    (rule : s.AssignmentRule x target value) : t.AssignmentRule x target value := by
  unfold AssignmentRule at *
  rw [node.type.isArray_continue onward.grows.types]
  exact rule

theorem TernaryRule.later {cond l r : Rose} (node : s.types.ExprNode ok cond)
    (rule : s.TernaryRule x cond l r) : t.TernaryRule x cond l r := by
  unfold TernaryRule at *
  rw [node.type.isScalar_continue onward.grows.types]
  exact rule

theorem Meets.later {want : Checker.Wanted} (node : s.types.ExprNode ok y)
    (meets : s.Meets want y) : t.Meets want y := by
  cases want with
  | type id => exact meets
  | anyArray =>
    unfold Meets at *
    rw [node.type.isArray_continue onward.grows.types]
    exact meets

theorem LibraryRule.later (nodes : ∀ y ∈ x.children, s.types.ExprNode ok y)
    (rule : s.LibraryRule str x) : t.LibraryRule str x := by
  obtain ⟨value, rule⟩ := rule
  have meets {wanted : List Checker.Wanted}
      (all : List.Forall₂ (fun w a => s.Meets w a) wanted x.children) :
      List.Forall₂ (fun w a => t.Meets w a) wanted x.children := by
    generalize x.children = args at all nodes
    induction all with
    | nil => exact .nil
    | cons first _ ih =>
      exact .cons (Meets.later onward (nodes _ List.mem_cons_self) first) (ih fun y mem =>
        nodes y (List.mem_cons_of_mem _ mem))
  have pointers (rule : x.exprType = TypeId.void ∧ x.children ≠ [] ∧
      ∀ a ∈ x.children, s.types.isPointer a.exprType = false) : x.exprType = TypeId.void ∧
      x.children ≠ [] ∧ ∀ a ∈ x.children, t.types.isPointer a.exprType = false :=
    ⟨rule.1, rule.2.1, fun a mem => by
      rw [(nodes a mem).type.isPointer_continue onward.grows.types]
      exact rule.2.2 a mem⟩
  have texts : t.stringAt = s.stringAt := by
    funext i
    rw [stringAt, stringAt, onward.strings]
  refine ⟨value, ?_⟩
  cases name : x.builtin <;> simp only [name, texts] at rule ⊢ <;>
    first | exact rule | exact ⟨rule.1, meets rule.2⟩ | exact pointers rule

end Later

/-- A rule stays true when the tables go on. -/
theorem Rule.later (node : s.types.ExprNode ok x)
    (below : ∀ y ∈ x.children, s.types.ExprNode ok y) (onward : s.Later t)
    (tiled : t.types.Tiled) (rule : s.Rule names str x) : t.Rule names str x := by
  unfold Rule at *
  split at rule
  next => exact NameRule.later onward rule
  next => exact rule
  next => exact rule
  next => exact rule
  next kids =>
    rw [kids] at below
    rw [(below _ (by simp)).type.isArray_continue onward.grows.types,
      (below _ (by simp)).type.element_continue onward.grows.types tiled]
    exact rule
  next kids => exact CallRule.later onward tiled (below _ (by simp [kids])) rule
  next kids => exact MemberRule.later onward tiled (below _ (by simp [kids])) rule
  next kids => exact UnaryRule.later onward tiled node (below _ (by simp [kids])) rule
  next kids =>
    exact BinaryRule.later onward (below _ (by simp [kids])) (below _ (by simp [kids])) rule
  next kids => exact AssignmentRule.later onward (below _ (by simp [kids])) rule
  next kids => exact TernaryRule.later onward (below _ (by simp [kids])) rule
  next => exact LibraryRule.later onward below rule
  next => exact ListRule.later onward tiled node rule
  next => exact rule
  next => exact rule

theorem Ruled.later (operand : s.types.Operand ok x) (onward : s.Later t) (tiled : t.types.Tiled)
    (ruled : s.Ruled names str x) : t.Ruled names str x :=
  fun y mem => (ruled y mem).later (operand y mem) (fun z child =>
    operand z (mem_nodes_trans (mem_nodes_child child z.mem_nodes_self) mem)) onward tiled

end Session

end BilingualC
