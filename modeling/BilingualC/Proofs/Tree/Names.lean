import Mathlib
import BilingualC.Proofs.Tree.Form

/-!
# Names and calls in trees

The labels that the nodes of a tree place, and those that they jump to, are collected in the order
of the nodes. Expressions and declarations name none. The calls are collected in the order of their
code.
-/

namespace BilingualC

namespace Rose

/-- The first arguments of the nodes of a kind, in the order of the nodes. -/
def collect (k : Kind) (r : Rose) : List Int := (r.nodes.filter fun x => x.kind == k).map (·.arg 0)

variable {k : Kind} {r : Rose}

theorem collect_eq (k : Kind) (r : Rose) :
    r.collect k = (if r.kind = k then [r.arg 0] else []) ++ r.children.flatMap (collect k) := by
  have below : (r.children.flatMap nodes).filter (fun x => x.kind == k) =
      r.children.flatMap fun c => c.nodes.filter fun x => x.kind == k := List.filter_flatMap
  rw [collect, nodes_eq, List.filter_cons, below]
  by_cases same : r.kind = k
  · simp only [same, beq_self_eq_true, if_true, List.map_cons, List.map_flatMap,
      List.singleton_append]
    rfl
  · simp only [same, beq_iff_eq, if_false, List.map_flatMap, List.nil_append]
    rfl

theorem collect_other (other : r.kind ≠ k) : r.collect k = r.children.flatMap (collect k) := by
  rw [collect_eq, if_neg other, List.nil_append]

/-- Every node of an expression is an expression. -/
theorem isExpression_of_mem (expr : IsExpr r) : ∀ x ∈ r.nodes, x.kind.isExpression = true := by
  have node {r : Rose} (kind : r.kind.isExpression = true)
      (below : ∀ c ∈ r.children, ∀ x ∈ c.nodes, x.kind.isExpression = true) :
      ∀ x ∈ r.nodes, x.kind.isExpression = true := by
    intro x mem
    rw [nodes_eq, List.mem_cons, List.mem_flatMap] at mem
    rcases mem with rfl | ⟨c, child, inside⟩
    · exact kind
    · exact below c child x inside
  induction expr with
  | literal kind _ kids | string kind _ kids | identifier kind kids =>
    exact node (by rw [kind]; rfl) (by simp [kids])
  | cast kind _ kids _ _ _ ih | member kind kids _ _ ih | address kind _ kids _ _ _ ih
  | indirection kind kids _ _ ih | step kind _ kids _ _ _ ih | unary kind _ kids _ _ _ ih =>
    exact node (by rw [kind]; rfl) (by simpa [kids] using ih)
  | subscript kind kids _ _ first second | comma kind _ kids _ _ _ first second
  | logical kind _ kids _ _ _ first second | binary kind _ kids _ _ _ _ first second
  | assignment kind _ kids _ _ _ _ _ first second =>
    exact node (by rw [kind]; rfl) (by simpa [kids] using ⟨first, second⟩)
  | ternary kind _ kids _ _ _ first second third =>
    exact node (by rw [kind]; rfl) (by simpa [kids] using ⟨first, second, third⟩)
  | @call r f args kind _ kids callee leaf _ each =>
    have function : ∀ x ∈ f.nodes, x.kind.isExpression = true :=
      node (by rw [callee]; rfl) (by simp [leaf])
    exact node (by rw [kind]; rfl) (by simpa [kids] using ⟨function, each⟩)
  | library kind _ _ _ each => exact node (by rw [kind]; rfl) each

theorem collect_expr (expr : IsExpr r) (other : k.isExpression = false) : r.collect k = [] := by
  rw [collect, List.map_eq_nil_iff, List.filter_eq_nil_iff]
  intro x mem same
  have kind := isExpression_of_mem expr x mem
  rw [show x.kind = k by simpa using same, other] at kind
  exact absurd kind (by decide)

theorem collect_initializer (init : IsInitializer r) (other : k.isExpression = false)
    (list : k ≠ .initializer) : r.collect k = [] := by
  induction init with
  | expr expr => exact collect_expr expr other
  | list kind _ each =>
    rw [collect_other (by rw [kind]; exact Ne.symm list), List.flatMap_eq_nil_iff]
    exact each

/-- A declaration names no labels. -/
theorem collect_declaration (h : IsDeclaration r) (jumps : k = .label ∨ k = .jump) :
    r.collect k = [] := by
  have other : k.isExpression = false := by rcases jumps with rfl | rfl <;> rfl
  have differs {x : Rose} {kind : Kind} (same : x.kind = kind) (apart : kind ≠ .label ∧
      kind ≠ .jump) : x.kind ≠ k := by
    rw [same]
    rcases jumps with rfl | rfl
    · exact apart.1
    · exact apart.2
  rw [collect_other (differs h.kind (by decide)), List.flatMap_eq_nil_iff]
  intro c mem
  rcases h.all c mem with ⟨kind, leaf⟩ | ⟨bounds, init, isVariable⟩
  · rw [collect_other (differs kind (by decide)), leaf, List.flatMap_nil]
  · rw [collect_other (differs isVariable.kind (by decide)), isVariable.kids,
      List.flatMap_eq_nil_iff]
    intro x part
    rw [List.mem_append, Option.mem_toList] at part
    rcases part with bound | written
    · rcases isVariable.bounds x bound with ⟨kind, leaf⟩ | expr
      · rw [collect_other (differs kind (by decide)), leaf, List.flatMap_nil]
      · exact collect_expr expr other
    · refine collect_initializer (isVariable.init x written) other ?_
      rcases jumps with rfl | rfl <;> decide

/-! ## Calls -/

/-- What belongs to the children of a node, in the order of their code. The last clause of a `for`
statement stands behind the body, all other children in the order of the source. -/
def inOrder {α : Type} (r : Rose) (below : List α) : List α :=
  if r.kind = .forLoop then
    let clauses := (r.arg 0).toNat + (r.arg 1).toNat
    below.take clauses ++ (below.drop clauses).reverse
  else below

mutual

/-- The calls in a tree, in the order of their code: a call stands behind its arguments. -/
def calls : Rose → List Rose
  | .node i type args children =>
    let r : Rose := .node i type args children
    (r.inOrder (callsAll children)).flatten ++ if r.kind = .call then [r] else []

/-- The calls in some trees. -/
def callsAll : List Rose → List (List Rose)
  | [] => []
  | c :: cs => c.calls :: callsAll cs

end

theorem callsAll_eq (cs : List Rose) : callsAll cs = cs.map calls := by
  induction cs with
  | nil => rw [callsAll]; rfl
  | cons c cs ih => rw [callsAll, ih, List.map_cons]

theorem inOrder_map {α β : Type} (r : Rose) (f : α → β) (below : List α) :
    r.inOrder (below.map f) = (r.inOrder below).map f := by
  unfold inOrder
  split
  · simp only [List.map_append, List.map_take, List.map_drop, List.map_reverse]
  · rfl

/-- The clauses of a `for` statement. -/
theorem inOrder_forLoop {α : Type} {init cond step : Option α} {body : α} (kind : r.kind = .forLoop)
    (hasInit : r.arg 0 = flagWord init.isSome) (hasCond : r.arg 1 = flagWord cond.isSome) :
    r.inOrder (init.toList ++ cond.toList ++ step.toList ++ [body]) =
      init.toList ++ cond.toList ++ [body] ++ step.toList := by
  rw [inOrder, if_pos kind, hasInit, hasCond]
  cases init <;> cases cond <;> cases step <;> rfl

theorem inOrder_perm {α : Type} (r : Rose) (below : List α) : (r.inOrder below).Perm below := by
  unfold inOrder
  split
  · refine ((List.reverse_perm _).append_left _).trans ?_
    rw [List.take_append_drop]
  · rfl

theorem calls_eq (r : Rose) :
    r.calls = (r.inOrder r.children).flatMap calls ++ if r.kind = .call then [r] else [] := by
  cases r
  rw [calls, callsAll_eq, inOrder_map, List.flatMap_def, children_node]

/-- The calls in a tree are its call nodes, each of them once. -/
theorem calls_perm (r : Rose) : r.calls.Perm (r.nodes.filter fun x => x.kind == .call) := by
  induction r using Rose.induction_on with
  | step i type args children each =>
    generalize same : node i type args children = r at *
    have kids : r.children = children := same ▸ rfl
    have below : ((r.inOrder r.children).flatMap calls).Perm
        ((r.children.flatMap nodes).filter fun x => x.kind == .call) := by
      rw [List.filter_flatMap, kids]
      exact ((r.inOrder_perm children).flatMap_right calls).trans
        (List.Perm.flatMap_left children each)
    rw [calls_eq, nodes_eq, List.filter_cons]
    by_cases call : r.kind = .call
    · simp only [call, if_true, beq_self_eq_true]
      exact (List.perm_append_singleton _ _).trans (below.cons r)
    · simp only [call, if_false, beq_iff_eq, List.append_nil]
      exact below

theorem mem_calls {x : Rose} : x ∈ r.calls ↔ x ∈ r.nodes ∧ x.kind = .call := by
  simp [(calls_perm r).mem_iff]

end Rose

end BilingualC
