import Mathlib
import BilingualC.Proofs.Arena.Preorder
import BilingualC.Proofs.Arena.Refinement

/-!
# Walks through the tree

`Arena.Offspring` lists the nodes below a node in pre-order, by its children alone: a child comes
before the nodes below it, and these come before the next child. `Arena.Walks` follows `Arena.next`
until it leads to no node. In every arena that a run of requests leads to, the walk from the root
goes through this listing, and the walk from any other node through what comes after the node
(`Built.walks_preorder`).
-/

namespace BilingualC

namespace Rose

/-- The indices of a tree end with those of a subtree and the ones after it. -/
theorem indices_fill_upcoming (fs : List Frame) (s : Rose) :
    ∃ before, (fill fs s).indices = before ++ (s.indices ++ upcoming fs) := by
  induction fs generalizing s with
  | nil => exact ⟨[], by rw [fill_nil, upcoming, List.append_nil, List.nil_append]⟩
  | cons f fs ih =>
    obtain ⟨before, split⟩ := ih (f.plug s)
    refine ⟨before ++ f.index :: f.before.flatMap indices, ?_⟩
    rw [fill_cons, split, upcoming, indices_eq (f.plug s), Frame.plug_index, Frame.plug_children]
    simp only [List.flatMap_append, List.flatMap_cons, List.append_assoc, List.cons_append]

end Rose

namespace Arena

/-- The nodes below a node in pre-order, those below its first so many children left out. -/
inductive Offspring (t : Arena) : Handle → Nat → List Handle → Prop
  | nil {n : Handle} {k : Nat} : t.amount n ≤ k → Offspring t n k []
  | cons {n c : Handle} {k : Nat} {own rest : List Handle} :
      (k : Int) < t.amount n → t.child n k = .ok c →
      Offspring t c 0 own → Offspring t n (k + 1) rest → Offspring t n k (c :: (own ++ rest))

/-- The nodes that `next` leads to from a node on, up to the last one. -/
inductive Walks (t : Arena) : Handle → List Handle → Prop
  | stop {n m : Handle} : t.next n = .ok m → t.isBroken m = true → Walks t n []
  | step {n m : Handle} {rest : List Handle} : t.next n = .ok m → t.isBroken m = false →
      Walks t m rest → Walks t n (m :: rest)

variable {t : Arena} {r s : Rose} {fs : List Frame}

/-- A node has the offspring that its tree shows. -/
theorem Has.offspring (h : t.Has s) :
    t.Offspring (t.handle s.index) 0 ((s.children.flatMap Rose.indices).map t.handle) := by
  induction s using Rose.induction_on with
  | step i type args children ih =>
    have amount := h.amount
    simp only [Rose.index_node, Rose.children_node] at amount ⊢
    -- The children are taken from the last one to the first.
    suffices behind : ∀ left k, k + left = children.length →
        t.Offspring (t.handle i) k (((children.drop k).flatMap Rose.indices).map t.handle) from
      behind children.length 0 (Nat.zero_add _)
    intro left
    induction left with
    | zero =>
      intro k all
      rw [List.drop_eq_nil_of_le (by omega)]
      exact .nil (by omega)
    | succ left ihs =>
      intro k all
      have inside : k < children.length := by omega
      have mem := List.getElem_mem inside
      have child : t.child (t.handle i) k = .ok (t.handle children[k].index) := h.child_at inside
      rw [List.drop_eq_getElem_cons inside, List.flatMap_cons, Rose.indices_eq, List.cons_append,
        List.map_cons, List.map_append]
      exact .cons (by omega) child (ih _ mem (h.child mem)) (ihs (k + 1) (by omega))

/-- The walk from a node goes through the indices after it. -/
theorem Holds.walks_upcoming (h : t.Holds (Rose.fill fs s)) : t.Walks (t.handle s.index)
    ((s.children.flatMap Rose.indices ++ Rose.upcoming fs).map t.handle) := by
  induction length : (s.indices ++ Rose.upcoming fs).length generalizing s fs with
  | zero => rw [Rose.indices_eq, List.cons_append, List.length_cons] at length; omega
  | succ left ih =>
    rw [Rose.indices_eq, List.cons_append] at length
    rcases h.next with ⟨last, next⟩ | ⟨c, gs, holds, -, order, next⟩
    · rw [Rose.indices_eq, List.cons_append] at last
      rw [(List.cons.inj last).2]
      exact .stop next (isBroken_broken t)
    · rw [Rose.indices_eq s, List.cons_append] at order
      rw [← (List.cons.inj order).2] at length ⊢
      rw [Rose.indices_eq, List.cons_append, List.map_cons]
      exact .step next holds.isBroken (ih holds (by simpa using length))

/-- **The next node is the one in pre-order.** In every arena that a run of requests leads to, the
walk from the root goes through every node of the tree once, each node before its children and the
nodes below a child before the next child, and then leads to no node. The walk from any node of the
tree goes through the nodes that come after it. -/
theorem Built.walks_preorder {rootType : Int} (built : Built rootType t) :
    ∃ below, t.Offspring t.root 0 below ∧ (t.root :: below).Nodup ∧
    (∀ n, n ∈ t.root :: below ↔ t.Reachable n) ∧ t.Walks t.root below ∧ ∀ n, t.Reachable n →
    ∃ before after, t.root :: below = before ++ n :: after ∧ t.Walks n after := by
  obtain ⟨r, holds, -⟩ := built.holds
  have root : t.root = t.handle r.index := by rw [Arena.root, holds.root]
  have all : t.root :: (r.children.flatMap Rose.indices).map t.handle = r.indices.map t.handle := by
    rw [root, ← List.map_cons, ← Rose.indices_eq]
  have whole : t.Holds (Rose.fill [] r) := holds
  have walk := whole.walks_upcoming
  rw [Rose.upcoming, List.append_nil, ← root] at walk
  refine ⟨(r.children.flatMap Rose.indices).map t.handle, root ▸ holds.has.offspring, ?_, ?_, walk,
    ?_⟩
  · rw [all]
    exact holds.nodup.map fun i j same => congrArg Handle.index same
  · intro n
    rw [all, holds.reachable_iff, List.mem_map]
    constructor
    · rintro ⟨i, mem, rfl⟩
      obtain ⟨s, inside, rfl⟩ := List.mem_map.mp mem
      exact ⟨s, inside, rfl⟩
    · rintro ⟨s, inside, rfl⟩
      exact ⟨s.index, List.mem_map_of_mem inside, rfl⟩
  · intro n reach
    obtain ⟨s, mem, rfl⟩ := holds.reachable_iff.mp reach
    obtain ⟨fs, rfl⟩ := Rose.exists_fill mem
    obtain ⟨before, split⟩ := Rose.indices_fill_upcoming fs s
    refine ⟨before.map t.handle, _, ?_, holds.walks_upcoming⟩
    rw [all, split, List.map_append, Rose.indices_eq, List.cons_append, List.map_cons]

/-- The records of two nodes that changed places are walked through in their new order. -/
theorem Built.walks_preorder_swapped : ∃ t below, Built 0 t ∧ t.order = .ok [2, 12, 7, 17] ∧
    t.Offspring t.root 0 below ∧ (t.root :: below).Nodup ∧ t.Walks t.root below := by
  have first : Built 0 ⟨#[0, 0, 1, 7, 0, -2, 1, 0, 0, 0], ∅⟩ :=
    @Built.step 0 _ _ (.addChild ⟨2, 0⟩ 1 []) _ .new ⟨.inl .self, by decide⟩ (by rfl)
  have second : Built 0 ⟨#[0, 0, 2, 7, 0, 12, 1, 0, 0, 0, -2, 2, 0, 0, 0], ∅⟩ :=
    @Built.step 0 _ _ (.addChild ⟨2, 0⟩ 2 []) _ first ⟨.inl .self, by decide⟩ (by rfl)
  have third : Built 0 ⟨#[0, 0, 2, 7, 0, 12, 1, 1, 17, 0, -2, 2, 0, 0, 0, -7, 3, 0, 0, 0], ∅⟩ :=
    @Built.step 0 _ _ (.addChild ⟨7, 0⟩ 3 []) _ second ⟨.inl (.child 0 .self (by rfl) (by rfl)),
      by decide⟩ (by rfl)
  have swapped : Built 0 ⟨#[0, 0, 2, 12, 0, -2, 1, 1, 17, 0, 7, 2, 0, 0, 0, -7, 3, 0, 0, 0], ∅⟩ :=
    @Built.step 0 _ _ (.swap ⟨7, 0⟩ ⟨12, 0⟩) _ third
      ⟨.inl (.child 0 .self (by rfl) (by rfl)), .inl (.child 1 .self (by rfl) (by rfl))⟩ (by rfl)
  obtain ⟨below, offspring, nodup, -, walk, -⟩ := Built.walks_preorder swapped
  exact ⟨_, below, swapped, by rfl, offspring, nodup, walk⟩

end Arena

end BilingualC
