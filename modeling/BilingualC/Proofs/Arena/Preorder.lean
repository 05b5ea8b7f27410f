import Mathlib
import BilingualC.Proofs.Arena.Editing

/-!
# Nodes in pre-order

After a node comes its first child, and after a leaf the nearest sibling after it or after a node
above it. An arena that holds a tree lists the indices of the tree in pre-order (`Holds.order`).
-/

namespace BilingualC

namespace Rose

/-- The indices after a place in pre-order. -/
def upcoming : List Frame → List Int
  | [] => []
  | f :: fs => f.after.flatMap indices ++ upcoming fs

end Rose

namespace Arena

variable {t : Arena} {s : Rose} {fs : List Frame}

/-- The node after a subtree in pre-order. -/
theorem Holds.following (h : t.Holds (Rose.fill fs s)) {steps : Nat} (enough : fs.length < steps) :
    (Rose.upcoming fs = [] ∧ t.following steps s.index = .ok .broken) ∨
    ∃ c gs, t.Holds (Rose.fill gs c) ∧ Rose.fill gs c = Rose.fill fs s ∧
    c.indices ++ Rose.upcoming gs = Rose.upcoming fs ∧
    t.following steps s.index = .ok (t.handle c.index) := by
  -- by induction on the way to the root: a last child leads up, any other one to its sibling
  induction fs generalizing s steps with
  | nil =>
    obtain ⟨steps, rfl⟩ : ∃ k, steps = k + 1 := ⟨steps - 1, by simp at enough; omega⟩
    have here := h.block
    have range :=
      here.covers_range (i := s.index - 2) (by simp only [Block.Covers, Rose.block]; omega)
    have next : t.fixedCell (s.index - 2) = 0 := here.next
    refine .inl ⟨rfl, ?_⟩
    simp [Arena.following, cell_of_range range.1 range.2, next, bind, Except.bind, pure,
      Except.pure]
  | cons f fs ih =>
    obtain ⟨steps, rfl⟩ : ∃ k, steps = k + 1 := ⟨steps - 1, by simp at enough; omega⟩
    have here := h.block
    have range :=
      here.covers_range (i := s.index - 2) (by simp only [Block.Covers, Rose.block]; omega)
    have next : t.fixedCell (s.index - 2) = Rose.lead (-f.index) f.after := here.next
    cases after : f.after with
    | nil =>
      have low := h.frame_low (f := f) (by simp)
      have above : t.Holds (Rose.fill fs (f.plug s)) := h
      rw [after, Rose.lead_nil] at next
      have up : t.following (steps + 1) s.index = t.following steps f.index := by
        have notSibling : ¬ 0 < -f.index := by omega
        have notRoot : -f.index ≠ 0 := by omega
        simp only [Arena.following, cell_of_range range.1 range.2, next, bind, Except.bind,
          notSibling, if_false, beq_iff_eq, notRoot, Int.neg_neg]
      have more : Rose.upcoming (f :: fs) = Rose.upcoming fs := by rw [Rose.upcoming, after]; rfl
      rw [up, more]
      exact ih above (by simpa using enough)
    | cons c cs =>
      rw [after, Rose.lead_cons] at next
      -- the sibling stands in the same tree, with one more child in front of it
      have place : Rose.fill (⟨f.index, f.type, f.args, f.before ++ [s], cs⟩ :: fs) c =
        Rose.fill (f :: fs) s := by
        rw [Rose.fill_cons, Rose.fill_cons]
        congr 1
        simp [Frame.plug, after]
      have other : t.Holds (Rose.fill (⟨f.index, f.type, f.args, f.before ++ [s], cs⟩ :: fs) c) :=
        place ▸ h
      have low : 2 ≤ c.index := other.block.low
      have positive : 0 < c.index := by omega
      refine .inr ⟨c, _, other, place, ?_, ?_⟩
      · rw [Rose.upcoming, Rose.upcoming, after, List.flatMap_cons, List.append_assoc]
      · simp only [Arena.following, cell_of_range range.1 range.2, next, bind, Except.bind,
          positive, if_true]
        rfl

/-- The next node is the one that comes next in pre-order. -/
theorem Holds.next (h : t.Holds (Rose.fill fs s)) :
    (s.indices ++ Rose.upcoming fs = [s.index] ∧ t.next (t.handle s.index) = .ok .broken) ∨
    ∃ c gs, t.Holds (Rose.fill gs c) ∧ Rose.fill gs c = Rose.fill fs s ∧
    s.index :: (c.indices ++ Rose.upcoming gs) = s.indices ++ Rose.upcoming fs ∧
    t.next (t.handle s.index) = .ok (t.handle c.index) := by
  rw [Arena.next, if_neg (by rw [h.isBroken]; decide), h.subtree.amount]
  cases children : s.children with
  | nil =>
    have own : s.indices = [s.index] := by rw [Rose.indices_eq, children]; rfl
    have enough : fs.length < t.walkBound := Nat.lt_succ_of_le h.length_le
    rw [own]
    rcases h.following enough with ⟨last, followed⟩ | ⟨c, gs, holds, same, order, followed⟩
    · exact .inl ⟨by rw [last]; rfl, followed⟩
    · exact .inr ⟨c, gs, holds, same, by rw [order]; rfl, followed⟩
  | cons c cs =>
    have inside : 0 < s.children.length := by rw [children]; exact Nat.succ_pos _
    have place : Rose.fill (⟨s.index, s.type, s.args, [], cs⟩ :: fs) c = Rose.fill fs s := by
      rw [Rose.fill_cons]
      congr 1
      rw [Frame.plug, List.nil_append, ← children, Rose.eta]
    refine .inr ⟨c, _, place ▸ h, place, ?_, ?_⟩
    · rw [Rose.upcoming, Rose.indices_eq s, children, List.flatMap_cons, List.cons_append,
        List.append_assoc]
    · have first := h.subtree.child_at inside
      rw [if_pos (by simp)]
      simp only [children] at first
      exact first

/-- From a node on the indices come in pre-order. -/
theorem Holds.orderFrom (h : t.Holds (Rose.fill fs s)) {steps : Nat}
    (enough : (s.indices ++ Rose.upcoming fs).length < steps) :
    t.orderFrom steps (t.handle s.index) = .ok (s.indices ++ Rose.upcoming fs) := by
  induction steps generalizing s fs with
  | zero => omega
  | succ steps ih =>
    rw [Arena.orderFrom, if_neg (by rw [h.isBroken]; decide)]
    rcases h.next with ⟨only, none⟩ | ⟨c, gs, holds, -, order, some⟩
    · have stops : t.orderFrom steps .broken = .ok [] := by
        rw [only, List.length_singleton] at enough
        obtain ⟨k, rfl⟩ : ∃ k, steps = k + 1 := ⟨steps - 1, by omega⟩
        rw [Arena.orderFrom, if_pos (isBroken_broken t)]
        rfl
      rw [none, only]
      simp only [bind, Except.bind, stops]
      rfl
    · rw [← order] at enough ⊢
      have rest := ih holds (by simpa using enough)
      rw [some]
      simp only [bind, Except.bind, rest]
      rfl

/-- The listing of an arena is that of its tree. -/
theorem Holds.order {r : Rose} (h : t.Holds r) : t.order = .ok r.indices := by
  have whole : t.Holds (Rose.fill [] r) := h
  have few : r.indices.length ≤ t.size := by
    have count := h.all.length_le
    rw [← List.length_map (f := Block.index), Rose.map_index_blocks, ← Rose.indices] at count
    exact count
  have enough : (r.indices ++ Rose.upcoming []).length < t.walkBound := by
    rw [Rose.upcoming, List.append_nil]
    exact Nat.lt_succ_of_le few
  have listed := whole.orderFrom enough
  rw [Rose.upcoming, List.append_nil, h.root] at listed
  exact listed

end Arena

end BilingualC
