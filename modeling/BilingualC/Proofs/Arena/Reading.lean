import Mathlib
import BilingualC.Proofs.Arena.Places

/-!
# Reading a whole tree

An arena that holds a tree gives exactly this tree back (`Holds.view`) and passes its own check
(`Holds.isCorrect`): the walks are bounded by the number of cells, and no tree is higher than that.
-/

namespace BilingualC

/-- A walk over a list that never fails collects what each step gives. -/
theorem mapM_eq_ok {α β : Type} {f : α → Guarded β} {g : α → β} {l : List α}
    (each : ∀ x ∈ l, f x = .ok (g x)) : l.mapM f = .ok (l.map g) := by
  induction l with
  | nil => rfl
  | cons x l ih =>
    rw [List.mapM_cons, each x (by simp), ih fun y hy => each y (by simp [hy])]
    rfl

namespace Rose

/-- No record is longer than a block may be. -/
def Fits (r : Rose) : Prop := ∀ x ∈ r.nodes, (x.args.length : Int) ≤ largestBlock

theorem Fits.child {r c : Rose} (h : r.Fits) (mem : c ∈ r.children) : c.Fits := fun x hx =>
  h x (mem_nodes_child mem hx)

theorem height_le_length_nodes (r : Rose) : r.height ≤ r.nodes.length := by
  induction r using Rose.induction_on with
  | step i type args children ih =>
    have siblings : ∀ cs : List Rose, (∀ c ∈ cs, c ∈ children) →
      heights cs ≤ (cs.flatMap nodes).length := by
      intro cs sub
      induction cs with
      | nil => simp [heights]
      | cons c cs ihs =>
        have first := ih c (sub c (by simp))
        have rest := ihs fun d hd => sub d (by simp [hd])
        simp only [heights, List.flatMap_cons, List.length_append]
        omega
    have below := siblings children fun c hc => hc
    rw [nodes_eq, height, List.length_cons, children_node]
    omega

/-- A subtree is not higher than the tree. -/
theorem height_le_of_mem_nodes {r s : Rose} (mem : s ∈ r.nodes) : s.height ≤ r.height := by
  induction r using Rose.induction_on with
  | step i type args children ih =>
    rw [nodes_eq] at mem
    rcases List.mem_cons.mp mem with rfl | below
    · exact Nat.le_refl _
    · obtain ⟨c, hc, inside⟩ := List.mem_flatMap.mp below
      have child := height_child (r := node i type args children) hc
      have lower := ih c hc inside
      omega

end Rose

namespace Arena

variable {t : Arena} {r : Rose}

/-- The arguments of a node can be read at once if there are not too many. -/
theorem Has.args_eq (h : t.Has r) (fits : (r.args.length : Int) ≤ largestBlock) :
    t.args (t.handle r.index) = .ok r.args := by
  have allowed : ¬ ((r.args.length : Int) < 0 ∨ largestBlock < r.args.length) := by omega
  simp only [args, h.argc, Bool.or_eq_true, decide_eq_true_eq, allowed, if_false, Int.toNat_natCast]
  have each :
    ∀ k ∈ List.range r.args.length, t.arg (t.handle r.index) (Int.ofNat k) = .ok (r.arg k) :=
    fun k _ => h.arg k
  rw [mapM_eq_ok each]
  congr 1
  exact List.ext_getElem (by simp) fun k hk inside => by simp [Rose.arg, inside]

theorem Has.viewAt_eq {depth : Nat} (h : t.Has r) (enough : r.height ≤ depth) (fits : r.Fits) :
    t.viewAt depth (t.handle r.index) = .ok r := by
  induction depth generalizing r with
  | zero =>
    cases r
    simp [Rose.height] at enough
  | succ depth ih =>
    have below : ∀ k ∈ List.range r.children.length,
        (do t.viewAt depth (← t.child (t.handle r.index) (Int.ofNat k)) : Guarded Rose) =
          .ok (r.children.getD k r) := by
      intro k hk
      have inside : k < r.children.length := List.mem_range.mp hk
      have mem := List.getElem_mem inside
      rw [Int.ofNat_eq_natCast, h.child_at inside, List.getD_eq_getElem _ _ inside]
      exact ih (h.child mem) (by have := Rose.height_child mem; omega) (fits.child mem)
    rw [viewAt, h.args_eq (fits r r.mem_nodes_self), h.amount, h.typeOf, Int.toNat_natCast,
      mapM_eq_ok below]
    have children :
      (List.range r.children.length).map (fun k => r.children.getD k r) = r.children :=
      List.ext_getElem (by simp) fun k hk inside => by simp [inside]
    rw [children]
    exact congrArg Except.ok r.eta

/-- No tree is higher than its arena is long. -/
theorem Holds.height_le_size (h : t.Holds r) : r.height ≤ t.size := by
  have count := h.all.length_le
  have same := congrArg List.length (Rose.map_index_blocks 0 r)
  rw [List.length_map, List.length_map] at same
  have height := r.height_le_length_nodes
  omega

/-- No tree is higher than the walks through its arena go. -/
theorem Holds.height_le (h : t.Holds r) : r.height ≤ t.walkBound :=
  Nat.le_succ_of_le h.height_le_size

theorem Holds.view (h : t.Holds r) (fits : r.Fits) : t.view = .ok r := by
  have root : t.root = t.handle r.index := by rw [Arena.root, h.root]
  rw [Arena.view, viewOf, root]
  exact h.has.viewAt_eq h.height_le fits

/-- The children of a node end with a link back to it. -/
theorem chain_siblings {depth : Nat} {i : Int} {cs : List Rose}
    (all : ∀ b ∈ Rose.blocksTo (-i) cs, t.HasBlock b)
    (each : ∀ c ∈ cs, t.isCorrectAt depth c.index = .ok true) :
    isCorrectAt.chain t depth i cs.length (Rose.lead (-i) cs) = .ok true := by
  induction cs with
  | nil => rw [List.length_nil, isCorrectAt.chain]; rfl
  | cons c cs ih =>
    have here : t.HasBlock (c.block (Rose.lead (-i) cs)) := all _ (by simp [Rose.blocks_eq])
    have next : t.fixedCell (c.index - 2) = Rose.lead (-i) cs := here.next
    simp only [List.length_cons, isCorrectAt.chain, Rose.lead_cons, each c (by simp), bind,
      Except.bind, next]
    cases cs with
    | nil => simp [pure, Except.pure]
    | cons d ds =>
      simp only [Bool.not_true, Bool.false_eq_true, if_false, List.length_cons, beq_iff_eq,
        Nat.add_one_ne_zero]
      exact ih (fun b hb => all b (by rw [Rose.blocksTo_cons]; exact List.mem_append_right _ hb))
        fun x hx => each x (List.mem_cons_of_mem _ hx)

theorem Has.isCorrectAt {depth : Nat} (h : t.Has r) (enough : r.height ≤ depth) :
    t.isCorrectAt depth r.index = .ok true := by
  induction depth generalizing r with
  | zero =>
    cases r
    simp [Rose.height] at enough
  | succ depth ih =>
    obtain ⟨next, all⟩ := h
    have here : t.Has r := ⟨next, all⟩
    have block : t.HasBlock (r.block next) := all _ (by simp [Rose.blocks_eq])
    have record : t.hasRecord r.index = true := block.hasRecord
    have count : t.fixedCell r.index = r.children.length := block.count
    simp only [Arena.isCorrectAt, record, count, Bool.not_true, Bool.false_eq_true, if_false,
      beq_iff_eq, Nat.cast_eq_zero, Int.toNat_natCast]
    split
    · rfl
    · rename_i some
      have lead : t.fixedCell (r.index + 1) = Rose.lead (-r.index) r.children := by
        cases hc : r.children with
        | nil => simp [hc] at some
        | cons c cs => exact block.first _ (by simp [Rose.block, hc])
      rw [lead]
      exact chain_siblings (fun b hb => all b (by simp [Rose.blocks_eq, hb]))
        fun c hc => ih (here.child hc) (by have := Rose.height_child hc; omega)

theorem Holds.isCorrect (h : t.Holds r) : t.isCorrect = .ok true := by
  rw [Arena.isCorrect, ← h.root]
  exact h.has.isCorrectAt h.height_le

end Arena

end BilingualC
