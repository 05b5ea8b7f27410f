import Mathlib
import BilingualC.Proofs.Arena.Cells

/-!
# Reading the place of a node

`Arena.Holds` says that an arena holds a whole tree: the root has its index, all blocks are there
and no two of them overlap. The walks through an arena then end within their bound: the parent of a
node is the node of its innermost frame, the link to it is the slot of that frame, and the nodes
above it are those of its frames.
-/

namespace BilingualC

namespace Rose

/-- The blocks of a tree are those of its nodes. -/
theorem map_index_blocks (next : Int) (r : Rose) :
    (r.blocks next).map Block.index = r.nodes.map Rose.index := by
  induction r using Rose.induction_on generalizing next with
  | step i type args children ih =>
    have siblings : ∀ last cs, (∀ c ∈ cs, c ∈ children) →
        (blocksTo last cs).map Block.index = (cs.flatMap nodes).map Rose.index := by
      intro last cs sub
      induction cs generalizing last with
      | nil => simp
      | cons c cs ihs =>
        rw [blocksTo_cons, List.map_append, ih c (sub c (by simp)),
          ihs _ fun d hd => sub d (by simp [hd])]
        simp
    rw [blocks_eq, nodes_eq, List.map_cons, children_node, siblings _ _ fun c hc => hc]
    rfl

/-- The indices of the nodes of a tree. -/
def indices (r : Rose) : List Int := r.nodes.map index

theorem length_around (next hole : Int) (fs : List Frame) :
    fs.length ≤ (around next fs hole).length := by
  induction fs generalizing hole with
  | nil => simp
  | cons f fs ih =>
    have := ih f.index
    simp only [around, Frame.blocks, List.length_cons, List.length_append]
    omega

theorem length_blocksTo (last : Int) (cs : List Rose) : cs.length ≤ (blocksTo last cs).length := by
  induction cs with
  | nil => simp
  | cons c cs ih =>
    rw [blocksTo_cons, List.length_append, blocks_eq, List.length_cons, List.length_cons]
    omega

/-- Every frame has its block among those around the place. -/
theorem mem_around {f : Frame} {fs : List Frame} (mem : f ∈ fs) (next hole : Int) :
    ∃ b ∈ around next fs hole, b.index = f.index := by
  induction fs generalizing hole with
  | nil => simp at mem
  | cons g fs ih =>
    rcases List.mem_cons.mp mem with rfl | inTail
    · exact ⟨f.block (linkAfter next fs) hole, by simp [around, Frame.blocks], rfl⟩
    · obtain ⟨b, hb, same⟩ := ih inTail g.index
      exact ⟨b, by simp [around, hb], same⟩

/-- The root of a tree is the node of the outermost frame. -/
theorem top_mem (f : Frame) (fs : List Frame) (hole : Int) :
    ∃ g ∈ f :: fs, g.index = top (f :: fs) hole := by
  induction fs generalizing f hole with
  | nil => exact ⟨f, by simp, rfl⟩
  | cons g fs ih =>
    obtain ⟨k, hk, same⟩ := ih g f.index
    exact ⟨k, List.mem_cons_of_mem _ hk, same⟩

end Rose

namespace Arena

variable {t : Arena}

@[simp] theorem index_handle (t : Arena) (i : Int) : (t.handle i).index = i := rfl

theorem HasAll.left {bs cs : List Block} (h : t.HasAll (bs ++ cs)) : t.HasAll bs :=
  ⟨fun b hb => h.held b (List.mem_append_left _ hb), (List.pairwise_append.mp h.apart).1⟩

theorem HasAll.right {bs cs : List Block} (h : t.HasAll (bs ++ cs)) : t.HasAll cs :=
  ⟨fun b hb => h.held b (List.mem_append_right _ hb), (List.pairwise_append.mp h.apart).2.1⟩

theorem HasAll.nodup {bs : List Block} (h : t.HasAll bs) : (bs.map Block.index).Nodup := by
  rw [List.Nodup, List.pairwise_map]
  exact h.apart.imp Block.Apart.index_ne

/-- Blocks that do not overlap are no more than the cells. -/
theorem HasAll.length_le {bs : List Block} (h : t.HasAll bs) : bs.length ≤ t.size := by
  have sub : (bs.map Block.index).toFinset ⊆ Finset.Ico (0 : Int) t.size := by
    intro i hi
    obtain ⟨b, hb, rfl⟩ := List.mem_map.mp (List.mem_toFinset.mp hi)
    have held := h.held b hb
    exact Finset.mem_Ico.mpr (held.covers_range (by unfold Block.Covers; omega))
  have count := Finset.card_le_card sub
  rw [List.toFinset_card_of_nodup h.nodup, List.length_map, Int.card_Ico] at count
  simpa using count

/-- An arena holds a tree. -/
structure Holds (t : Arena) (r : Rose) : Prop where
  root : r.index = rootIndex
  all : t.HasAll (r.blocks 0)

namespace Holds

variable {r s : Rose} {f : Frame} {fs : List Frame}

theorem has (h : t.Holds r) : t.Has r := ⟨0, h.all.held⟩

theorem nodup (h : t.Holds r) : r.indices.Nodup := by
  rw [Rose.indices, ← Rose.map_index_blocks 0]
  exact h.all.nodup

/-- The blocks around a place and those of the subtree in it. -/
theorem split (h : t.Holds (Rose.fill fs s)) :
    t.HasAll (Rose.around 0 fs s.index ++ s.blocks (Rose.linkAfter 0 fs)) :=
  h.all.perm (Rose.blocks_fill 0 fs s)

/-- Puts a tree together from the blocks around a place and those of a subtree. -/
theorem join (root : Rose.top fs s.index = rootIndex)
    (all : t.HasAll (Rose.around 0 fs s.index ++ s.blocks (Rose.linkAfter 0 fs))) :
    t.Holds (Rose.fill fs s) :=
  ⟨(Rose.index_fill fs s).trans root, all.perm (Rose.blocks_fill 0 fs s).symm⟩

theorem subtree (h : t.Holds (Rose.fill fs s)) : t.Has s :=
  ⟨_, fun b hb => h.split.held b (List.mem_append_right _ hb)⟩

theorem block (h : t.Holds (Rose.fill fs s)) : t.HasBlock (s.block (Rose.linkAfter 0 fs)) :=
  h.split.held _ (List.mem_append_right _ (by simp [Rose.blocks_eq]))

theorem isBroken (h : t.Holds (Rose.fill fs s)) : t.isBroken (t.handle s.index) = false :=
  h.subtree.isBroken

/-- A frame of a place has another index than the subtree in the place. -/
theorem frame_ne (h : t.Holds (Rose.fill fs s)) (mem : f ∈ fs) : f.index ≠ s.index := by
  obtain ⟨b, hb, same⟩ := Rose.mem_around mem 0 s.index
  have apart := List.pairwise_append.mp h.split.apart
  have ne := (apart.2.2 b hb (s.block (Rose.linkAfter 0 fs)) (by simp [Rose.blocks_eq])).index_ne
  rw [← same]
  exact ne

theorem frame_low (h : t.Holds (Rose.fill fs s)) (mem : f ∈ fs) : 2 ≤ f.index := by
  obtain ⟨b, hb, same⟩ := Rose.mem_around mem 0 s.index
  rw [← same]
  exact (h.split.held b (List.mem_append_left _ hb)).low

/-- Only the root has its index. -/
theorem index_ne_root (h : t.Holds (Rose.fill (f :: fs) s)) : s.index ≠ rootIndex := by
  obtain ⟨g, mem, same⟩ := Rose.top_mem f fs s.index
  rw [← h.root, Rose.index_fill, ← same]
  exact (h.frame_ne mem).symm

theorem length_le (h : t.Holds (Rose.fill fs s)) : fs.length ≤ t.size := by
  have count := h.split.length_le
  rw [List.length_append] at count
  exact (Rose.length_around 0 s.index fs).trans (by omega)

end Holds

/-- An arena holds a tree and, apart from it, some other blocks. -/
structure HoldsBeside (t : Arena) (r : Rose) (rest : List Block) : Prop where
  root : r.index = rootIndex
  all : t.HasAll (r.blocks 0 ++ rest)

theorem Holds.beside {r : Rose} (h : t.Holds r) : t.HoldsBeside r [] :=
  ⟨h.root, by rw [List.append_nil]; exact h.all⟩

namespace HoldsBeside

variable {r s : Rose} {fs : List Frame} {rest : List Block}

theorem holds (h : t.HoldsBeside r rest) : t.Holds r := ⟨h.root, h.all.left⟩

theorem forget {own : List Block} (h : t.HoldsBeside r (own ++ rest)) : t.HoldsBeside r rest :=
  ⟨h.root, (h.all.perm (List.perm_append_comm_assoc ..)).right⟩

theorem split (h : t.HoldsBeside (Rose.fill fs s) rest) :
    t.HasAll (Rose.around 0 fs s.index ++ s.blocks (Rose.linkAfter 0 fs) ++ rest) :=
  h.all.perm ((Rose.blocks_fill 0 fs s).append_right rest)

theorem join (root : Rose.top fs s.index = rootIndex)
    (all : t.HasAll (Rose.around 0 fs s.index ++ s.blocks (Rose.linkAfter 0 fs) ++ rest)) :
    t.HoldsBeside (Rose.fill fs s) rest :=
  ⟨(Rose.index_fill fs s).trans root, all.perm ((Rose.blocks_fill 0 fs s).symm.append_right rest)⟩

end HoldsBeside

/-! ## Walks -/

/-- Sibling links lead to the parent. -/
theorem climb_siblings {i : Int} (low : 2 ≤ i) {s : Rose} {after : List Rose}
    (all : ∀ b ∈ Rose.blocksTo (-i) (s :: after), t.HasBlock b) {steps : Nat}
    (enough : after.length < steps) : t.climb steps s.index = .ok (t.handle i) := by
  induction after generalizing s steps with
  | nil =>
    obtain ⟨steps, rfl⟩ : ∃ k, steps = k + 1 := ⟨steps - 1, by simp at enough; omega⟩
    have here : t.HasBlock (s.block (-i)) := all _ (by simp [Rose.blocks_eq])
    have range :=
      here.covers_range (i := s.index - 2) (by simp only [Block.Covers, Rose.block]; omega)
    have next : t.fixedCell (s.index - 2) = -i := here.next
    have negative : -i < 0 := by omega
    simp only [climb, cell_of_range range.1 range.2, next, bind, Except.bind, negative, if_true,
      Int.neg_neg]
    rfl
  | cons c after ih =>
    obtain ⟨steps, rfl⟩ : ∃ k, steps = k + 1 := ⟨steps - 1, by simp at enough; omega⟩
    have here : t.HasBlock (s.block c.index) := all _ (by simp [Rose.blocks_eq])
    have below : t.HasBlock (c.block (Rose.lead (-i) after)) := all _ (by simp [Rose.blocks_eq])
    have range :=
      here.covers_range (i := s.index - 2) (by simp only [Block.Covers, Rose.block]; omega)
    have next : t.fixedCell (s.index - 2) = c.index := here.next
    have positive : 2 ≤ c.index := below.low
    have notParent : ¬ c.index < 0 := by omega
    have notRoot : c.index ≠ 0 := by omega
    simp only [climb, cell_of_range range.1 range.2, next, bind, Except.bind, notParent, if_false,
      beq_iff_eq, notRoot]
    exact ih (fun b hb => all b (by rw [Rose.blocksTo_cons]; exact List.mem_append_right _ hb))
      (by simpa using enough)

/-- The link to an index is found behind the children that come before it. -/
theorem linkFrom_siblings {x c : Int} {before : List Rose} (range : 0 ≤ c ∧ c < t.size)
    (start : t.fixedCell c = Rose.lead x before) (all : ∀ b ∈ Rose.blocksTo x before, t.HasBlock b)
    (others : ∀ s ∈ before, s.index ≠ x) {steps : Nat} (enough : before.length < steps) :
    t.linkFrom x steps c = .ok (Rose.slot (c - 1) before) := by
  induction before generalizing c steps with
  | nil =>
    obtain ⟨steps, rfl⟩ : ∃ k, steps = k + 1 := ⟨steps - 1, by simp at enough; omega⟩
    simp only [Rose.lead_nil] at start
    simp [linkFrom, cell_of_range range.1 range.2, start, bind, Except.bind, pure, Except.pure]
  | cons s before ih =>
    obtain ⟨steps, rfl⟩ : ∃ k, steps = k + 1 := ⟨steps - 1, by simp at enough; omega⟩
    have other : s.index ≠ x := others s (by simp)
    have here : t.HasBlock (s.block (Rose.lead x before)) := all _ (by simp [Rose.blocks_eq])
    have inside :=
      here.covers_range (i := s.index - 2) (by simp only [Block.Covers, Rose.block]; omega)
    simp only [Rose.lead_cons] at start
    simp only [linkFrom, cell_of_range range.1 range.2, start, bind, Except.bind, beq_iff_eq,
      other, if_false]
    rw [ih inside here.next (fun b hb =>
      all b (by rw [Rose.blocksTo_cons]; exact List.mem_append_right _ hb))
      (fun d hd => others d (by simp [hd])) (by simpa using enough)]
    congr 1
    cases before using List.reverseRecOn with
    | nil => simp [Rose.slot]
    | append_singleton before last => rw [← List.cons_append, Rose.slot_concat, Rose.slot_concat]

namespace Holds

variable {r s : Rose} {f : Frame} {fs : List Frame}

/-- The blocks of the parent. -/
theorem plugged (h : t.Holds (Rose.fill (f :: fs) s)) :
    t.HasAll ((f.plug s).blocks (Rose.linkAfter 0 fs)) :=
  (show t.Holds (Rose.fill fs (f.plug s)) from h).split.right

/-- The blocks of a parent up to a child and from the child on. -/
theorem siblings (h : t.Holds (Rose.fill (f :: fs) s)) :
    t.HasAll (f.block (Rose.linkAfter 0 fs) s.index :: Rose.blocksTo s.index f.before) ∧
      t.HasAll (Rose.blocksTo (-f.index) (s :: f.after)) := by
  have whole := h.plugged
  rw [Rose.blocks_eq, Frame.block_plug, Frame.plug_children, Frame.plug_index, Rose.blocksTo_append,
    Rose.lead_cons, ← List.cons_append] at whole
  exact ⟨whole.left, whole.right⟩

theorem siblings_ne (h : t.Holds (Rose.fill (f :: fs) s)) {c : Rose} (mem : c ∈ f.before) :
    c.index ≠ s.index := by
  have nodup := h.plugged.nodup
  rw [Rose.map_index_blocks, Rose.nodes_eq, List.map_cons, List.nodup_cons, Frame.plug_children,
    List.flatMap_append, List.flatMap_cons, List.map_append, List.map_append] at nodup
  have apart := (List.nodup_append.mp nodup.2).2.2
  refine apart c.index (List.mem_map_of_mem (List.mem_flatMap.mpr ⟨c, mem, c.mem_nodes_self⟩)) _ ?_
  exact List.mem_append_left _ (List.mem_map_of_mem s.mem_nodes_self)

theorem parent (h : t.Holds (Rose.fill (f :: fs) s)) :
    t.parent (t.handle s.index) = .ok (t.handle f.index) := by
  have notRoot : (t.handle s.index).index ≠ rootIndex := h.index_ne_root
  obtain ⟨-, after⟩ := h.siblings
  have enough : f.after.length < t.walkBound := by
    have count := after.length_le
    have some := Rose.length_blocksTo (-f.index) (s :: f.after)
    simp only [List.length_cons] at some
    unfold walkBound
    omega
  rw [Arena.parent, h.isBroken]
  simp only [Bool.false_or, beq_iff_eq, notRoot, if_false]
  exact climb_siblings (h.frame_low (by simp)) after.held enough

theorem parent_root (h : t.Holds s) : t.parent (t.handle s.index) = .ok .broken := by
  simp [Arena.parent, h.root, pure, Except.pure]

theorem link (h : t.Holds (Rose.fill (f :: fs) s)) : t.link (t.handle s.index) = .ok f.slot := by
  obtain ⟨before, -⟩ := h.siblings
  have here := before.head
  have range :=
    here.covers_range (i := f.index + 1) (by simp only [Block.Covers, Frame.block]; omega)
  have start : t.fixedCell (f.index + 1) = Rose.lead s.index f.before := here.first _ rfl
  have enough : f.before.length < t.walkBound := by
    have count := before.tail.length_le
    have some := Rose.length_blocksTo s.index f.before
    unfold walkBound
    omega
  have found := linkFrom_siblings range start before.tail.held (fun c hc => h.siblings_ne hc) enough
  simp only [Int.add_sub_cancel] at found
  simp only [Arena.link, h.parent, bind, Except.bind]
  exact found

/-- The nodes above a place are those of its frames. -/
theorem isBelow (h : t.Holds (Rose.fill fs s)) (index : Int)
    {steps : Nat} (enough : fs.length < steps) :
    t.isBelow index steps (t.handle s.index) = .ok (decide (∃ f ∈ fs, f.index = index)) := by
  induction fs generalizing s steps with
  | nil =>
    obtain ⟨steps, rfl⟩ : ∃ k, steps = k + 1 := ⟨steps - 1, by simp at enough; omega⟩
    have root : t.Holds s := h
    simp [Arena.isBelow, root.parent_root, isBroken_broken, bind, Except.bind, pure, Except.pure]
  | cons f fs ih =>
    obtain ⟨steps, rfl⟩ : ∃ k, steps = k + 1 := ⟨steps - 1, by simp at enough; omega⟩
    have above : t.Holds (Rose.fill fs (f.plug s)) := h
    have live : t.isBroken (t.handle f.index) = false := above.isBroken
    simp only [Arena.isBelow, h.parent, bind, Except.bind, live, Bool.false_eq_true, if_false]
    by_cases here : f.index = index
    · simp [here, pure, Except.pure]
    · have fewer : fs.length < steps := by simpa using enough
      have rest := ih above fewer
      rw [Frame.plug_index] at rest
      simp [here, rest]

end Holds

end Arena

end BilingualC
