import Mathlib
import BilingualC.Proofs.Arena.Generations
import BilingualC.Proofs.Arena.Preorder
import BilingualC.Proofs.Arena.Refinement

/-!
# Nodes in use

A node that was once in the tree and was not removed since is in use, also when a node above it was
removed. The records of the nodes in use lie apart, and the links between them stay as they are
(`Kept`); so whatever leaves the records alone leaves alone what can be read at these nodes
(`Reads`).
-/

namespace BilingualC

namespace Rose

theorem blocks_sub {s x : Rose} (mem : x ∈ s.nodes) (next : Int) :
    ∃ link, x.blocks link ⊆ s.blocks next := by
  obtain ⟨fs, rfl⟩ := exists_fill mem
  exact ⟨linkAfter next fs, fun b hb =>
    (blocks_fill next fs x).symm.subset (List.mem_append_right _ hb)⟩

/-- A node below another one is the child of some node. -/
theorem exists_plug {s x : Rose} (mem : x ∈ s.children.flatMap nodes) :
    ∃ f : Frame, f.plug x ∈ s.nodes := by
  obtain ⟨c, child, inside⟩ := List.mem_flatMap.mp mem
  obtain ⟨fs, rfl⟩ := exists_fill inside
  obtain ⟨before, after, split⟩ := List.append_of_mem child
  have whole : s = fill (fs ++ [⟨s.index, s.type, s.args, before, after⟩]) x := by
    rw [fill_append, fill_cons, fill_nil, Frame.plug, ← split, eta]
  cases fs with
  | nil =>
    have plugged : s = Frame.plug ⟨s.index, s.type, s.args, before, after⟩ x := whole
    exact ⟨⟨s.index, s.type, s.args, before, after⟩, plugged ▸ mem_nodes_self s⟩
  | cons f fs =>
    rw [List.cons_append, fill_cons] at whole
    have below :=
      mem_nodes_fill (fs ++ [⟨s.index, s.type, s.args, before, after⟩]) (mem_nodes_self (f.plug x))
    exact ⟨f, whole ▸ below⟩

end Rose

namespace Arena

variable {t u : Arena} {r s x : Rose} {o : Orphans}

/-! ## Reading -/

/-- A node reads the same in two arenas. -/
structure Reads (t u : Arena) (h : Handle) : Prop where
  typeOf : u.typeOf h = t.typeOf h
  args : u.args h = t.args h
  arg : ∀ k, u.arg h k = t.arg h k
  amount : u.amount h = t.amount h
  child : ∀ k, u.child h k = t.child h k
  parent : u.parent h = t.parent h
  grows : ∀ v, (u.addArg h v).isOk = (t.addArg h v).isOk

theorem Reads.refl (t : Arena) (h : Handle) : t.Reads t h :=
  ⟨rfl, rfl, fun _ => rfl, rfl, fun _ => rfl, rfl, fun _ => rfl⟩

/-- A node with the same record and the same children reads the same if its parent does. -/
theorem Has.reads (first : t.Has s) (second : u.Has s) (size : u.size = t.size)
    (same : ∀ i ∈ s.indices, u.handle i = t.handle i)
    (parent : u.parent (t.handle s.index) = t.parent (t.handle s.index)) :
    t.Reads u (t.handle s.index) := by
  have own : t.handle s.index = u.handle s.index := (same _ s.index_mem_indices).symm
  have argc : u.argc (t.handle s.index) = t.argc (t.handle s.index) := by
    rw [first.argc, own, second.argc]
  have amount : u.amount (t.handle s.index) = t.amount (t.handle s.index) := by
    rw [first.amount, own, second.amount]
  have arg (k : Int) : u.arg (t.handle s.index) k = t.arg (t.handle s.index) k := by
    by_cases low : k < 0
    · rw [Arena.arg, Arena.arg, if_pos (by simp [low]), if_pos (by simp [low])]
    · obtain ⟨k, rfl⟩ := Int.eq_ofNat_of_zero_le (not_lt.mp low)
      rw [first.arg, own, second.arg]
  refine ⟨by rw [first.typeOf, own, second.typeOf], ?_, arg, amount, ?_, parent, ?_⟩
  · simp only [Arena.args, argc, arg]
  · intro k
    by_cases outside : (k < 0 || t.amount (t.handle s.index) ≤ k) = true
    · rw [Arena.child, Arena.child, amount, if_pos outside, if_pos outside]
    · rw [first.amount] at outside
      simp only [Bool.or_eq_true, decide_eq_true_eq, not_or, not_lt, not_le] at outside
      obtain ⟨k, rfl⟩ := Int.eq_ofNat_of_zero_le outside.1
      have inside : k < s.children.length := by omega
      rw [first.child_at inside, own, second.child_at inside,
        same _ (Rose.indices_child (List.getElem_mem inside) (Rose.index_mem_indices _))]
  · intro v
    have live : u.isBroken (t.handle s.index) = t.isBroken (t.handle s.index) := by
      rw [first.isBroken, own, second.isBroken]
    rw [Arena.addArg, Arena.addArg, live, amount, argc, size]
    split
    · rfl
    split <;> rfl

/-! ## Nodes below removed nodes -/

theorem HoldsBeside.has_orphan (h : t.HoldsBeside r o.blocks) {next : Int} (mem : (next, s) ∈ o)
    (inside : x ∈ s.nodes) : t.Has x := by
  obtain ⟨link, sub⟩ := Rose.blocks_sub inside next
  exact ⟨link, fun b hb =>
    h.all.held b (List.mem_append_right _ (List.mem_flatMap.mpr ⟨_, mem, sub hb⟩))⟩

/-- The parent of a node below another one whose records are there. -/
theorem HoldsBeside.parent_orphan (h : t.HoldsBeside r o.blocks)
    {next : Int} (mem : (next, s) ∈ o) {f : Frame}
    (below : f.plug x ∈ s.nodes) : t.parent (t.handle x.index) = .ok (t.handle f.index) := by
  have all : t.HasAll (s.blocks next) := by
    obtain ⟨before, after, rfl⟩ := List.append_of_mem mem
    have blocks := h.all.right
    rw [Orphans.blocks, List.flatMap_append, List.flatMap_cons] at blocks
    exact blocks.right.left
  obtain ⟨fs, rfl⟩ := Rose.exists_fill below
  have plugged := (all.perm (Rose.blocks_fill next fs (f.plug x))).right
  rw [Rose.blocks_eq, Frame.plug_children, Frame.plug_index, Rose.blocksTo_append] at plugged
  have low : 2 ≤ f.index := plugged.head.low
  have siblings := plugged.tail.right
  have has : t.HasBlock (x.block (Rose.lead (-f.index) f.after)) :=
    siblings.held _
      (by rw [Rose.blocksTo_cons]; exact List.mem_append_left _ (x.block_mem_blocks _))
  have notRoot : x.index ≠ rootIndex := by
    have nodup := h.all.nodup
    rw [List.map_append] at nodup
    intro root
    refine (List.nodup_append.mp nodup).2.2 rootIndex ?_ rootIndex ?_ rfl
    · rw [← h.root]
      exact List.mem_map.mpr ⟨r.block 0, r.block_mem_blocks 0, rfl⟩
    · rw [← root]
      have inside : x ∈ (Rose.fill fs (f.plug x)).nodes :=
        Rose.mem_nodes_fill fs (Rose.mem_nodes_child (c := x) (by simp) x.mem_nodes_self)
      obtain ⟨link, sub⟩ := Rose.blocks_sub inside next
      exact List.mem_map.mpr ⟨x.block link,
        List.mem_flatMap.mpr ⟨_, mem, sub (x.block_mem_blocks link)⟩, rfl⟩
  have enough : f.after.length < t.walkBound := by
    have count := siblings.length_le
    have some := Rose.length_blocksTo (-f.index) (x :: f.after)
    simp only [List.length_cons] at some
    unfold walkBound
    omega
  rw [Arena.parent, show t.isBroken (t.handle x.index) = false from has.isBroken, Bool.false_or,
    if_neg (by simpa using notRoot)]
  exact climb_siblings low siblings.held enough

/-- Two arenas that hold the same trees and have the same generations. -/
structure Twin (t u : Arena) (r : Rose) (o : Orphans) : Prop where
  first : t.HoldsBeside r o.blocks
  second : u.HoldsBeside r o.blocks
  size : u.size = t.size
  generations : ∀ i, i < t.freshIndex → u.generation i = t.generation i

theorem Twin.handle (twin : t.Twin u r o) {i : Int} (low : i < t.freshIndex) :
    u.handle i = t.handle i := by
  rw [Arena.handle, Arena.handle, twin.generations i low]

/-- The nodes of the tree read the same. -/
theorem Twin.reads_tree (twin : t.Twin u r o) (mem : x ∈ r.nodes) :
    t.Reads u (t.handle x.index) := by
  have first := twin.first.holds
  have second := twin.second.holds
  have same (i : Int) (inside : i ∈ r.indices) : u.handle i = t.handle i :=
    twin.handle (first.index_lt inside)
  obtain ⟨fs, rfl⟩ := Rose.exists_fill mem
  have below : ∀ i ∈ x.indices, u.handle i = t.handle i := fun i inside => same i (by
    obtain ⟨y, hy, rfl⟩ := List.mem_map.mp inside
    exact List.mem_map_of_mem (Rose.mem_nodes_fill fs hy))
  refine first.subtree.reads second.subtree twin.size below ?_
  rw [← below x.index x.index_mem_indices]
  cases fs with
  | nil =>
    have top : u.parent (u.handle x.index) = .ok .broken := second.parent_root
    rw [top, below x.index x.index_mem_indices]
    exact first.parent_root.symm
  | cons f fs =>
    rw [second.parent, below x.index x.index_mem_indices, first.parent, same]
    obtain ⟨g, hg, top⟩ : ∃ g ∈ (Rose.fill (f :: fs) x).nodes, g.index = f.index :=
      ⟨f.plug x, Rose.mem_nodes_fill fs (f.plug x).mem_nodes_self, rfl⟩
    exact top ▸ List.mem_map_of_mem hg

/-- The nodes below removed nodes read the same. -/
theorem Twin.reads_orphan (twin : t.Twin u r o) {next : Int} (mem : (next, s) ∈ o)
    (below : x ∈ s.children.flatMap Rose.nodes) : t.Reads u (t.handle x.index) := by
  have inside : x ∈ s.nodes := by
    rw [Rose.nodes_eq]
    exact List.mem_cons_of_mem _ below
  have lower {y : Rose} (mem' : y ∈ s.nodes) : y.index < t.freshIndex := by
    obtain ⟨link, sub⟩ := Rose.blocks_sub mem' next
    have high := (twin.first.all.held (y.block link) (List.mem_append_right _
      (List.mem_flatMap.mpr ⟨_, mem, sub (y.block_mem_blocks link)⟩))).high
    simp only [Rose.block] at high
    unfold freshIndex
    omega
  have same (i : Int) (here : i ∈ x.indices) : u.handle i = t.handle i := by
    obtain ⟨y, hy, rfl⟩ := List.mem_map.mp here
    exact twin.handle (lower (Rose.mem_nodes_trans hy inside))
  refine (twin.first.has_orphan mem inside).reads
    (twin.second.has_orphan mem inside) twin.size same ?_
  obtain ⟨f, plugged⟩ := Rose.exists_plug below
  have own := same x.index x.index_mem_indices
  have above : u.handle f.index = t.handle f.index := twin.handle (lower plugged)
  rw [← own, twin.second.parent_orphan mem plugged, own,
    twin.first.parent_orphan mem plugged, above]

/-- The listing, which handles are broken and what nodes in use read do not change. -/
theorem Twin.order (twin : t.Twin u r o) : t.order = .ok r.indices ∧ u.order = .ok r.indices :=
  ⟨twin.first.holds.order, twin.second.holds.order⟩

theorem Twin.isBroken (twin : t.Twin u r o) (h : Handle) : u.isBroken h = t.isBroken h := by
  rw [Arena.isBroken, Arena.isBroken, hasRecord, hasRecord, twin.size]
  by_cases low : h.index < t.freshIndex
  · rw [twin.generations _ low]
  · have out : decide (h.index + 2 < (t.size : Int)) = false := by
      unfold freshIndex at low
      exact decide_eq_false (by omega)
    rw [out, Bool.and_false, Bool.not_false, Bool.true_or, Bool.true_or]

/-! ## Refused moves -/

/-- A move that is refused leaves everything as it was, whatever should have been moved. -/
theorem HoldsBeside.adopt_undone (h : t.HoldsBeside r o.blocks)
    {above below : Handle} (reach : t.Reachable above)
    {why : Refusal} (done : t.adopt above below = .ok (u, some why)) : t.Twin u r o := by
  obtain ⟨s, mem, rfl⟩ := h.holds.reachable_iff.mp reach
  obtain ⟨fs, rfl⟩ := Rose.exists_fill mem
  rcases adopt_cases done with ⟨broken, -, -⟩ | ⟨-, grown, moved, moves⟩
  · rw [h.holds.isBroken] at broken
    cases broken
  · obtain ⟨v, added, holds, size, generations⟩ := h.addChild 0 []
    obtain ⟨rfl, -⟩ := Prod.mk.inj (Except.ok.inj (added.symm.trans moves.added))
    obtain rfl : v = moved := Except.ok.inj moves.swapped
    have last : t.freshIndex + 3 + (([] : List Int).length : Nat) = v.size := by
      rw [size]
      unfold freshIndex
      push_cast
      omega
    obtain ⟨w, removed, back, given, kept⟩ := holds.detach_last last
    obtain rfl : w = u := Except.ok.inj (removed.symm.trans moves.removed)
    refine ⟨h, back, ?_, fun i low => (kept i low.ne).trans (generations i)⟩
    unfold freshIndex at given
    omega

/-! ## Upkeep -/

/-- An arena holds a tree, and every node in use is in it or below a removed node. -/
structure Upholds (t : Arena) (used : Handle → Prop) (r : Rose) (o : Orphans) : Prop where
  holds : t.HoldsBeside r o.blocks
  fits : r.Fits
  used : ∀ h, used h → ∃ i, (i ∈ r.indices ∨ i ∈ o.indices) ∧ h = t.handle i

def Kept (t : Arena) (used : Handle → Prop) : Prop := ∃ r o, t.Upholds used r o

/-- The nodes of the tree may be used. -/
theorem Upholds.reachable {used : Handle → Prop} (keeps : t.Upholds used r o) :
    t.Upholds (fun h => t.Reachable h ∨ used h) r o := by
  refine ⟨keeps.holds, keeps.fits, fun h inside => ?_⟩
  rcases inside with reach | inside
  · obtain ⟨s, mem, rfl⟩ := keeps.holds.holds.reachable_iff.mp reach
    exact ⟨s.index, .inl (List.mem_map_of_mem mem), rfl⟩
  · exact keeps.used h inside

theorem Upholds.mono {used other : Handle → Prop} (keeps : t.Upholds used r o)
    (fewer : ∀ h, other h → used h) : t.Upholds other r o :=
  ⟨keeps.holds, keeps.fits, fun h inside => keeps.used h (fewer h inside)⟩

theorem Kept.reachable {used : Handle → Prop} (kept : t.Kept used) : t.Kept fun h => t.Reachable h ∨
    used h := by
  obtain ⟨r, o, keeps⟩ := kept
  exact ⟨r, o, keeps.reachable⟩

theorem Kept.mono {used other : Handle → Prop} (kept : t.Kept used)
    (fewer : ∀ h, other h → used h) : t.Kept other := by
  obtain ⟨r, o, keeps⟩ := kept
  exact ⟨r, o, keeps.mono fewer⟩

theorem kept_new (rootType : Int) : (new rootType).Kept fun h => (new rootType).Reachable h := by
  have keeps : (new rootType).Upholds (fun _ => False) (.node rootIndex rootType [] []) [] :=
    ⟨(holds_new rootType).beside, Rose.fits_iff.mpr ⟨by simp [largestBlock], by simp⟩, nofun⟩
  exact ⟨_, _, keeps.reachable.mono fun _ => .inl⟩

/-- Every request that may be made is answered, and no node in use is lost but one that is
removed. -/
theorem Kept.request {used : Handle → Prop} (kept : t.Kept used) {request : Request}
    (admissible : request.Admissible t) : ∃ t' reply, request.apply t = .ok (t', reply) ∧
    t'.Kept fun h => t'.Reachable h ∨ (used h ∧ ¬ (request = .remove h ∧ reply = .done)) := by
  obtain ⟨r, o, keeps⟩ := kept
  obtain ⟨t', reply, r', o', answered⟩ := keeps.holds.answers keeps.fits admissible
  refine ⟨t', reply, answered.ran, r', o',
    Upholds.reachable ⟨answered.holds, answered.fits, fun h ⟨inside, stays⟩ => ?_⟩⟩
  obtain ⟨i, alive, rfl⟩ := keeps.used h inside
  rcases answered.alive i alive with ⟨alive, same⟩ | removed
  · exact ⟨i, alive, by rw [Arena.handle, Arena.handle, same]⟩
  · exact absurd removed stays

/-- A copy of any tree can be appended to a node of the tree. -/
theorem Kept.graft {used : Handle → Prop} (kept : t.Kept used)
    {n : Handle} (names : t.Names n) {c : Rose} (short : c.Fits) :
    ∃ t' m, t.graft n c = .ok (t', m) ∧ t'.Kept fun h => t'.Reachable h ∨ used h := by
  obtain ⟨r, o, keeps⟩ := kept
  rcases names with reach | broken
  · obtain ⟨s, mem, rfl⟩ := keeps.holds.holds.reachable_iff.mp reach
    obtain ⟨fs, rfl⟩ := Rose.exists_fill mem
    obtain ⟨t', c', ran, holds, shape, generations⟩ := HoldsBeside.graft c keeps.holds
    have edited := Rose.edit_fill keeps.holds.holds.nodup (·.push c')
    refine ⟨t', _, ran, _, o, Upholds.reachable ⟨holds, ?_, fun h inside => ?_⟩⟩
    · exact edited ▸ keeps.fits.edit fun x hx _ => (keeps.fits.sub hx).push (short.of_shape shape)
    · obtain ⟨i, alive, rfl⟩ := keeps.used h inside
      refine ⟨i, alive.imp_left fun old => ?_, by rw [Arena.handle, Arena.handle, generations]⟩
      refine (Rose.indices_fill fs (s.push c')).symm.subset ?_
      rw [Rose.indices_push]
      exact (List.mem_append.mp ((Rose.indices_fill fs s).subset old)).elim (List.mem_append_left _)
        fun own => List.mem_append_right _ (List.mem_append_left _ own)
  · exact ⟨t, .broken, graft_broken c broken, r, o, keeps.reachable⟩

/-- A subtree of the tree can be read. -/
theorem Kept.viewOf {used : Handle → Prop} (kept : t.Kept used) {n : Handle}
    (reach : t.Reachable n) : ∃ s, t.viewOf n = .ok s ∧ s.Fits := by
  obtain ⟨r, o, keeps⟩ := kept
  have h := keeps.holds.holds
  obtain ⟨s, mem, rfl⟩ := h.reachable_iff.mp reach
  obtain ⟨fs, rfl⟩ := Rose.exists_fill mem
  have low : s.height ≤ t.walkBound := (Rose.height_le_of_mem_nodes mem).trans h.height_le
  exact ⟨s, h.subtree.viewAt_eq low (keeps.fits.sub mem), keeps.fits.sub mem⟩

/-- After a node of the tree comes a node or none. -/
theorem Kept.next {used : Handle → Prop} (kept : t.Kept used) {n : Handle} (reach : t.Reachable n) :
    ∃ m, t.next n = .ok m := by
  obtain ⟨r, o, keeps⟩ := kept
  obtain ⟨s, mem, rfl⟩ := keeps.holds.holds.reachable_iff.mp reach
  obtain ⟨fs, rfl⟩ := Rose.exists_fill mem
  rcases keeps.holds.holds.next with ⟨-, none⟩ | ⟨c, -, -, -, -, some⟩
  · exact ⟨_, none⟩
  · exact ⟨_, some⟩

/-- The links of a node in use lead somewhere: its arguments, its children and its parent can be
read. -/
theorem Kept.links {used : Handle → Prop} (kept : t.Kept used) {n : Handle} (inside : used n) :
    (∀ k, ∃ v, t.arg n k = .ok v) ∧ (∀ k, ∃ m, t.child n k = .ok m) ∧ ∃ m, t.parent n = .ok m := by
  obtain ⟨r, o, keeps⟩ := kept
  obtain ⟨x, rfl, has, above⟩ : ∃ x : Rose, n = t.handle x.index ∧ t.Has x ∧
    ∃ m, t.parent (t.handle x.index) = .ok m := by
    obtain ⟨i, alive, rfl⟩ := keeps.used n inside
    rcases alive with tree | orphan
    · obtain ⟨x, mem, rfl⟩ := List.mem_map.mp tree
      obtain ⟨fs, rfl⟩ := Rose.exists_fill mem
      have h := keeps.holds.holds
      cases fs with
      | nil => exact ⟨x, rfl, h.subtree, _, h.parent_root⟩
      | cons f fs => exact ⟨x, rfl, h.subtree, _, h.parent⟩
    · obtain ⟨⟨next, s⟩, mem, below⟩ := List.mem_flatMap.mp orphan
      obtain ⟨c, child, below⟩ := List.mem_flatMap.mp below
      obtain ⟨x, hx, rfl⟩ := List.mem_map.mp below
      obtain ⟨f, plugged⟩ := Rose.exists_plug (List.mem_flatMap.mpr ⟨c, child, hx⟩)
      exact ⟨x, rfl, keeps.holds.has_orphan mem (Rose.mem_nodes_child child hx), _,
        keeps.holds.parent_orphan mem plugged⟩
  refine ⟨?_, ?_, above⟩
  · intro k
    by_cases low : k < 0
    · exact ⟨0, if_pos (by simp [low])⟩
    · obtain ⟨k, rfl⟩ := Int.eq_ofNat_of_zero_le (not_lt.mp low)
      exact ⟨_, has.arg k⟩
  · intro k
    by_cases outside : (k < 0 || t.amount (t.handle x.index) ≤ k) = true
    · exact ⟨.broken, if_pos outside⟩
    · rw [has.amount] at outside
      simp only [Bool.or_eq_true, decide_eq_true_eq, not_or, not_lt, not_le] at outside
      obtain ⟨k, rfl⟩ := Int.eq_ofNat_of_zero_le outside.1
      exact ⟨_, has.child_at (by omega)⟩

/-- What a request leaves alone reads the same at every node in use. -/
theorem Upholds.reads {used : Handle → Prop} (keeps : t.Upholds used r o) (twin : t.Twin u r o)
    {h : Handle} (inside : used h) : t.Reads u h := by
  obtain ⟨i, alive, rfl⟩ := keeps.used h inside
  rcases alive with tree | orphan
  · obtain ⟨x, mem, rfl⟩ := List.mem_map.mp tree
    exact twin.reads_tree mem
  · obtain ⟨⟨next, s⟩, mem, below⟩ := List.mem_flatMap.mp orphan
    obtain ⟨c, child, below⟩ := List.mem_flatMap.mp below
    obtain ⟨x, hx, rfl⟩ := List.mem_map.mp below
    exact twin.reads_orphan mem (List.mem_flatMap.mpr ⟨c, child, hx⟩)

end Arena

end BilingualC
