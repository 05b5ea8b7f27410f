import Mathlib
import BilingualC.Proofs.Arena.Editing

/-!
# Moving a subtree to another node

A move appends a placeholder, exchanges it with the subtree and takes it away again. In the tree
this is erasing the subtree and appending it in its new place (`Holds.adopt`); a move that is
refused leaves the tree as it was (`HoldsBeside.adopt_refused`).
-/

namespace BilingualC

namespace Arena

variable {t : Arena} {r a b u : Rose} {fs gs : List Frame} {rest : List Block}

/-! ## Places of a tree -/

/-- All records lie before the next one. -/
theorem Holds.index_lt {i : Int} (h : t.Holds r) (mem : i ∈ r.indices) : i < t.freshIndex := by
  obtain ⟨s, hs, rfl⟩ := List.mem_map.mp mem
  obtain ⟨fs, rfl⟩ := Rose.exists_fill hs
  have high := h.block.high
  simp only [Rose.block] at high
  unfold freshIndex
  omega

theorem Holds.fresh (h : t.Holds r) : t.freshIndex ∉ r.indices :=
  fun mem => Int.lt_irrefl _ (h.index_lt mem)

/-- The refusal of a swap, when both nodes are there. -/
theorem Holds.swapRefusal (h : t.Holds (Rose.fill fs a)) (same : Rose.fill fs a = Rose.fill gs b) :
    t.swapRefusal? (t.handle a.index) (t.handle b.index) =
      .ok (if a.index = b.index then none
        else if a.index = rootIndex ∨ b.index = rootIndex ∨ b.index ∈ a.indices ∨
            a.index ∈ b.indices then
          some (.nestedNodes a.index b.index)
        else none) := by
  have h' : t.Holds (Rose.fill gs b) := same ▸ h
  simp only [swapRefusal?, h.isBroken, h'.isBroken, Bool.or_self, Bool.false_eq_true, if_false,
    index_handle, beq_iff_eq]
  by_cases index : a.index = b.index
  · simp [index, pure, Except.pure]
  · simp only [index, if_false, h.isNested same index, bind, Except.bind, decide_eq_true_eq]
    split <;> rfl

/-- Two nodes, neither of which lies in the subtree of the other, change places. -/
theorem HoldsBeside.exchange_places (h : t.HoldsBeside r rest) (placeA : r = Rose.fill fs a)
    (placeB : r = Rose.fill gs b) (below : b.index ∉ a.indices) (above : a.index ∉ b.indices) :
    ∃ t', t.exchange (t.handle a.index) (t.handle b.index) = .ok t' ∧
    t'.HoldsBeside (r.exchange a b) rest ∧
    (r.exchange a b).indices.Perm r.indices ∧ (∃ ks, r.exchange a b = Rose.fill ks a) ∧
    ∀ i, t'.generation i = t.generation i := by
  have nodup := h.holds.nodup
  rcases Rose.fill_eq_fill (placeA.symm.trans placeB) with ⟨inner, rfl, rfl⟩ | ⟨inner, rfl, rfl⟩
    | parts | parts
  · exact absurd (List.mem_map_of_mem (Rose.mem_nodes_fill inner b.mem_nodes_self)) below
  · exact absurd (List.mem_map_of_mem (Rose.mem_nodes_fill inner a.mem_nodes_self)) above
  · rw [placeA] at h nodup ⊢
    obtain ⟨f, inner, other, outer, same, -⟩ := h.holds.of_parts parts
    obtain ⟨t', ran, -, done, generations⟩ := HoldsBeside.exchange (same ▸ h)
    rw [same] at nodup ⊢
    rw [Rose.exchange_fill nodup]
    refine ⟨t', ran, done, Rose.indices_fork_comm f inner other outer a b,
      ⟨other ++ f.right (Rose.fill inner b) :: outer, ?_⟩, generations⟩
    rw [Rose.fill_append, Rose.fill_cons, Fork.plug_right]
    rfl
  · rw [placeB] at h nodup ⊢
    obtain ⟨f, inner, other, outer, same, -⟩ := h.holds.of_parts parts
    obtain ⟨t', -, ran, done, generations⟩ := HoldsBeside.exchange (same ▸ h)
    rw [same] at nodup ⊢
    rw [Rose.exchange_comm fun index => below (index ▸ a.index_mem_indices),
      Rose.exchange_fill nodup]
    refine ⟨t', ran, done, Rose.indices_fork_comm f inner other outer b a,
      ⟨inner ++ f.left (Rose.fill other b) :: outer, ?_⟩, generations⟩
    rw [Rose.fill_append, Rose.fill_cons]
    rfl

theorem Holds.exchange_places (h : t.Holds r) (placeA : r = Rose.fill fs a)
    (placeB : r = Rose.fill gs b) (below : b.index ∉ a.indices) (above : a.index ∉ b.indices) :
    ∃ t', t.exchange (t.handle a.index) (t.handle b.index) = .ok t' ∧ t'.Holds (r.exchange a b) ∧
    (∃ ks, r.exchange a b = Rose.fill ks a) ∧ ∀ i, t'.generation i = t.generation i :=
  (h.beside.exchange_places placeA placeB below above).imp fun _ ⟨ran, holds, _, more⟩ =>
    ⟨ran, holds.holds, more⟩

/-! ## Moving a subtree -/

/-- A subtree that does not hold a node is still there when the node gets a new child. -/
theorem mem_nodes_edit (placeU : r = Rose.fill fs u) (placeB : r = Rose.fill gs b)
    (away : u.index ∉ b.indices) (p : Rose) : b ∈ (Rose.fill fs (u.push p)).nodes := by
  rcases Rose.fill_eq_fill (placeU.symm.trans placeB) with ⟨inner, rfl, inside⟩ | ⟨inner, rfl, rfl⟩
    | parts | parts
  · apply Rose.mem_nodes_fill
    cases inner using List.reverseRecOn with
    | nil => exact absurd (inside ▸ u.index_mem_indices) away
    | append_singleton inner f =>
      rw [Rose.fill_append] at inside
      have child : Rose.fill inner b ∈ (u.push p).children := by
        rw [inside]
        simp [Rose.fill]
      exact Rose.mem_nodes_child child (Rose.mem_nodes_fill inner b.mem_nodes_self)
  · exact absurd (List.mem_map_of_mem (Rose.mem_nodes_fill inner u.mem_nodes_self)) away
  · obtain ⟨f, inner, other, outer, rfl, rfl⟩ := parts
    rw [Rose.fill_append, Rose.fill_cons]
    apply Rose.mem_nodes_fill
    refine Rose.mem_nodes_child (c := Rose.fill other b) ?_
      (Rose.mem_nodes_fill other b.mem_nodes_self)
    simp [Fork.left]
  · obtain ⟨f, inner, other, outer, rfl, rfl⟩ := parts
    rw [Rose.fill_append, Rose.fill_cons]
    apply Rose.mem_nodes_fill
    refine Rose.mem_nodes_child (c := Rose.fill inner b) ?_
      (Rose.mem_nodes_fill inner b.mem_nodes_self)
    simp [Fork.right]

/-- A placeholder that was appended can be taken away again. -/
theorem HoldsBeside.detach_last {i type : Int} {args : List Int}
    (h : t.HoldsBeside (Rose.fill fs (u.push (.node i type args []))) rest)
    (last : i + 3 + args.length = t.size) : ∃ t', t.detach (t.handle i) = .ok t' ∧
    t'.HoldsBeside (Rose.fill fs u) rest ∧ (t'.size : Int) = i - 2 ∧
    ∀ j, j ≠ i → t'.generation j = t.generation j := by
  have place : t.HoldsBeside (Rose.fill (u.lastFrame :: fs) (.node i type args [])) rest := h
  have drop : u.lastFrame.drop = u := by
    simp only [Frame.drop, Rose.lastFrame, List.append_nil, Rose.eta]
  obtain ⟨t', own, ran, holds, given, generations⟩ := place.detach
  rw [drop] at holds
  have given := (if_pos (show (Rose.node i type args []).children = [] ∧
    i + 3 + args.length = t.size from ⟨rfl, last⟩)) ▸ given
  exact ⟨t', ran, holds.forget, given.2, generations⟩

/-- A move whose steps are known. -/
theorem adopt_eq {above below p : Handle} {t₁ t₂ t₃ : Arena} {refusal : Option Refusal}
    (added : t.addChild above 0 [] = .ok (t₁, p)) (live : t₁.isBroken p = false)
    (asked : t₁.swapRefusal? p below = .ok refusal)
    (moved : (if refusal.isNone then t₁.exchange p below else pure t₁) = .ok t₂)
    (removable : t₂.removalRefusal? p = none) (removed : t₂.detach p = .ok t₃) :
    t.adopt above below = .ok (t₃, refusal) := by
  simp only [Arena.adopt, added, bind, Except.bind, live, Bool.false_eq_true, if_false, asked]
  cases refusal with
  | none =>
    simp only [Option.isNone_none, if_true] at moved
    simp only [Option.isNone_none, if_true, moved, removable, removed]
    rfl
  | some why =>
    obtain rfl : t₁ = t₂ := Except.ok.inj moved
    simp only [Option.isNone_some, Bool.false_eq_true, if_false, pure, Except.pure,
      removable, removed]

theorem removalRefusal_place {f : Frame} (h : t.Holds (Rose.fill (f :: fs) a)) :
    t.removalRefusal? (t.handle a.index) = none := by
  simp [removalRefusal?, h.isBroken, h.index_ne_root]

/-- A move that is refused takes its placeholder away again. -/
theorem HoldsBeside.adopt_refused (h : t.HoldsBeside (Rose.fill fs u) rest)
    {below : Handle} {refusal : Option Refusal}
    (asked : ∀ t₁ : Arena, t₁.Holds (Rose.fill fs (u.push (.node t.freshIndex 0 [] []))) →
      t₁.size = t.size + 5 → (∀ i, t₁.generation i = t.generation i) →
      t₁.swapRefusal? (t₁.handle t.freshIndex) below = .ok refusal ∧
      (if refusal.isNone then t₁.exchange (t₁.handle t.freshIndex) below else pure t₁) = .ok t₁) :
    ∃ t', t.adopt (t.handle u.index) below = .ok (t', refusal) ∧
    t'.HoldsBeside (Rose.fill fs u) rest ∧
    t'.size = t.size ∧ ∀ i, i ≠ t.freshIndex → t'.generation i = t.generation i := by
  obtain ⟨t₁, added, holds, size, generations⟩ := h.addChild 0 []
  have place : t₁.Holds (Rose.fill (u.lastFrame :: fs) (.node t.freshIndex 0 [] [])) := holds.holds
  have last : t.freshIndex + 3 + (([] : List Int).length : Nat) = t₁.size := by
    rw [size]
    unfold freshIndex
    push_cast
    omega
  obtain ⟨t', removed, done, given, kept⟩ := holds.detach_last last
  have same : t'.size = t.size := by
    unfold freshIndex at given
    omega
  obtain ⟨answer, stays⟩ := asked t₁ holds.holds size generations
  exact ⟨t', adopt_eq added place.isBroken answer stays (removalRefusal_place place) removed, done,
    same, fun i other => (kept i other).trans (generations i)⟩

/-- A node that holds the new parent cannot change places with the placeholder. -/
theorem Holds.placeholder_nested (h : t.Holds r) (placeU : r = Rose.fill fs u)
    (placeB : r = Rose.fill gs b) (nested : u.index ∈ b.indices) {t₁ : Arena}
    (holds : t₁.Holds (Rose.fill fs (u.push (.node t.freshIndex 0 [] [])))) :
    t₁.swapRefusal? (t₁.handle t.freshIndex) (t₁.handle b.index) =
    .ok (some (.nestedNodes t.freshIndex b.index)) := by
  let p : Rose := .node t.freshIndex 0 [] []
  obtain ⟨x, hx, index⟩ := List.mem_map.mp nested
  obtain ⟨inner, rfl⟩ := Rose.exists_fill hx
  rw [← Rose.fill_append] at placeB
  obtain ⟨rfl, rfl⟩ :=
    (show t.Holds (Rose.fill fs u) from placeU ▸ h).unique (placeU.symm.trans placeB) index.symm
  have grown : (Rose.fill inner (u.push p)).index = (Rose.fill inner u).index := by
    rw [Rose.index_fill, Rose.index_fill]
    rfl
  have place :
    Rose.fill (u.lastFrame :: (inner ++ gs)) p = Rose.fill gs (Rose.fill inner (u.push p)) := by
    rw [Rose.fill_cons, Rose.fill_append]
    rfl
  have inside : p.index ∈ (Rose.fill inner (u.push p)).indices :=
    List.mem_map_of_mem
      (Rose.mem_nodes_fill inner (Rose.mem_nodes_child (c := p) (by simp) p.mem_nodes_self))
  have apart : p.index ≠ (Rose.fill inner (u.push p)).index := by
    rw [grown]
    intro same
    refine h.fresh ?_
    rw [placeB, Rose.fill_append]
    exact List.mem_map.mpr ⟨Rose.fill inner u,
      Rose.mem_nodes_fill gs (Rose.mem_nodes_self _), same.symm⟩
  have last : t₁.Holds (Rose.fill (u.lastFrame :: (inner ++ gs)) p) := holds
  have refusal := last.swapRefusal place
  rw [if_neg apart, if_pos (.inr (.inr (.inr inside))), grown] at refusal
  exact refusal

/-- A subtree moves to the end of the children of a node outside it. -/
theorem HoldsBeside.adopt (beside : t.HoldsBeside r rest) (placeU : r = Rose.fill fs u)
    (placeB : r = Rose.fill gs b) (away : u.index ∉ b.indices) :
    ∃ t', t.adopt (t.handle u.index) (t.handle b.index) = .ok (t', none) ∧
    t'.HoldsBeside ((r.erase b.index).edit u.index (·.push b)) rest ∧
    (∀ i ∈ r.indices, i ∈ ((r.erase b.index).edit u.index (·.push b)).indices) ∧
    ∀ i, i ≠ t.freshIndex → t'.generation i = t.generation i := by
  let p : Rose := .node t.freshIndex 0 [] []
  have h := beside.holds
  have holdsU : t.HoldsBeside (Rose.fill fs u) rest := placeU ▸ beside
  have subB : ∀ i ∈ b.indices, i ∈ r.indices := by
    intro i hi
    obtain ⟨x, hx, rfl⟩ := List.mem_map.mp hi
    exact List.mem_map_of_mem (placeB ▸ Rose.mem_nodes_fill gs hx)
  have freshB : t.freshIndex ∉ b.indices := fun mem => h.fresh (subB _ mem)
  have apart : t.freshIndex ≠ b.index := fun same => freshB (same ▸ b.index_mem_indices)
  have notRoot : b.index ≠ rootIndex := by
    intro root
    have whole : r = Rose.fill [] r := rfl
    obtain ⟨-, rfl⟩ := (show t.Holds (Rose.fill gs b) from placeB ▸ h).unique
      (placeB.symm.trans whole) (root.trans h.root.symm)
    exact away (List.mem_map_of_mem (placeU ▸ Rose.mem_nodes_fill fs u.mem_nodes_self))
  obtain ⟨t₁, added, grown, -, generations⟩ := holdsU.addChild 0 []
  have holds := grown.holds
  -- In the tree with the placeholder the subtree is still there, and the two can change places.
  have placeP : Rose.fill fs (u.push p) = Rose.fill (u.lastFrame :: fs) p := rfl
  obtain ⟨ks, placeB'⟩ := Rose.exists_fill (mem_nodes_edit placeU placeB away p)
  have leaf : p.indices = [t.freshIndex] := by simp [Rose.indices_eq, p]
  have below : b.index ∉ p.indices := by simp [leaf, apart.symm]
  have handle : ∀ i, t₁.handle i = t.handle i := fun i => by simp only [Arena.handle, generations]
  have asked : t₁.swapRefusal? (t₁.handle t.freshIndex) (t.handle b.index) = .ok none := by
    have refusal := Holds.swapRefusal (placeP ▸ holds) (placeP.symm.trans placeB')
    have free : ¬ (p.index = rootIndex ∨ b.index = rootIndex ∨ b.index ∈ p.indices ∨
      p.index ∈ b.indices) := by
      rintro (root | root | inside | inside)
      · exact (show t₁.Holds (Rose.fill (u.lastFrame :: fs) p) from holds).index_ne_root root
      · exact notRoot root
      · exact below inside
      · exact freshB inside
    rw [if_neg (show p.index ≠ b.index from apart), if_neg free, handle b.index] at refusal
    exact refusal
  obtain ⟨t₂, exchanged, swapped, perm, ⟨ks, placeP'⟩, generations₂⟩ :=
    grown.exchange_places placeP placeB' below freshB
  -- The placeholder now stands where the subtree stood.
  have besideP : t₂.HoldsBeside (Rose.fill ks p) rest := placeP' ▸ swapped
  have holdsP := besideP.holds
  cases ks with
  | nil =>
    exact absurd holdsP.root (show t₁.Holds (Rose.fill (u.lastFrame :: fs) p)
      from holds).index_ne_root
  | cons f ks =>
    obtain ⟨t₃, own, removed, done, -, kept⟩ := besideP.detach
    have result : Rose.fill ks f.drop = (r.erase b.index).edit u.index (·.push b) := by
      rw [← Rose.erase_fill holdsP.nodup, ← placeP',
        ← Rose.erase_exchange_edit (p := p) h.fresh freshB (by rw [h.root]; exact notRoot.symm),
        placeU, Rose.edit_fill holdsU.holds.nodup]
    have handle₂ : ∀ i, t₂.handle i = t₁.handle i :=
      fun i => by simp only [Arena.handle, generations₂]
    rw [handle b.index] at exchanged
    rw [result] at done
    refine ⟨t₃, adopt_eq added (show t₁.Holds (Rose.fill (u.lastFrame :: fs) p)
      from holds).isBroken asked exchanged ?_ ?_, done.forget, fun i mem => ?_,
      fun i other => (kept i other).trans ((generations₂ i).trans (generations i))⟩
    · rw [← handle₂]
      exact removalRefusal_place holdsP
    · rw [← handle₂]
      exact removed
    · have inside := (Rose.indices_fill fs (u.push p)).symm.subset (a := i) (by
        rw [placeU] at mem
        rcases List.mem_append.mp ((Rose.indices_fill fs u).subset mem) with around | own
        · exact List.mem_append_left _ around
        · exact List.mem_append_right _ (Rose.indices_push u p ▸ List.mem_append_left _ own))
      rw [← result]
      have after := perm.symm.subset inside
      rw [placeP'] at after
      have parts := (Rose.indices_fill (f :: ks) p).subset after
      rw [leaf] at parts
      rcases List.mem_append.mp parts with around | own
      · exact Rose.outside_subset_drop f ks around
      · exact absurd (List.mem_singleton.mp own ▸ mem) h.fresh

theorem Holds.adopt (h : t.Holds r) (placeU : r = Rose.fill fs u) (placeB : r = Rose.fill gs b)
    (away : u.index ∉ b.indices) :
    ∃ t', t.adopt (t.handle u.index) (t.handle b.index) = .ok (t', none) ∧
      t'.Holds ((r.erase b.index).edit u.index (·.push b)) ∧
      ∀ i, i ≠ t.freshIndex → t'.generation i = t.generation i :=
  (h.beside.adopt placeU placeB away).imp fun _ ⟨ran, holds, _, more⟩ => ⟨ran, holds.holds, more⟩

end Arena

end BilingualC
