import Mathlib
import BilingualC.Proofs.Arena.Waiting

/-!
# Trees under the root in any order

The order in which trees stand under the root matters only at the end, when the program is complete.
`Arena.Carries` says which trees an arena carries and leaves their order open, so that a step on
some of them is said of a list that starts with these. Every step comes to an end, changes the trees
that it is about, and keeps the handles of the others.
-/

namespace BilingualC.Arena

open Rose

variable {t t' : Arena} {trees rest : List Rose} {r s u b : Rose}

/-! ## The tree at an index -/

/-- Siblings in a row that start at the same index are the same. -/
theorem siblings_eq {cs ds : List Rose} {last stop : Int}
    (first : ∀ b ∈ blocksTo last cs, t.HasBlock b) (second : ∀ b ∈ blocksTo stop ds, t.HasBlock b)
    (length : cs.length = ds.length) (head : cs.head?.map index = ds.head?.map index)
    (each : ∀ c ∈ cs, ∀ d, t.Has c → t.Has d → c.index = d.index → c = d) : cs = ds := by
  induction cs generalizing ds with
  | nil => exact (List.length_eq_zero_iff.mp length.symm).symm
  | cons c cs ih =>
    cases ds with
    | nil => cases length
    | cons d ds =>
      simp only [blocksTo_cons, List.mem_append, or_imp, forall_and] at first second
      have same : c.index = d.index := by simpa using head
      obtain rfl := each c List.mem_cons_self d ⟨_, first.1⟩ ⟨_, second.1⟩ same
      have link : lead last cs = lead stop ds :=
        (first.1 _ (block_mem_blocks _ c)).next.symm.trans (second.1 _ (block_mem_blocks _ c)).next
      have length : cs.length = ds.length := by simpa using length
      refine congrArg (c :: ·) (ih first.2 second.2 length ?_ fun e mem =>
        each e (List.mem_cons_of_mem c mem))
      cases cs with
      | nil => rw [List.length_eq_zero_iff.mp length.symm]
      | cons a cs =>
        cases ds with
        | nil => cases length
        | cons b ds => simpa using link

/-- An arena holds one tree at an index. -/
theorem Has.eq (first : t.Has r) (second : t.Has s) (same : r.index = s.index) : r = s := by
  induction r using Rose.induction_on generalizing s with
  | step i type args kids ih =>
    obtain ⟨j, type', args', kids'⟩ := s
    obtain rfl : i = j := same
    obtain ⟨next, held⟩ := first
    obtain ⟨next', held'⟩ := second
    rw [blocks_eq, List.forall_mem_cons] at held held'
    obtain ⟨block, below⟩ := held
    obtain ⟨block', below'⟩ := held'
    have types : type = type' := block.type.symm.trans block'.type
    have argc : (args.length : Int) = args'.length := block.argc.symm.trans block'.argc
    have counts : (kids.length : Int) = kids'.length := block.count.symm.trans block'.count
    have length : args.length = args'.length := by omega
    have arguments : args = args' := List.ext_getElem length fun k low high =>
      (block.args k low).symm.trans (block'.args k high)
    have count : kids.length = kids'.length := by omega
    have head : kids.head?.map index = kids'.head?.map index := by
      cases kids with
      | nil => rw [List.length_eq_zero_iff.mp count.symm]
      | cons c cs =>
        cases kids' with
        | nil => cases count
        | cons d ds => exact congrArg some ((block.first _ rfl).symm.trans (block'.first _ rfl))
    have children : kids = kids' := siblings_eq below below' count head fun c mem d first second =>
      ih c mem first second
    rw [types, arguments, children]

/-! ## Trees under the root -/

/-- The trees that stand under the root, in some order. -/
def Carries (t : Arena) (trees : List Rose) : Prop :=
  ∃ order, order.Perm trees ∧ t.Holds (unit order)

/-- The handles of some trees are the same in two arenas. -/
def Keeps (t t' : Arena) (trees : List Rose) : Prop :=
  ∀ r ∈ trees, t'.handle r.index = t.handle r.index

theorem Keeps.refl (t : Arena) (trees : List Rose) : t.Keeps t trees := fun _ _ => rfl

theorem Holds.carries (h : t.Holds (unit trees)) : t.Carries trees := ⟨trees, .refl trees, h⟩

theorem Carries.perm (h : t.Carries trees) (same : trees.Perm rest) : t.Carries rest := by
  obtain ⟨order, perm, holds⟩ := h
  exact ⟨order, perm.trans same, holds⟩

/-! ## Reading -/

theorem Carries.has (h : t.Carries trees) (mem : r ∈ trees) : t.Has r := by
  obtain ⟨order, perm, holds⟩ := h
  exact holds.waiting (perm.mem_iff.mpr mem)

theorem Carries.isBroken (h : t.Carries trees) (mem : r ∈ trees) :
    t.isBroken (t.handle r.index) = false := by
  obtain ⟨order, perm, holds⟩ := h
  exact holds.isBroken_waiting (perm.mem_iff.mpr mem)

theorem Carries.ne_broken (h : t.Carries trees) (mem : r ∈ trees) : t.handle r.index ≠ .broken := by
  obtain ⟨order, perm, holds⟩ := h
  exact holds.handle_ne_broken (perm.mem_iff.mpr mem)

theorem Carries.nodup (h : t.Carries trees) : (trees.map index).Nodup := by
  obtain ⟨order, perm, holds⟩ := h
  have nodup := holds.nodup
  rw [indices_unit, List.nodup_cons] at nodup
  refine (perm.map index).nodup_iff.mp (nodup.2.sublist ?_)
  rw [List.flatMap_def]
  have each (order : List Rose) : (order.map index).Sublist (order.map indices).flatten := by
    induction order with
    | nil => exact .slnil
    | cons r order ih =>
      rw [List.map_cons, List.map_cons, List.flatten_cons, indices_eq]
      exact (ih.trans (List.sublist_append_right _ _)).cons_cons _
  exact each order

/-- The children of the root are the trees that stand under it. -/
theorem Carries.perm_of_holds {parts : List Rose} (h : t.Carries trees)
    (holds : t.Holds (unit parts)) : parts.Perm trees := by
  obtain ⟨order, perm, held⟩ := h
  have same : order = parts :=
    congrArg children (held.has.eq holds.has (held.root.trans holds.root.symm))
  exact same ▸ perm

/-- The place of a tree, in which another tree can be put. -/
theorem Carries.place (h : t.Carries (r :: rest)) : ∃ f, t.Holds (fill [f] r) ∧
    ∀ (t' : Arena) (r' : Rose), t'.Holds (fill [f] r') → t'.Carries (r' :: rest) := by
  obtain ⟨order, perm, holds⟩ := h
  obtain ⟨xs, ys, rfl⟩ := List.append_of_mem (perm.mem_iff.mpr List.mem_cons_self)
  have others : (xs ++ ys).Perm rest := (List.perm_cons r).mp (List.perm_middle.symm.trans perm)
  exact ⟨placeUnder xs ys, holds, fun t' r' put =>
    ⟨xs ++ r' :: ys, List.perm_middle.trans (others.cons r'), put⟩⟩

/-- All records lie before the next one. -/
theorem Carries.index_lt (h : t.Carries trees) (mem : r ∈ trees) : r.index < t.freshIndex := by
  obtain ⟨order, perm, holds⟩ := h
  exact holds.index_lt (index_mem_unit (perm.mem_iff.mpr mem))

/-! ## Steps -/

/-- A new node is added. -/
theorem Carries.addNode (h : t.Carries trees) (kind : Kind) (loc : Location) (args : List Int) :
    ∃ t', t.addNode t.root kind loc args = .ok (t', t'.handle t.freshIndex) ∧
    t'.Carries (.node t.freshIndex kind.number (args ++ [loc.start, loc.stop]) [] :: trees) ∧
    t.Keeps t' trees := by
  obtain ⟨order, perm, holds⟩ := h
  have placed : t.Holds (fill [] (unit order)) := holds
  obtain ⟨t', made, grown, -, kept⟩ := placed.addChild kind.number (args ++ [loc.start, loc.stop])
  refine ⟨t', made, ⟨_, ?_, grown⟩, fun r _ => by rw [handle, handle, kept]⟩
  exact List.perm_append_singleton _ _ |>.trans (perm.cons _)

theorem unit_erase {xs ys : List Rose} (nodup : (unit (xs ++ b :: ys)).indices.Nodup) :
    (unit (xs ++ b :: ys)).erase b.index = unit (xs ++ ys) :=
  have placed : (fill [placeUnder xs ys] b).indices.Nodup := nodup
  erase_fill placed

theorem unit_edit {xs ys : List Rose}
    (nodup : (unit (xs ++ u :: ys)).indices.Nodup) (change : Rose → Rose) :
    (unit (xs ++ u :: ys)).edit u.index change = unit (xs ++ change u :: ys) :=
  have placed : (fill [placeUnder xs ys] u).indices.Nodup := nodup
  edit_fill placed change

/-- A tree moves under the root of another one. -/
theorem Carries.adopt (h : t.Carries (u :: b :: rest)) :
    ∃ t', t.adopt (t.handle u.index) (t.handle b.index) = .ok (t', none) ∧
    t'.Carries (u.push b :: rest) ∧ t.Keeps t' (u :: b :: rest) := by
  obtain ⟨order, perm, holds⟩ := h
  have nodup := holds.nodup
  obtain ⟨xs, ys, splitU⟩ := List.append_of_mem (perm.mem_iff.mpr List.mem_cons_self)
  obtain ⟨vs, ws, splitB⟩ :=
    List.append_of_mem (perm.mem_iff.mpr (List.mem_cons_of_mem u List.mem_cons_self))
  have placeU : unit order = fill [placeUnder xs ys] u := by rw [splitU]; rfl
  have placeB : unit order = fill [placeUnder vs ws] b := by rw [splitB]; rfl
  have left : (vs ++ ws).Perm (u :: rest) := by
    refine (List.perm_cons b).mp (List.perm_middle.symm.trans ?_)
    rw [← splitB]
    exact perm.trans (.swap b u rest)
  have others : b ∈ xs ++ ys := by
    have swapped := (List.perm_cons u).mp (List.perm_middle.symm.trans (splitU ▸ perm))
    exact swapped.mem_iff.mpr List.mem_cons_self
  have away : u.index ∉ b.indices := by
    intro inside
    rw [placeU] at nodup
    refine outside_disjoint nodup u.index ?_ u.index_mem_indices
    exact List.mem_cons_of_mem _ (List.mem_append_left _ (indices_sibling others inside))
  obtain ⟨t', moved, done, kept⟩ := holds.adopt placeU placeB away
  refine ⟨t', moved, ?_, fun r mem => ?_⟩
  · obtain ⟨zs, qs, splitL⟩ := List.append_of_mem (left.mem_iff.mpr List.mem_cons_self)
    have rest : (unit (zs ++ u :: qs)).indices.Nodup := by
      rw [← splitL, indices_unit]
      rw [splitB, indices_unit] at nodup
      exact nodup.sublist (.cons_cons _ (List.Sublist.flatMap (by simp) _))
    rw [splitB, unit_erase (splitB ▸ nodup), splitL, unit_edit rest] at done
    refine ⟨_, ?_, done⟩
    exact List.perm_middle.trans
      (((List.perm_cons u).mp (List.perm_middle.symm.trans (splitL ▸ left))).cons _)
  · have known : r.index ∈ (unit order).indices := index_mem_unit (perm.mem_iff.mpr mem)
    rw [handle, handle, kept _ fun same => holds.fresh (same ▸ known)]

/-- A tree is taken away. -/
theorem Carries.remove (h : t.Carries (b :: rest)) :
    ∃ t', t.remove (t.handle b.index) = .ok (.ok t') ∧ t'.Carries rest ∧ t.Keeps t' rest := by
  have nodup := h.nodup
  obtain ⟨order, perm, holds⟩ := h
  obtain ⟨xs, ys, rfl⟩ := List.append_of_mem (perm.mem_iff.mpr List.mem_cons_self)
  have others : (xs ++ ys).Perm rest := (List.perm_cons b).mp (List.perm_middle.symm.trans perm)
  have place : t.Holds (fill [placeUnder xs ys] b) := holds
  obtain ⟨t', made, done, kept⟩ := place.detach
  refine ⟨t', ?_, ⟨xs ++ ys, others, done⟩, fun r mem => ?_⟩
  · rw [Arena.remove, removalRefusal_place place]
    simp only [made]
    rfl
  · have other : r.index ≠ b.index := by
      intro same
      rw [List.map_cons, List.nodup_cons, ← same] at nodup
      exact nodup.1 (List.mem_map_of_mem mem)
    rw [handle, handle, kept _ other]

end BilingualC.Arena
