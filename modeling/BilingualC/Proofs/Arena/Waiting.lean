import Mathlib
import BilingualC.Node
import BilingualC.Proofs.Arena.Adoption

/-!
# Trees that wait under the root

While a program is read, the trees of its unfinished parts stand under the root in the order in
which they were finished. A new node is appended behind them, a tree moves under the last one, and a
tree is taken away. Each operation leaves the other trees and the handles to them alone.
-/

namespace BilingualC

/-- The root with some trees under it. -/
def Rose.unit (trees : List Rose) : Rose := .node Arena.rootIndex Kind.unit.number [] trees

namespace Rose

/-- The place of one tree under the root. -/
def placeUnder (before after : List Rose) : Frame :=
  ⟨Arena.rootIndex, Kind.unit.number, [], before, after⟩

theorem fill_placeUnder (before after : List Rose) (r : Rose) :
    fill [placeUnder before after] r = unit (before ++ r :: after) := rfl

theorem indices_unit (trees : List Rose) :
    (unit trees).indices = Arena.rootIndex :: trees.flatMap indices :=
  indices_eq _

/-- The index of a tree that waits is an index of the whole tree. -/
theorem index_mem_unit {trees : List Rose} {r : Rose} (mem : r ∈ trees) :
    r.index ∈ (unit trees).indices :=
  indices_child mem r.index_mem_indices

/-- Moving a tree under the last one leaves no index out. -/
theorem indices_move (xs ys : List Rose) (b u : Rose) :
    (unit (xs ++ b :: ys ++ [u])).indices.Perm (unit (xs ++ ys ++ [u.push b])).indices := by
  rw [indices_unit, indices_unit, List.perm_iff_count]
  intro j
  simp only [List.count_cons, List.flatMap_append, List.flatMap_cons, List.flatMap_nil,
    List.append_nil, indices_push, List.count_append]
  omega

end Rose

namespace Arena

open Rose

variable {t t' : Arena} {xs ys trees : List Rose} {u b r : Rose}

theorem Holds.handle_ne_broken (h : t.Holds (unit trees)) (mem : r ∈ trees) :
    t.handle r.index ≠ .broken := by
  obtain ⟨xs, ys, rfl⟩ := List.append_of_mem mem
  have placed : t.Holds (fill [placeUnder xs ys] r) := h
  have live := placed.isBroken
  intro same
  rw [same] at live
  cases live

/-- A tree that waits is there, and it can be read. -/
theorem Holds.waiting (h : t.Holds (unit trees)) (mem : r ∈ trees) : t.Has r := h.has.child mem

theorem Holds.isBroken_waiting (h : t.Holds (unit trees)) (mem : r ∈ trees) :
    t.isBroken (t.handle r.index) = false := by
  obtain ⟨xs, ys, rfl⟩ := List.append_of_mem mem
  have placed : t.Holds (fill [placeUnder xs ys] r) := h
  exact placed.isBroken

/-- A new node is appended. -/
theorem Holds.addNode_root (h : t.Holds (unit trees)) {kind : Kind} {loc : Location}
    {args : List Int} {n : Handle} (done : t.addNode t.root kind loc args = .ok (t', n)) :
    ∃ i, t'.Holds (unit (trees ++ [.node i kind.number (args ++ [loc.start, loc.stop]) []])) ∧
    n = t'.handle i ∧ ∀ j, t'.generation j = t.generation j := by
  have placed : t.Holds (fill [] (unit trees)) := h
  obtain ⟨u, made, holds, -, kept⟩ := placed.addChild kind.number (args ++ [loc.start, loc.stop])
  cases made.symm.trans done
  exact ⟨t.freshIndex, holds, rfl, kept⟩

/-- A tree that waits moves under the last one. -/
theorem Holds.adopt_last (h : t.Holds (unit (xs ++ b :: ys ++ [u]))) {refusal : Option Refusal}
    (done : t.adopt (t.handle u.index) (t.handle b.index) = .ok (t', refusal)) :
    t'.Holds (unit (xs ++ ys ++ [u.push b])) ∧
      ∀ j ∈ (unit (xs ++ b :: ys ++ [u])).indices, t'.generation j = t.generation j := by
  have nodup := h.nodup
  have placeU : unit (xs ++ b :: ys ++ [u]) = fill [placeUnder (xs ++ b :: ys) []] u := rfl
  have placeB : unit (xs ++ b :: ys ++ [u]) = fill [placeUnder xs (ys ++ [u])] b := by
    rw [fill_placeUnder]
    simp
  have away : u.index ∉ b.indices := by
    intro inside
    rw [placeU] at nodup
    refine outside_disjoint nodup u.index ?_ u.index_mem_indices
    simp only [outside, placeUnder, Frame.siblings, List.append_nil, List.mem_cons,
      List.map_flatMap, List.mem_flatMap]
    exact .inr ⟨b, by simp, inside⟩
  obtain ⟨v, made, holds, kept⟩ := h.adopt placeU placeB away
  cases made.symm.trans done
  have erased :
    (unit (xs ++ b :: ys ++ [u])).erase b.index = fill [placeUnder (xs ++ ys) []] u := by
    rw [placeB, erase_fill (placeB ▸ nodup)]
    simp [Frame.drop, placeUnder, fill, Frame.plug]
  have rest : (fill [placeUnder (xs ++ ys) []] u).indices.Nodup := by
    rw [fill_placeUnder, indices_unit]
    rw [indices_unit] at nodup
    exact nodup.sublist (.cons_cons _ (List.Sublist.flatMap (by simp) _))
  rw [erased, edit_fill rest] at holds
  exact ⟨holds, fun j mem => kept j fun same => h.fresh (same ▸ mem)⟩

/-- A tree that waits is taken away. -/
theorem Holds.remove_waiting (h : t.Holds (unit (xs ++ b :: ys))) {answer : Answer Arena}
    (done : t.remove (t.handle b.index) = .ok answer) :
    ∃ t', answer = .ok t' ∧ t'.Holds (unit (xs ++ ys)) ∧
    ∀ j ∈ (unit (xs ++ ys)).indices, t'.generation j = t.generation j := by
  have place : t.Holds (fill [placeUnder xs ys] b) := h
  obtain ⟨v, made, holds, kept⟩ := place.detach
  rw [Arena.remove, removalRefusal_place place] at done
  simp only [made] at done
  cases done
  refine ⟨v, rfl, holds, fun j mem => kept j fun same =>
    outside_disjoint place.nodup j ?_ (same ▸ b.index_mem_indices)⟩
  rw [indices_unit] at mem
  simpa [outside, placeUnder, Frame.siblings, List.map_flatMap, indices] using mem

end Arena

end BilingualC
