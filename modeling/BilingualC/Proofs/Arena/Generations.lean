import Mathlib
import BilingualC.Proofs.Arena.Cells
import BilingualC.Proofs.Guarded

/-!
# Generations

Only taking a node out changes a generation, that of the index of the node (`detach_generation`). A
handle that an operation gives carries the generation that its index has then (`Current`).
-/

namespace BilingualC

namespace Arena

variable {t t' : Arena} {n m : Handle}

/-- A handle names no node at all or carries the generation of its index. -/
def Current (t : Arena) (n : Handle) : Prop := n = .broken ∨ n.generation = t.generation n.index

theorem current_broken (t : Arena) : t.Current .broken := .inl rfl

theorem current_handle (t : Arena) (i : Int) : t.Current (t.handle i) := .inr rfl

/-! ## Walks -/

theorem current_load (t : Arena) (i : Int) : t.Current (t.load i) := by
  rw [load]
  split
  · exact current_handle t i
  · exact current_broken t

theorem current_child {i : Int} (done : t.child n i = .ok m) : t.Current m := by
  rw [child] at done
  split at done
  · exact Except.ok.inj done ▸ current_broken t
  · obtain ⟨index, -, done⟩ := Guarded.bind_eq_ok.mp done
    exact Except.ok.inj done ▸ current_handle t index

theorem current_climb {steps : Nat} {i : Int} (done : t.climb steps i = .ok m) : t.Current m := by
  induction steps generalizing i with
  | zero => cases done
  | succ steps ih =>
    obtain ⟨next, -, done⟩ := Guarded.bind_eq_ok.mp done
    split at done
    · exact Except.ok.inj done ▸ current_handle t (-next)
    · split at done
      · exact Except.ok.inj done ▸ current_broken t
      · exact ih done

theorem current_parent (done : t.parent n = .ok m) : t.Current m := by
  rw [parent] at done
  split at done
  · exact Except.ok.inj done ▸ current_broken t
  · exact current_climb done

theorem current_following {steps : Nat} {i : Int} (done : t.following steps i = .ok m) :
    t.Current m := by
  induction steps generalizing i with
  | zero => cases done
  | succ steps ih =>
    obtain ⟨next, -, done⟩ := Guarded.bind_eq_ok.mp done
    split at done
    · exact Except.ok.inj done ▸ current_handle t next
    · split at done
      · exact Except.ok.inj done ▸ current_broken t
      · exact ih done

theorem current_next (done : t.next n = .ok m) : t.Current m := by
  rw [next] at done
  split at done
  · exact Except.ok.inj done ▸ current_broken t
  · split at done
    · exact current_child done
    · exact current_following done

/-! ## Changes -/

theorem setCell_generations {i v : Int} (done : t.setCell i v = .ok t') :
    t'.generations = t.generations := by
  obtain ⟨items, -, done⟩ := Guarded.bind_eq_ok.mp done
  exact Except.ok.inj done ▸ rfl

theorem Current.of_generations (current : t.Current n) (same : t'.generations = t.generations) :
    t'.Current n := by
  rcases current with rfl | current
  · exact .inl rfl
  · exact .inr (by rw [current, generation, generation, same])

theorem setType_generations {type : Int} (done : t.setType n type = .ok t') :
    t'.generations = t.generations := by
  rw [setType] at done
  split at done
  · cases done
  · exact Except.ok.inj done ▸ rfl

theorem setArg_generations {i v : Int} (done : t.setArg n i v = .ok (.ok t')) :
    t'.generations = t.generations := by
  rw [setArg] at done
  split at done
  · cases done
  split at done
  · cases done
  obtain ⟨u, written, done⟩ := Guarded.bind_eq_ok.mp done
  obtain rfl : u = t' := Except.ok.inj (Except.ok.inj done)
  exact setCell_generations written

theorem addArg_generations {v : Int} (done : t.addArg n v = .ok t') :
    t'.generations = t.generations := by
  rw [addArg] at done
  split at done
  · cases done
  split at done
  · cases done
  · exact Except.ok.inj done ▸ rfl

/-- A new child is added to a node that is there only, and it is behind all cells. -/
theorem addChild_eq {type : Int} {args : List Int} (done : t.addChild n type args = .ok (t', m)) :
    (t.isBroken n = true ∧ t' = t ∧ m = .broken) ∨
      (t.isBroken n = false ∧ t'.generations = t.generations ∧ t'.size = t.size + 5 + args.length ∧
        m = t'.handle t.freshIndex) := by
  rw [addChild] at done
  split at done
  · next broken =>
    obtain ⟨rfl, rfl⟩ := Prod.mk.inj (Except.ok.inj done)
    exact .inl ⟨broken, rfl, rfl⟩
  · next live =>
    obtain ⟨last, -, done⟩ := Guarded.bind_eq_ok.mp done
    obtain ⟨rfl, rfl⟩ := Prod.mk.inj (Except.ok.inj done)
    refine .inr ⟨by simpa using live, ?_, ?_, rfl⟩
    · dsimp only [setFixedCell]
      split <;> rfl
    · split <;>
      · simp only [size_setFixedCell, size_append, List.length_append, List.length_cons,
          List.length_nil]
        omega

theorem addChild_current {type : Int} {args : List Int}
    (done : t.addChild n type args = .ok (t', m)) :
    t'.generations = t.generations ∧ t'.Current m := by
  rcases addChild_eq done with ⟨-, rfl, rfl⟩ | ⟨-, same, -, rfl⟩
  · exact ⟨rfl, current_broken _⟩
  · exact ⟨same, current_handle _ _⟩

theorem insert_current {type argc : Int} (done : t.insert n type argc = .ok (t', m)) :
    t'.generations = t.generations ∧ t'.Current m := by
  rw [insert] at done
  split at done
  · obtain ⟨rfl, rfl⟩ := Prod.mk.inj (Except.ok.inj done)
    exact ⟨rfl, current_broken _⟩
  · obtain ⟨slot, -, done⟩ := Guarded.bind_eq_ok.mp done
    dsimp only at done
    split at done
    · cases done
    obtain ⟨u, written, done⟩ := Guarded.bind_eq_ok.mp done
    obtain ⟨rfl, rfl⟩ := Prod.mk.inj (Except.ok.inj done)
    have same := setCell_generations written
    exact ⟨same, current_handle _ _⟩

theorem graft_current (r : Rose) {t t' : Arena} {n m : Handle} (done : t.graft n r = .ok (t', m)) :
    t'.generations = t.generations ∧ t'.Current m := by
  induction r using Rose.induction_on generalizing t t' n m with
  | step i type args children ih =>
    have all : ∀ cs : List Rose, (∀ c ∈ cs, c ∈ children) → ∀ {t t' : Arena} {n : Handle},
        graft.graftAll t n cs = .ok t' → t'.generations = t.generations := by
      intro cs
      induction cs with
      | nil =>
        intro _ t t' n done
        exact Except.ok.inj done ▸ rfl
      | cons c cs ihs =>
        intro sub t t' n done
        obtain ⟨⟨u, k⟩, first, done⟩ := Guarded.bind_eq_ok.mp done
        have rest := ihs (fun d hd => sub d (List.mem_cons_of_mem _ hd)) done
        exact rest.trans (ih c (sub c List.mem_cons_self) first).1
    rw [graft] at done
    obtain ⟨⟨u, k⟩, added, done⟩ := Guarded.bind_eq_ok.mp done
    obtain ⟨v, below, done⟩ := Guarded.bind_eq_ok.mp done
    obtain ⟨rfl, rfl⟩ := Prod.mk.inj (Except.ok.inj done)
    obtain ⟨same, current⟩ := addChild_current added
    have kept := all children (fun c hc => hc) below
    exact ⟨kept.trans same, current.of_generations kept⟩

/-- An exchange changes cells only. -/
theorem exchange_keeps {a b : Handle} (done : t.exchange a b = .ok t') :
    t'.generations = t.generations ∧ t'.size = t.size := by
  have size {u v : Arena} {i w : Int} (done : u.setCell i w = .ok v) : v.size = u.size := by
    obtain ⟨items, written, done⟩ := Guarded.bind_eq_ok.mp done
    obtain rfl := Except.ok.inj done
    rw [setCellAt] at written
    split at written
    · exact Except.ok.inj written ▸ Array.size_setIfInBounds
    · cases written
  rw [exchange] at done
  split at done
  · exact Except.ok.inj done ▸ ⟨rfl, rfl⟩
  · obtain ⟨slotA, -, done⟩ := Guarded.bind_eq_ok.mp done
    obtain ⟨slotB, -, done⟩ := Guarded.bind_eq_ok.mp done
    obtain ⟨atA, -, done⟩ := Guarded.bind_eq_ok.mp done
    obtain ⟨atB, -, done⟩ := Guarded.bind_eq_ok.mp done
    obtain ⟨u, first, done⟩ := Guarded.bind_eq_ok.mp done
    obtain ⟨v, second, done⟩ := Guarded.bind_eq_ok.mp done
    obtain rfl := Except.ok.inj done
    refine ⟨(setCell_generations second).trans (setCell_generations first), ?_⟩
    rw [size_setFixedCell, size_setFixedCell, size second, size first]

theorem swap_generations {a b : Handle} (done : t.swap a b = .ok (.ok t')) :
    t'.generations = t.generations := by
  obtain ⟨refusal, -, done⟩ := Guarded.bind_eq_ok.mp done
  cases refusal with
  | some why => cases done
  | none =>
    obtain ⟨u, exchanged, done⟩ := Guarded.bind_eq_ok.mp done
    obtain rfl : u = t' := Except.ok.inj (Except.ok.inj done)
    exact (exchange_keeps exchanged).1

/-! ## Removals -/

/-- A handle of an earlier generation is broken. -/
theorem isBroken_of_stale (stale : n.generation ≠ t.generation n.index) : t.isBroken n = true := by
  simp [isBroken, stale.symm]

/-- Taking a node out starts a new generation of its index. -/
theorem child_of_broken (gone : t.isBroken n = true) (i : Int) : t.child n i = .ok .broken := by
  have none : t.amount n = 0 := if_pos gone
  rw [child, none]
  split
  · rfl
  · next inside => simp at inside; omega

theorem parent_of_broken (gone : t.isBroken n = true) : t.parent n = .ok .broken :=
  if_pos (by rw [gone]; rfl)

theorem next_of_broken (gone : t.isBroken n = true) : t.next n = .ok .broken := if_pos gone

theorem detach_generations (done : t.detach n = .ok t') :
    t'.generations = t.generations.insert n.index (t.generation n.index + 1) := by
  obtain ⟨above, -, done⟩ := Guarded.bind_eq_ok.mp done
  obtain ⟨slot, -, done⟩ := Guarded.bind_eq_ok.mp done
  obtain ⟨u, first, done⟩ := Guarded.bind_eq_ok.mp done
  obtain ⟨count, -, done⟩ := Guarded.bind_eq_ok.mp done
  obtain ⟨v, second, done⟩ := Guarded.bind_eq_ok.mp done
  obtain rfl := Except.ok.inj done
  have kept : (v.reclaim n).generations = t.generations := by
    rw [reclaim]
    have same := (setCell_generations second).trans (setCell_generations first)
    split <;> exact same
  simp only [generation, kept]

theorem detach_generation (done : t.detach n = .ok t') (i : Int) :
    t'.generation i = if i = n.index then t.generation i + 1 else t.generation i := by
  rw [generation, detach_generations done, Std.TreeMap.getD_insert]
  split
  · next same =>
    obtain rfl : n.index = i := by simpa using same
    rw [if_pos rfl]
  · next other =>
    rw [if_neg (fun same => other (by simp [same]))]
    rfl

theorem remove_eq (done : t.remove n = .ok (.ok t')) : t.isBroken n = false ∧
    t.detach n = .ok t' := by
  rw [remove] at done
  split at done
  · cases done
  · next allowed =>
    obtain ⟨u, detached, done⟩ := Guarded.bind_eq_ok.mp done
    obtain rfl : u = t' := Except.ok.inj (Except.ok.inj done)
    refine ⟨?_, detached⟩
    rw [removalRefusal?] at allowed
    split at allowed
    · cases allowed
    · next live => simpa using live

theorem two_lt_size (live : t.isBroken n = false) : rootIndex ≤ n.index ∧ n.index + 2 < t.size ∧
    t.generation n.index = n.generation := by
  simpa [isBroken, hasRecord, and_assoc] using live

/-- The steps of a move under a node that is there: a placeholder is added, changes places with the
moved node unless that is refused, and is taken away. -/
structure Moves (t : Arena) (above below : Handle) (refusal : Option Refusal)
    (t' grown moved : Arena) : Prop where
  added : t.addChild above 0 [] = .ok (grown, grown.handle t.freshIndex)
  same : grown.generations = t.generations
  asked : grown.swapRefusal? (grown.handle t.freshIndex) below = .ok refusal
  swapped : (if refusal.isNone then grown.exchange (grown.handle t.freshIndex) below
    else pure grown) = .ok moved
  kept : moved.generations = grown.generations
  removed : moved.detach (grown.handle t.freshIndex) = .ok t'

theorem adopt_cases {above below : Handle} {refusal : Option Refusal}
    (done : t.adopt above below = .ok (t', refusal)) :
    (t.isBroken above = true ∧ t' = t ∧ refusal = some .brokenNode) ∨
    (t.isBroken above = false ∧ ∃ grown moved, t.Moves above below refusal t' grown moved) := by
  obtain ⟨⟨u, placeholder⟩, added, done⟩ := Guarded.bind_eq_ok.mp done
  dsimp only at done
  rcases addChild_eq added with ⟨broken, rfl, rfl⟩ | ⟨live, same, size, rfl⟩
  · rw [if_pos (isBroken_broken _)] at done
    obtain ⟨rfl, rfl⟩ := Prod.mk.inj (Except.ok.inj done)
    exact .inl ⟨broken, rfl, rfl⟩
  · have room := two_lt_size live
    have range : rootIndex < t.freshIndex := by
      unfold freshIndex rootIndex at *
      omega
    have there (v : Arena) (generations : v.generations = u.generations) (long : v.size = u.size) :
        v.isBroken (u.handle t.freshIndex) = false := by
      have inside : t.freshIndex + 2 < v.size := by
        rw [long, size]
        unfold freshIndex
        push_cast
        omega
      simp only [isBroken, hasRecord, handle, generation, generations, bne_self_eq_false,
        Bool.or_false, Bool.not_eq_false', Bool.and_eq_true]
      exact ⟨decide_eq_true range.le, decide_eq_true inside⟩
    rw [there u rfl rfl, if_neg (by decide)] at done
    obtain ⟨answer, asked, done⟩ := Guarded.bind_eq_ok.mp done
    have allowed (v : Arena) (kept : v.generations = u.generations ∧ v.size = u.size) :
        v.removalRefusal? (u.handle t.freshIndex) = none := by
      rw [removalRefusal?, if_neg (by simp [there v kept.1 kept.2]),
        if_neg (by simpa [handle] using range.ne')]
    cases answer with
    | none =>
      rw [if_pos Option.isNone_none] at done
      obtain ⟨v, swapped, done⟩ := Guarded.bind_eq_ok.mp done
      have kept := exchange_keeps swapped
      rw [allowed v kept] at done
      obtain ⟨w, detached, done⟩ := Guarded.bind_eq_ok.mp done
      obtain ⟨rfl, rfl⟩ := Prod.mk.inj (Except.ok.inj done)
      exact .inr ⟨live, u, v, added, same, asked, swapped, kept.1, detached⟩
    | some why =>
      rw [if_neg (by simp), pure_bind, allowed u ⟨rfl, rfl⟩] at done
      obtain ⟨w, detached, done⟩ := Guarded.bind_eq_ok.mp done
      obtain ⟨rfl, rfl⟩ := Prod.mk.inj (Except.ok.inj done)
      exact .inr ⟨live, u, u, added, same, asked, rfl, rfl, detached⟩

/-- A move starts a new generation of the next free index, which its placeholder has. -/
theorem Moves.generation {above below : Handle} {refusal : Option Refusal} {grown moved : Arena}
    (moves : t.Moves above below refusal t' grown moved) (i : Int) :
    t'.generation i = if i = t.freshIndex then t.generation i + 1 else t.generation i := by
  have before : moved.generation i = t.generation i := by
    rw [Arena.generation, Arena.generation, moves.kept, moves.same]
  rw [detach_generation moves.removed, before]
  rfl

/-- A node that no new record can bring back is not moved. -/
theorem Moves.refused {above below : Handle} {refusal : Option Refusal} {grown moved : Arena}
    (moves : t.Moves above below refusal t' grown moved)
    (dead : ∀ u : Arena, u.generations = t.generations → u.isBroken below = true) :
    refusal = some .brokenNode := by
  have asked := moves.asked
  rw [swapRefusal?, dead grown moves.same, Bool.or_true] at asked
  exact (Except.ok.inj asked).symm

end Arena

end BilingualC
