import Mathlib
import BilingualC.Fault

/-!
# Steps that may fail

What it means that a sequence of steps has given a result, and how a run may end: `Guarded.Ends`
says that it ends with an answer that has a property, or with one of some allowed faults. When no
fault is allowed the run gives an answer; when some are, the statement still excludes all others,
above all that a run does not come to an end.

Tables are arrays to which lists of cells are appended. The lemmas about them say where the old and
the new cells stand, and that a cell inside a table is read and written without a fault.
-/

namespace BilingualC

/-- A sequence of two steps gives a result if the first one gives something from which the second
one gives it. -/
theorem Guarded.bind_eq_ok {α β : Type} {x : Guarded α} {f : α → Guarded β} {b : β} :
    (x >>= f) = .ok b ↔ ∃ a, x = .ok a ∧ f a = .ok b := by
  cases x with
  | error e => exact iff_of_false nofun fun ⟨a, same, _⟩ => nomatch same
  | ok a => exact ⟨fun done => ⟨a, rfl, done⟩, fun ⟨_, same, done⟩ => Except.ok.inj same ▸ done⟩

namespace Guarded

variable {α β : Type} {ok : Fault → Prop} {x : Guarded α} {P Q : α → Prop}

/-- A run ends with an answer that has a property, or with an allowed fault. -/
def Ends (ok : Fault → Prop) (x : Guarded α) (Q : α → Prop) : Prop :=
  match x with
  | .ok a => Q a
  | .error f => ok f

theorem ends_ok {a : α} (good : Q a) (same : x = .ok a) : x.Ends ok Q := same ▸ good

theorem ends_pure {a : α} (good : Q a) : Ends ok (pure a) Q := good

theorem Ends.mono (ends : x.Ends ok P) (weaker : ∀ a, P a → Q a) : x.Ends ok Q := by
  cases x with
  | ok a => exact weaker a ends
  | error f => exact ends

theorem Ends.bind {f : α → Guarded β} {R : β → Prop} (ends : x.Ends ok P)
    (next : ∀ a, P a → (f a).Ends ok R) : Ends ok (x >>= f) R := by
  cases x with
  | ok a => exact next a ends
  | error e => exact ends

theorem Ends.and (first : x.Ends ok P) (second : x.Ends ok Q) : x.Ends ok fun a => P a ∧ Q a := by
  cases x with
  | ok a => exact ⟨first, second⟩
  | error e => exact first

/-- What is known of every answer of a run is known of the answer that it ends with. -/
theorem Ends.learn (ends : x.Ends ok P) (known : ∀ a, x = .ok a → P a → Q a) : x.Ends ok Q := by
  cases x with
  | ok a => exact known a rfl ends
  | error e => exact ends

/-- A run that may end with no fault gives an answer. -/
theorem Ends.answer (ends : x.Ends (fun _ => False) Q) : ∃ a, x = .ok a ∧ Q a := by
  cases x with
  | ok a => exact ⟨a, rfl, ends⟩
  | error e => exact ends.elim

end Guarded

/-- Tables and texts may become longer than a block of memory. -/
def Loose (ok : Fault → Prop) : Prop := ok .badLength

theorem or_and {L P Q : Prop} (first : L ∨ P) (second : L ∨ Q) : L ∨ (P ∧ Q) := by
  rcases first with loose | first
  · exact .inl loose
  · exact second.imp_right fun second => ⟨first, second⟩

/-! ## Tables that grow -/

section Tables

variable {α : Type}

theorem size_append_cells (table : Array α) (cells : List α) :
    (table ++ cells).size = table.size + cells.length := by
  rw [← Array.length_toList, Array.toList_appendList, List.length_append, Array.length_toList]

theorem getElem?_append_old (table : Array α) (cells : List α) {i : Nat} (old : i < table.size) :
    (table ++ cells)[i]? = table[i]? := by
  rw [← Array.getElem?_toList, Array.toList_appendList,
    List.getElem?_append_left (by simpa using old), Array.getElem?_toList]

theorem getElem?_append_new (table : Array α) (cells : List α) (k : Nat) :
    (table ++ cells)[table.size + k]? = cells[k]? := by
  rw [← Array.getElem?_toList, Array.toList_appendList,
    List.getElem?_append_right (by simp)]
  simp

theorem cellAt_of_lt {cells : Array α} {i : Int} {k : Nat} {value : α} (same : i = k)
    (found : cells[k]? = some value) : cellAt cells i = .ok value := by
  subst same
  simp [cellAt, found, pure, Except.pure]

theorem setCellAt_of_lt {cells : Array α} {i : Int} (value : α) (low : 0 ≤ i)
    (high : i.toNat < cells.size) :
    setCellAt cells i value = .ok (cells.setIfInBounds i.toNat value) := by
  simp [setCellAt, low, high, pure, Except.pure]

end Tables

end BilingualC
