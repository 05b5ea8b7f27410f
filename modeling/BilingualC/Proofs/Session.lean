import Mathlib
import BilingualC.Proofs.Guarded
import BilingualC.Session

/-!
# Tables of a session

What changing a declaration and adding one do to the declarations of a session.
-/

namespace BilingualC.Session

variable {s t : Session} {id : Int} {change : Identifier → Identifier}

/-- The session with one declaration changed. -/
def changed (s : Session) (id : Int) (change : Identifier → Identifier) : Session :=
  { s with
    identifiers := s.identifiers.setIfInBounds id.toNat
      (change (s.identifiers.getD id.toNat .none)) }

@[simp] theorem size_changed : (s.changed id change).identifiers.size = s.identifiers.size :=
  Array.size_setIfInBounds

theorem changeIdentifier_of_lt (low : 0 ≤ id)
    (high : id < s.identifiers.size) (change : Identifier → Identifier) :
    s.changeIdentifier id change = .ok (s.changed id change) := by
  have inside : id.toNat < s.identifiers.size := by omega
  have found : cellAt s.identifiers id = .ok s.identifiers[id.toNat] :=
    cellAt_of_lt (Int.toNat_of_nonneg low).symm (Array.getElem?_eq_getElem inside)
  have entry : s.identifiers.getD id.toNat .none = s.identifiers[id.toNat] := by
    simp [Array.getD, inside]
  rw [changeIdentifier, found]
  simp only [bind, Except.bind, setCellAt_of_lt _ low inside, changed, entry]
  rfl

theorem changeIdentifier_eq_ok (done : s.changeIdentifier id change = .ok t) :
    0 ≤ id ∧ id < s.identifiers.size ∧ t = s.changed id change := by
  by_cases inside : 0 ≤ id ∧ id < s.identifiers.size
  · rw [changeIdentifier_of_lt inside.1 inside.2] at done
    cases done
    exact ⟨inside.1, inside.2, rfl⟩
  · have missing : cellAt s.identifiers id = .error .badIndex := by
      by_cases low : id < 0
      · simp [cellAt, low, throw, throwThe, MonadExceptOf.throw]
      · have out : s.identifiers.size ≤ id.toNat := by omega
        simp [cellAt, low, out, throw, throwThe, MonadExceptOf.throw]
    rw [changeIdentifier, missing] at done
    cases done

theorem identifier_of_range (low : 0 < id) (high : id < s.identifiers.size) :
    s.identifier id = s.identifiers.getD id.toNat .none := by
  simp [identifier, low, high]

theorem identifier_of_out (out : ¬ (0 < id ∧ id < s.identifiers.size)) :
    s.identifier id = .none := by
  rw [identifier, if_neg (by simpa using out)]

theorem identifier_changed_same (low : 0 < id) (high : id < s.identifiers.size) :
    (s.changed id change).identifier id = change (s.identifier id) := by
  have inside : id.toNat < s.identifiers.size := by omega
  rw [identifier_of_range low (by simpa using high), identifier_of_range low high]
  simp [changed, inside]

theorem identifier_changed_ne {k : Int} (ne : k ≠ id) :
    (s.changed id change).identifier k = s.identifier k := by
  by_cases inside : 0 < k ∧ k < s.identifiers.size
  · have other : id.toNat ≠ k.toNat := by omega
    rw [identifier_of_range inside.1 (by simpa using inside.2),
      identifier_of_range inside.1 inside.2]
    simp [changed, other]
  · rw [identifier_of_out inside, identifier_of_out (by simpa using inside)]

/-! ## New declarations -/

theorem identifier_push {e : Identifier} (same : t.identifiers = s.identifiers.push e)
    (old : id < s.identifiers.size) : t.identifier id = s.identifier id := by
  unfold identifier
  rw [same]
  by_cases low : 0 < id
  · have inside : id.toNat < s.identifiers.size := by omega
    have later : id < (s.identifiers.push e).size := by
      rw [Array.size_push]
      omega
    simp only [low, old, later, decide_true, Bool.and_self, if_true, Array.getD_eq_getD_getElem?]
    rw [Array.getElem?_push_lt inside, Array.getElem?_eq_getElem inside]
  · simp [low]

theorem identifier_last {e : Identifier} (same : t.identifiers = s.identifiers.push e)
    (some : 0 < s.identifiers.size) : t.identifier s.identifiers.size = e := by
  unfold identifier
  rw [same]
  simp [some]

end BilingualC.Session
