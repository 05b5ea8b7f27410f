import Mathlib
import BilingualC.Proofs.Session.Scopes

/-!
# Stored spellings

Whatever the hash function, no text is stored twice: a text is looked for along the chain of its
hash, every entry is on the chain of the hash of its own text, and chains lead to earlier entries
only (`Spellings.Stored`). So a text that is there is found, and a text that is not found is new.
-/

namespace BilingualC.Spellings

variable {hash : String → UInt64} {p q : Spellings} {text : String} {i j first : Nat}

/-- An entry is on the chain that starts at another one. -/
inductive OnChain (p : Spellings) (i : Nat) : Nat → Prop
  | here : OnChain p i i
  | later {first : Nat} {e : Spelling} (pos : first ≠ 0) (found : p.entries[first]? = some e)
      (rest : OnChain p i e.before) : OnChain p i first

/-- The first entry of the chain of a text. -/
def head (hash : String → UInt64) (p : Spellings) (text : String) : Nat :=
  p.chains.getD ((hash text).toNat % chainCount) 0

/-- Every entry is on the chain of its text, and no text is stored twice. -/
structure Stored (hash : String → UInt64) (p : Spellings) : Prop where
  nonempty : 0 < p.entries.size
  chains : p.chains.size = chainCount
  heads : ∀ c ∈ p.chains, c < p.entries.size
  before : ∀ i e, 0 < i → p.entries[i]? = some e → e.before < i
  chained : ∀ i e, 0 < i → p.entries[i]? = some e → p.OnChain i (p.head hash e.text)
  distinct : ∀ i j e f, 0 < i → 0 < j → p.entries[i]? = some e → p.entries[j]? = some f →
    e.text = f.text → i = j

/-- An entry that is found has the text that was looked for. -/
theorem findFrom_sound {steps : Nat} (found : p.findFrom text steps first = some i) :
    0 < i ∧ ∃ e, p.entries[i]? = some e ∧ e.text = text := by
  induction steps generalizing first with
  | zero => simp [findFrom] at found
  | succ steps ih =>
    cases first with
    | zero => simp [findFrom] at found
    | succ first =>
      rw [findFrom.eq_3 _ _ _ _ (Nat.succ_ne_zero first)] at found
      split at found
      · cases found
      next e entry =>
        split at found
        next same =>
          cases found
          exact ⟨Nat.succ_pos _, e, entry, by simpa using same⟩
        next => exact ih found

/-- A text that is on a chain is found. -/
theorem findFrom_complete {e : Spelling} {steps : Nat}
    (before : ∀ i e, 0 < i → p.entries[i]? = some e → e.before < i) (pos : 0 < i)
    (entry : p.entries[i]? = some e) (chain : p.OnChain i first) (enough : first < steps) :
    ∃ j, p.findFrom e.text steps first = some j := by
  induction steps generalizing first with
  | zero => omega
  | succ steps ih =>
    cases chain with
    | here =>
      obtain ⟨k, rfl⟩ : ∃ k, i = k + 1 := ⟨i - 1, by omega⟩
      simp [findFrom, entry]
    | @later _ d notZero found rest =>
      have low := before first d (by omega) found
      obtain ⟨k, rfl⟩ : ∃ k, first = k + 1 := ⟨first - 1, by omega⟩
      obtain ⟨j, later⟩ := ih rest (by omega)
      rw [findFrom.eq_3 _ _ _ _ (Nat.succ_ne_zero k), found]
      by_cases same : d.text = e.text
      · exact ⟨k + 1, by simp [same]⟩
      · exact ⟨j, by simp [same, later]⟩

theorem Stored.head_lt (stored : p.Stored hash) (text : String) :
    p.head hash text < p.entries.size := by
  have inside : (hash text).toNat % chainCount < p.chains.size := by
    rw [stored.chains]
    exact Nat.mod_lt _ (by decide)
  rw [head, Array.getD_eq_getD_getElem?, Array.getElem?_eq_getElem inside]
  exact stored.heads _ (Array.getElem_mem inside)

/-- Spellings stay stored when only their declarations change. -/
theorem Stored.of_same (stored : p.Stored hash)
    (chains : q.chains = p.chains) (size : q.entries.size = p.entries.size)
    (same : ∀ (i : Nat) (e : Spelling), q.entries[i]? = some e → ∃ d, p.entries[i]? = some d ∧
      d.text = e.text ∧ d.before = e.before) : q.Stored hash := by
  have onChain {i first : Nat} (chain : p.OnChain i first) : q.OnChain i first := by
    induction chain with
    | here => exact .here
    | @later first d pos found _ ih =>
      have inside : first < q.entries.size := by
        rw [size]
        exact (Array.getElem?_eq_some_iff.mp found).1
      obtain ⟨d', old, _, before⟩ := same first _ (Array.getElem?_eq_getElem inside)
      cases old.symm.trans found
      exact .later pos (Array.getElem?_eq_getElem inside) (before ▸ ih)
  refine ⟨size ▸ stored.nonempty, chains ▸ stored.chains, ?_, ?_, ?_, ?_⟩
  · rw [chains, size]
    exact stored.heads
  · intro i e pos entry
    obtain ⟨d, old, _, before⟩ := same i e entry
    exact before ▸ stored.before i d pos old
  · intro i e pos entry
    obtain ⟨d, old, text, _⟩ := same i e entry
    have chain := stored.chained i d pos old
    rw [text, head, ← chains] at chain
    exact onChain chain
  · intro i j e f posI posJ entryI entryJ text
    obtain ⟨d, oldI, textI, _⟩ := same i e entryI
    obtain ⟨d', oldJ, textJ, _⟩ := same j f entryJ
    exact stored.distinct i j d d' posI posJ oldI oldJ (by rw [textI, textJ, text])

theorem stored_empty (hash : String → UInt64) : empty.Stored hash := by
  have only (i : Nat) (e : Spelling) (pos : 0 < i) : empty.entries[i]? ≠ some e := by
    obtain ⟨k, rfl⟩ : ∃ k, i = k + 1 := ⟨i - 1, by omega⟩
    simp [empty]
  refine ⟨by simp [empty], by simp [empty], fun c mem => ?_, fun i e pos entry =>
    absurd entry (only i e pos), fun i e pos entry => absurd entry (only i e pos),
    fun i j e f pos _ entry => absurd entry (only i e pos)⟩
  obtain rfl : c = 0 := by simpa [empty] using (Array.mem_replicate.mp mem).2
  simp [empty]

/-- The spellings with a new text, which becomes the first one of its chain. -/
def pushed (hash : String → UInt64) (p : Spellings) (text : String) : Spellings :=
  ⟨p.entries.push ⟨text, 0, p.head hash text⟩,
    p.chains.setIfInBounds ((hash text).toNat % chainCount) p.entries.size⟩

theorem internWith_cases (hash : String → UInt64) (p : Spellings) (text : String) :
    (∃ i, p.findFrom text p.entries.size (p.head hash text) = some i ∧
      p.internWith hash text = (p, i)) ∨ (p.findFrom text p.entries.size (p.head hash text) = none ∧
      p.internWith hash text = (p.pushed hash text, p.entries.size)) := by
  simp only [internWith]
  split
  next i found => exact .inl ⟨i, found, rfl⟩
  next miss => exact .inr ⟨miss, rfl⟩

theorem pushed_old (low : i < p.entries.size) : (p.pushed hash text).entries[i]? = p.entries[i]? :=
  Array.getElem?_push_lt low |>.trans (Array.getElem?_eq_getElem low).symm

theorem pushed_new :
    (p.pushed hash text).entries[p.entries.size]? = some ⟨text, 0, p.head hash text⟩ := by
  simp [pushed]

theorem pushed_cases {e : Spelling} (entry : (p.pushed hash text).entries[i]? = some e) :
    (i < p.entries.size ∧ p.entries[i]? = some e) ∨
    (i = p.entries.size ∧ e = ⟨text, 0, p.head hash text⟩) := by
  rcases lt_trichotomy i p.entries.size with low | rfl | high
  · exact .inl ⟨low, pushed_old low ▸ entry⟩
  · exact .inr ⟨rfl, Option.some.inj (entry.symm.trans pushed_new)⟩
  · have inside := (Array.getElem?_eq_some_iff.mp entry).1
    simp only [pushed, Array.size_push] at inside
    omega

theorem OnChain.pushed (chain : p.OnChain i first) : (p.pushed hash text).OnChain i first := by
  induction chain with
  | here => exact .here
  | later pos found _ ih =>
    exact .later pos ((pushed_old (Array.getElem?_eq_some_iff.mp found).1).trans found) ih

/-- A text that was looked for and not found can be added. -/
theorem Stored.pushed (stored : p.Stored hash)
    (miss : p.findFrom text p.entries.size (p.head hash text) = none) :
    (p.pushed hash text).Stored hash := by
  have start := stored.head_lt text
  have size : (p.pushed hash text).entries.size = p.entries.size + 1 := Array.size_push ..
  have inside : (hash text).toNat % chainCount < p.chains.size := by
    rw [stored.chains]
    exact Nat.mod_lt _ (by decide)
  have new (i : Nat) (e : Spelling) (pos : 0 < i) (entry : p.entries[i]? = some e) :
    e.text ≠ text := by
    rintro rfl
    obtain ⟨j, found⟩ :=
      findFrom_complete stored.before pos entry (stored.chained i e pos entry) start
    rw [found] at miss
    cases miss
  constructor
  case nonempty => omega
  case chains => exact (Array.size_setIfInBounds ..).trans stored.chains
  case heads =>
    intro c mem
    rw [size]
    rcases Array.mem_or_eq_of_mem_setIfInBounds mem with old | rfl
    · exact Nat.lt_succ_of_lt (stored.heads c old)
    · exact Nat.lt_succ_self _
  case before =>
    intro i e pos entry
    rcases pushed_cases entry with ⟨_, old⟩ | ⟨rfl, rfl⟩
    · exact stored.before i e pos old
    · exact start
  case chained =>
    intro i e pos entry
    -- A chain is as before, or it starts with the new entry, which leads to it.
    have head (other : String) : (p.pushed hash text).head hash other =
        if (hash text).toNat % chainCount = (hash other).toNat % chainCount then p.entries.size
          else p.head hash other := by
      have low : (hash other).toNat % chainCount < p.chains.size := by
        rw [stored.chains]
        exact Nat.mod_lt _ (by decide)
      simp only [Spellings.head, Spellings.pushed, Array.getD_eq_getD_getElem?]
      rw [Array.getElem?_setIfInBounds]
      split
      · simp
      · rfl
    rw [head]
    rcases pushed_cases entry with ⟨low, old⟩ | ⟨rfl, rfl⟩
    · have chain : (p.pushed hash text).OnChain i _ := (stored.chained i e pos old).pushed
      split
      next same =>
        refine .later (by have := stored.nonempty; omega) pushed_new ?_
        rwa [Spellings.head, same]
      next => exact chain
    · simp only [if_true]
      exact .here
  case distinct =>
    intro i j e f posI posJ entryI entryJ same
    rcases pushed_cases entryI with ⟨lowI, oldI⟩ | ⟨rfl, rfl⟩ <;>
      rcases pushed_cases entryJ with ⟨lowJ, oldJ⟩ | ⟨rfl, rfl⟩
    · exact stored.distinct i j e f posI posJ oldI oldJ same
    · exact absurd same (new i e posI oldI)
    · exact absurd same.symm (new j f posJ oldJ)
    · rfl

/-- What storing a text gives: an entry with the text, behind or among those that were there. -/
structure Interned (hash : String → UInt64) (p : Spellings) (text : String)
    (new : Spellings × Nat) : Prop where
  stored : new.1.Stored hash
  more : p.entries.size ≤ new.1.entries.size
  kept : ∀ i < p.entries.size, new.1.entries[i]? = p.entries[i]?
  pos : 0 < new.2
  entry : ∃ e, new.1.entries[new.2]? = some e ∧ e.text = text

theorem Stored.interned (stored : p.Stored hash) (text : String) :
    p.Interned hash text (p.internWith hash text) := by
  rcases internWith_cases hash p text with ⟨i, found, made⟩ | ⟨miss, made⟩
  · obtain ⟨pos, e, entry, same⟩ := findFrom_sound found
    rw [made]
    exact ⟨stored, le_refl _, fun _ _ => rfl, pos, e, entry, same⟩
  · rw [made]
    refine ⟨stored.pushed miss, ?_, fun i low => pushed_old low, stored.nonempty, _,
      pushed_new, rfl⟩
    simp [Spellings.pushed]

end BilingualC.Spellings
