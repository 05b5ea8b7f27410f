import Mathlib
import BilingualC.Proofs.Session.Frames
import BilingualC.Proofs.Spelling

/-!
# Numbers of texts

A text gets its number when it is stored for the first time, and the numbers are given out one after
the other. A `SpellingState` is a session together with the texts that were stored in it, and a
`SpellingState.Step` is the storing of one more text, or anything else that happens in the session.
The hash of a text may be any word.

The chains carry the proofs: every entry is on the chain of its text (`Spellings.Stored`), and
nothing that happens later changes the text of an entry or its place in its chain
(`Spellings.SameTexts`).

Main result: `SpellingState.texts_numbered`.
-/

namespace BilingualC

namespace Spellings

variable {hash : String → UInt64} {p q r : Spellings} {text : String} {first : Nat}

/-! ## Searching along a chain -/

/-- The search for a text from an entry on comes to an end: at an entry with the text, or at the end
of the chain. Every entry that it comes to is there. -/
inductive Search (p : Spellings) (text : String) : Nat → Option Nat → Prop
  | missed : Search p text 0 none
  | found {i : Nat} {e : Spelling} (pos : i ≠ 0) (entry : p.entries[i]? = some e)
      (same : e.text = text) : Search p text i (some i)
  | on {i : Nat} {e : Spelling} {out : Option Nat} (pos : i ≠ 0) (entry : p.entries[i]? = some e)
      (other : e.text ≠ text) (rest : Search p text e.before out) : Search p text i out

/-- A search ends where chains lead to earlier entries only. -/
theorem search_ends (before : ∀ i e, 0 < i → p.entries[i]? = some e → e.before < i) (text : String)
    (low : first < p.entries.size) : ∃ out, p.Search text first out ∧ ∀ steps, first < steps →
    p.findFrom text steps first = out := by
  induction first using Nat.strong_induction_on with
  | _ first ih =>
    cases first with
    | zero =>
      refine ⟨none, .missed, fun steps enough => ?_⟩
      obtain ⟨k, rfl⟩ : ∃ k, steps = k + 1 := ⟨steps - 1, by omega⟩
      rfl
    | succ i =>
      have entry : p.entries[i + 1]? = some p.entries[i + 1] := Array.getElem?_eq_getElem low
      have earlier := before _ _ (Nat.succ_pos i) entry
      by_cases same : p.entries[i + 1].text = text
      · refine ⟨some (i + 1), .found (Nat.succ_ne_zero i) entry same, fun steps enough => ?_⟩
        obtain ⟨k, rfl⟩ : ∃ k, steps = k + 1 := ⟨steps - 1, by omega⟩
        rw [findFrom.eq_3 _ _ _ _ (Nat.succ_ne_zero i), entry]
        exact if_pos (beq_iff_eq.mpr same)
      · obtain ⟨out, rest, finds⟩ := ih _ earlier (earlier.trans low)
        refine ⟨out, .on (Nat.succ_ne_zero i) entry same rest, fun steps enough => ?_⟩
        obtain ⟨k, rfl⟩ : ∃ k, steps = k + 1 := ⟨steps - 1, by omega⟩
        rw [findFrom.eq_3 _ _ _ _ (Nat.succ_ne_zero i), entry]
        exact (if_neg (by simpa using same)).trans (finds k (by omega))

/-- Storing a text ends, and its number is what the search along its chain finds, or the next free
one. -/
theorem Stored.search (stored : p.Stored hash) (text : String) : ∃ out, p.Search text
    (p.head hash text) out ∧ (p.internWith hash text).2 = out.getD p.entries.size := by
  obtain ⟨out, search, finds⟩ := search_ends stored.before text (stored.head_lt text)
  have found := finds _ (stored.head_lt text)
  refine ⟨out, search, ?_⟩
  rcases internWith_cases hash p text with ⟨i, hit, made⟩ | ⟨miss, made⟩
  · rw [made, ← found, hit]
    rfl
  · rw [made, ← found, miss]
    rfl

/-! ## Texts in order -/

/-- The stored texts by number, from one on. -/
def texts (p : Spellings) : List String := (p.entries.toList.drop 1).map (·.text)

theorem getElem?_texts (p : Spellings) (k : Nat) :
    p.texts[k]? = p.entries[k + 1]?.map (·.text) := by
  rw [texts, List.getElem?_map, List.getElem?_drop, Array.getElem?_toList, Nat.add_comm]

theorem text_of_texts {k : Nat} (there : p.texts[k]? = some text) :
    p.text (k + 1 : Nat) = text := by
  rw [getElem?_texts] at there
  obtain ⟨e, entry, rfl⟩ := Option.map_eq_some_iff.mp there
  have high := (Array.getElem?_eq_some_iff.mp entry).1
  have known : p.has (k + 1 : Nat) = true := has_iff.mpr ⟨by omega, by omega⟩
  rw [Spellings.text, if_pos known, Int.toNat_natCast, Array.getD_eq_getD_getElem?, entry]
  rfl

/-- No text is stored twice. -/
theorem Stored.nodup_texts (stored : p.Stored hash) : p.texts.Nodup := by
  refine List.nodup_iff_injective_get.mpr fun i j same => Fin.ext ?_
  have entry (k : Fin p.texts.length) : ∃ e, p.entries[k.1 + 1]? = some e ∧
    e.text = p.texts.get k := by
    have there : p.texts[k.1]? = some (p.texts.get k) := List.getElem?_eq_getElem k.2
    rw [getElem?_texts] at there
    exact Option.map_eq_some_iff.mp there
  obtain ⟨e, entryI, textI⟩ := entry i
  obtain ⟨f, entryJ, textJ⟩ := entry j
  have := stored.distinct _ _ e f (Nat.succ_pos _) (Nat.succ_pos _) entryI entryJ
    (by rw [textI, textJ, same])
  omega

theorem texts_pushed (hash : String → UInt64) (text : String) (some : 0 < p.entries.size) :
    (p.pushed hash text).texts = p.texts ++ [text] := by
  have long : 1 ≤ p.entries.toList.length := some
  rw [texts, texts, pushed, Array.toList_push, List.drop_append_of_le_length long, List.map_append]
  rfl

/-- The number of a text is its place among the stored texts, counted from one. -/
theorem Stored.number (stored : p.Stored hash) (text : String) :
    (text ∈ p.texts ∧ p.internWith hash text = (p, p.texts.idxOf text + 1)) ∨
      (text ∉ p.texts ∧ p.internWith hash text = (p.pushed hash text, p.texts.length + 1)) := by
  rcases internWith_cases hash p text with ⟨i, found, made⟩ | ⟨miss, made⟩
  · obtain ⟨pos, e, entry, same⟩ := findFrom_sound found
    obtain ⟨k, rfl⟩ : ∃ k, i = k + 1 := ⟨i - 1, by omega⟩
    have there : p.texts[k]? = some text := by rw [getElem?_texts, entry, ← same]; rfl
    obtain ⟨inside, here⟩ := List.getElem?_eq_some_iff.mp there
    refine .inl ⟨List.mem_of_getElem? there, ?_⟩
    rw [made, ← here, stored.nodup_texts.idxOf_getElem]
  · refine .inr ⟨fun mem => ?_, ?_⟩
    · obtain ⟨k, there⟩ := List.mem_iff_getElem?.mp mem
      rw [getElem?_texts] at there
      obtain ⟨e, entry, rfl⟩ := Option.map_eq_some_iff.mp there
      obtain ⟨j, hit⟩ := findFrom_complete stored.before (Nat.succ_pos k) entry
        (stored.chained _ e (Nat.succ_pos k) entry) (stored.head_lt e.text)
      rw [hit] at miss
      cases miss
    · have some := stored.nonempty
      rw [made, texts, List.length_map, List.length_drop, Array.length_toList]
      congr 1
      omega

/-! ## What keeps the texts -/

/-- Spellings that differ in the declarations that they stand for only. -/
structure SameTexts (p q : Spellings) : Prop where
  chains : q.chains = p.chains
  size : q.entries.size = p.entries.size
  entries : ∀ (i : Nat) (e : Spelling), q.entries[i]? = some e → ∃ d, p.entries[i]? = some d ∧
    d.text = e.text ∧ d.before = e.before

theorem SameTexts.refl (p : Spellings) : p.SameTexts p :=
  ⟨rfl, rfl, fun _ e entry => ⟨e, entry, rfl, rfl⟩⟩

theorem SameTexts.trans (first : p.SameTexts q) (second : q.SameTexts r) : p.SameTexts r := by
  refine ⟨second.chains.trans first.chains, second.size.trans first.size, fun i e entry => ?_⟩
  obtain ⟨d, middle, text, before⟩ := second.entries i e entry
  obtain ⟨c, old, text', before'⟩ := first.entries i d middle
  exact ⟨c, old, text'.trans text, before'.trans before⟩

theorem SameTexts.texts (same : p.SameTexts q) : q.texts = p.texts := by
  refine List.ext_getElem? fun k => ?_
  rw [getElem?_texts, getElem?_texts]
  cases entry : q.entries[k + 1]? with
  | none =>
    have out := Array.getElem?_eq_none_iff.mp entry
    rw [same.size, ← Array.getElem?_eq_none_iff] at out
    rw [out]
  | some e =>
    obtain ⟨d, old, text, -⟩ := same.entries _ e entry
    rw [old, Option.map_some, Option.map_some, text]

theorem sameTexts_setDeclaration {id d : Int} (done : p.setDeclaration id d = .ok q) :
    p.SameTexts q := by
  obtain ⟨entry, read, done⟩ := Guarded.bind_eq_ok.mp done
  obtain ⟨entries, written, same⟩ := Guarded.bind_eq_ok.mp done
  cases same
  rw [setCellAt] at written
  split at written
  next inside =>
    cases written
    refine ⟨rfl, Array.size_setIfInBounds, fun i e found => ?_⟩
    rw [Array.getElem?_setIfInBounds] at found
    by_cases here : id.toNat = i
    · rw [if_pos here, if_pos (here ▸ inside.2)] at found
      cases found
      refine ⟨entry, ?_, rfl, rfl⟩
      rw [cellAt, if_neg (by omega)] at read
      subst here
      cases old : p.entries[id.toNat]? with
      | none =>
        rw [old] at read
        cases read
      | some d =>
        rw [old] at read
        cases read
        rfl
    · rw [if_neg here] at found
      exact ⟨e, found, rfl, rfl⟩
  next => cases written

end Spellings

/-! ## Sessions -/

namespace Session

variable {s t : Session}

/-- The number of a spelling, for a given hash. -/
def internWith (hash : String → UInt64) (s : Session) (text : String) : Session × Int :=
  ({ s with spellings := (s.spellings.internWith hash text).1 },
    (s.spellings.internWith hash text).2)

theorem intern_eq_internWith (s : Session) (text : String) :
    s.intern text = s.internWith Checksum.ofText text :=
  rfl

theorem sameTexts_setDeclaration {id d : Int} (done : s.setDeclaration id d = .ok t) :
    s.spellings.SameTexts t.spellings := by
  obtain ⟨p, shown, same⟩ := Guarded.bind_eq_ok.mp done
  cases same
  exact Spellings.sameTexts_setDeclaration shown

theorem sameTexts_hideAll {entries : List Identifier} (done : s.hideAll entries = .ok t) :
    s.spellings.SameTexts t.spellings := by
  induction entries generalizing s with
  | nil =>
    cases done
    exact .refl _
  | cons e rest ih =>
    unfold hideAll at done
    dsimp only at done
    split at done
    · exact ih done
    · obtain ⟨u, hidden, later⟩ := Guarded.bind_eq_ok.mp done
      exact (sameTexts_setDeclaration hidden).trans (ih later)

theorem sameTexts_exitBlock {scope : Scope} (done : s.exitBlock scope = .ok t) :
    s.spellings.SameTexts t.spellings := by
  obtain ⟨u, hidden, same⟩ := Guarded.bind_eq_ok.mp done
  have same : t.spellings = u.spellings := by
    cases same
    rfl
  exact same ▸ sameTexts_hideAll hidden

theorem sameTexts_exitFunction {scope : Scope} {size : Int}
    (done : s.exitFunction scope = .ok (t, size)) : s.spellings.SameTexts t.spellings := by
  obtain ⟨u, left, done⟩ := Guarded.bind_eq_ok.mp done
  have same : t.spellings = u.spellings := by
    cases done
    rfl
  exact same ▸ sameTexts_exitBlock left

theorem allocate_spellings (n : Int) : (s.allocate n).1.spellings = s.spellings := by
  unfold allocate
  split <;> rfl

theorem place_spellings {e e' : Identifier} {id : Int} (placed : s.place e id = .ok (t, e')) :
    t.spellings = s.spellings := by
  unfold place at placed
  split at placed
  · obtain ⟨n, -, done⟩ := Guarded.bind_eq_ok.mp placed
    have same : (s.allocate n).1 = t := congrArg Prod.fst (Except.ok.inj done)
    exact same ▸ allocate_spellings n
  · cases placed
    rfl
  · cases placed
    rfl

theorem sameTexts_declare {spelling id : Int} {kind : IdentKind} {type : TypeId}
    (done : s.declare spelling kind type = .ok (.ok (t, id))) :
    s.spellings.SameTexts t.spellings := by
  by_cases label : kind = .label
  · subst label
    rw [declare_label] at done
    cases done
    exact .refl _
  · have visible : (kind == IdentKind.label) = false := by simpa using label
    unfold declare at done
    simp only [visible, Bool.false_eq_true, if_false] at done
    obtain ⟨cell, -, done⟩ := Guarded.bind_eq_ok.mp done
    split at done
    · cases done
    split at done
    · cases done
    obtain ⟨⟨u, e⟩, placed, done⟩ := Guarded.bind_eq_ok.mp done
    obtain ⟨v, shown, done⟩ := Guarded.bind_eq_ok.mp done
    cases done
    have kept := place_spellings placed
    have same := sameTexts_setDeclaration shown
    rwa [kept] at same

end Session

/-! ## Runs -/

/-- A session, and the texts that were stored in it with the numbers that they got, the last one
first. -/
structure SpellingState where
  session : Session
  answers : List (String × Int)

namespace SpellingState

variable {hash : String → UInt64} {start x y : SpellingState}

/-- One thing that happens in a session. Besides storing a text, only declarations and the ends of
scopes change the spellings. -/
inductive Step (hash : String → UInt64) : SpellingState → SpellingState → Prop
  | intern {s : Session} {answers : List (String × Int)} (text : String) : Step hash ⟨s,
        answers⟩ ⟨(s.internWith hash text).1, (text, (s.internWith hash text).2) :: answers⟩
  | setDeclaration {s t : Session} {answers : List (String × Int)} {id d : Int}
      (done : s.setDeclaration id d = .ok t) : Step hash ⟨s, answers⟩ ⟨t, answers⟩
  | declare {s t : Session} {answers : List (String × Int)} {spelling id : Int} {kind : IdentKind}
      {type : TypeId} (done : s.declare spelling kind type = .ok (.ok (t, id))) :
      Step hash ⟨s, answers⟩ ⟨t, answers⟩
  | exitBlock {s t : Session} {answers : List (String × Int)} {scope : Scope}
      (done : s.exitBlock scope = .ok t) : Step hash ⟨s, answers⟩ ⟨t, answers⟩
  | exitFunction {s t : Session} {answers : List (String × Int)} {scope : Scope} {size : Int}
      (done : s.exitFunction scope = .ok (t, size)) : Step hash ⟨s, answers⟩ ⟨t, answers⟩
  | other {s t : Session} {answers : List (String × Int)} (spellings : t.spellings = s.spellings) :
      Step hash ⟨s, answers⟩ ⟨t, answers⟩

/-- Runs of a session. -/
def Reaches (hash : String → UInt64) : SpellingState → SpellingState → Prop :=
  Relation.ReflTransGen (Step hash)

/-- The texts in the order in which they were used first. -/
def firstUses (x : SpellingState) : List String := (x.answers.map Prod.fst).dedup.reverse

/-- The texts are stored in the order of their first use, and the answers are their numbers. -/
structure Numbered (hash : String → UInt64) (x : SpellingState) : Prop where
  stored : x.session.spellings.Stored hash
  texts : x.session.spellings.texts = x.firstUses
  answers : ∀ text id, (text, id) ∈ x.answers → id = x.firstUses.idxOf text + 1

theorem numbered_empty (empty : x.session.spellings = .empty) (none : x.answers = []) :
    x.Numbered hash := by
  refine ⟨empty ▸ Spellings.stored_empty hash, ?_, fun text id mem => ?_⟩
  · rw [empty, firstUses, none]
    rfl
  · rw [none] at mem
    cases mem

theorem mem_firstUses {text : String} : text ∈ x.firstUses ↔ ∃ id, (text, id) ∈ x.answers := by
  rw [firstUses, List.mem_reverse, List.mem_dedup, List.mem_map]
  exact ⟨fun ⟨⟨_, id⟩, mem, same⟩ => ⟨id, same ▸ mem⟩, fun ⟨id, mem⟩ => ⟨_, mem, rfl⟩⟩

/-- Another use of a text changes nothing. -/
theorem firstUses_again {s t : Session} {answers : List (String × Int)} {text : String} (id : Int)
    (used : text ∈ firstUses ⟨s, answers⟩) :
    firstUses ⟨t, (text, id) :: answers⟩ = firstUses ⟨s, answers⟩ := by
  rw [firstUses, List.mem_reverse, List.mem_dedup] at used
  rw [firstUses, List.map_cons, List.dedup_cons_of_mem used]
  rfl

/-- A text that was not used before is the last one. -/
theorem firstUses_new {s t : Session} {answers : List (String × Int)} {text : String} (id : Int)
    (unused : text ∉ firstUses ⟨s, answers⟩) :
    firstUses ⟨t, (text, id) :: answers⟩ = firstUses ⟨s, answers⟩ ++ [text] := by
  rw [firstUses, List.mem_reverse, List.mem_dedup] at unused
  rw [firstUses, List.map_cons, List.dedup_cons_of_notMem unused, List.reverse_cons]
  rfl

theorem Numbered.congr {t : Session} (numbered : x.Numbered hash)
    (same : x.session.spellings.SameTexts t.spellings) : Numbered hash ⟨t, x.answers⟩ :=
  ⟨numbered.stored.of_same same.chains same.size same.entries, same.texts.trans numbered.texts,
    numbered.answers⟩

theorem Numbered.intern {s : Session} {answers : List (String × Int)}
    (numbered : Numbered hash ⟨s, answers⟩) (text : String) :
    Numbered hash ⟨(s.internWith hash text).1, (text, (s.internWith hash text).2) :: answers⟩ := by
  have texts : s.spellings.texts = firstUses ⟨s, answers⟩ := numbered.texts
  have stored := (numbered.stored.interned text).stored
  rcases numbered.stored.number text with ⟨mem, made⟩ | ⟨new, made⟩
  · rw [texts] at mem made
    rw [made] at stored
    rw [Session.internWith, made]
    refine ⟨stored, ?_, ?_⟩
    · rw [firstUses_again _ mem]
      exact texts
    · rw [firstUses_again _ mem]
      intro other id inside
      rcases List.mem_cons.mp inside with same | inside
      · cases same
        push_cast
        rfl
      · exact numbered.answers other id inside
  · have pushed := Spellings.texts_pushed hash text numbered.stored.nonempty
    change (s.spellings.pushed hash text).texts = s.spellings.texts ++ [text] at pushed
    rw [texts] at new made pushed
    rw [made] at stored
    rw [Session.internWith, made]
    refine ⟨stored, ?_, ?_⟩
    · rw [firstUses_new _ new]
      exact pushed
    · rw [firstUses_new _ new]
      intro other id inside
      rcases List.mem_cons.mp inside with same | inside
      · cases same
        rw [List.idxOf_append_of_notMem new, List.idxOf_cons_self]
        push_cast
        rfl
      · rw [List.idxOf_append_of_mem (mem_firstUses.2 ⟨id, inside⟩)]
        exact numbered.answers other id inside

theorem Step.numbered (step : Step hash x y) (numbered : x.Numbered hash) : y.Numbered hash := by
  cases step with
  | intern text => exact numbered.intern text
  | setDeclaration done => exact numbered.congr (Session.sameTexts_setDeclaration done)
  | declare done => exact numbered.congr (Session.sameTexts_declare done)
  | exitBlock done => exact numbered.congr (Session.sameTexts_exitBlock done)
  | exitFunction done => exact numbered.congr (Session.sameTexts_exitFunction done)
  | other spellings => exact numbered.congr (spellings ▸ .refl _)

theorem Step.answers (step : Step hash x y) : x.answers <:+ y.answers := by
  cases step with
  | intern text => exact List.suffix_cons _ _
  | _ => exact List.suffix_refl _

theorem Reaches.numbered (run : Reaches hash x y) (numbered : x.Numbered hash) : y.Numbered hash ∧
    x.answers <:+ y.answers := by
  induction run with
  | refl => exact ⟨numbered, List.suffix_refl _⟩
  | tail _ step ih => exact ⟨step.numbered ih.1, ih.2.trans step.answers⟩

/-- **Texts are numbered once.** Whatever the hash of a text is and whatever else happens in a
session, storing a text comes to an end; two texts get the same number exactly if they are equal;
the text of a number that was given out is the same in every later state; and the numbers are given
out one after the other, from one on, in the order in which the texts are used first. -/
theorem texts_numbered (empty : start.session.spellings = .empty)
    (none : start.answers = []) (before : Reaches hash start x) (after : Reaches hash x y) :
    (∀ text, ∃ out, y.session.spellings.Search text (y.session.spellings.head hash text) out ∧
      (y.session.internWith hash text).2 = (out.getD y.session.spellings.entries.size : Nat)) ∧
    (∀ text other i j, (text, i) ∈ y.answers → (other, j) ∈ y.answers → (i = j ↔ text = other)) ∧
    (∀ text id, (text, id) ∈ x.answers → (text, id) ∈ y.answers ∧ y.session.spellingText id = text)
    ∧ ∀ text id, (text, id) ∈ y.answers → id = y.firstUses.idxOf text + 1 := by
  obtain ⟨early, -⟩ := before.numbered (numbered_empty empty none)
  obtain ⟨late, grown⟩ := after.numbered early
  refine ⟨?_, ?_, ?_, late.answers⟩
  · intro text
    obtain ⟨out, search, number⟩ := late.stored.search text
    exact ⟨out, search, congrArg Nat.cast number⟩
  · intro text other i j first second
    rw [late.answers text i first, late.answers other j second]
    have used := mem_firstUses.2 ⟨i, first⟩
    constructor
    · intro same
      exact (List.idxOf_inj used).mp (by omega)
    · rintro rfl
      rfl
  · intro text id mem
    have later := grown.subset mem
    have used := mem_firstUses.2 ⟨id, later⟩
    refine ⟨later, ?_⟩
    rw [late.answers text id later]
    have there : y.session.spellings.texts[y.firstUses.idxOf text]? = some text := by
      rw [late.texts]
      exact List.getElem?_idxOf used
    exact Spellings.text_of_texts there

/-- Two texts on one chain, the first of them stored again after a declaration. -/
theorem texts_numbered_chained :
    ∃ x y : SpellingState, Reaches (fun _ => 7) ⟨Session.new 0 (.new none true), []⟩ x ∧
    Reaches (fun _ => 7) x y ∧ x.answers = [("y", 2), ("x", 1)] ∧
    y.answers = [("x", 1), ("y", 2), ("x", 1)] ∧ y.session.lookup 1 = 4 ∧
    y.session.spellingText 1 = "x" ∧ y.session.spellingText 2 = "y" := by
  obtain ⟨s, stored⟩ : ∃ s, s = ((Session.new 0 (.new none true)).internWith (fun _ => 7) "x").1 :=
    ⟨_, rfl⟩
  obtain ⟨t, more⟩ : ∃ t, t = (s.internWith (fun _ => 7) "y").1 := ⟨_, rfl⟩
  obtain ⟨u, shown⟩ : ∃ u, u = { t with spellings := t.spellings.shown 1 4 } := ⟨_, rfl⟩
  have first : Step (fun _ => 7) ⟨Session.new 0 (.new none true), []⟩ ⟨s, [("x", 1)]⟩ := by
    have number : ((Session.new 0 (.new none true)).internWith (fun _ => 7) "x").2 = 1 := by
      decide +kernel
    rw [stored, ← number]
    exact .intern "x"
  have second : Step (fun _ => 7) ⟨s, [("x", 1)]⟩ ⟨t, [("y", 2), ("x", 1)]⟩ := by
    have number : (s.internWith (fun _ => 7) "y").2 = 2 := by
      rw [stored]
      decide +kernel
    rw [more, ← number]
    exact .intern "y"
  have known : t.spellings.has 1 = true := by
    rw [more, stored]
    decide +kernel
  have third : Step (fun _ => 7) ⟨t, [("y", 2), ("x", 1)]⟩ ⟨u, [("y", 2), ("x", 1)]⟩ := by
    have done : t.setDeclaration 1 4 = .ok u := by
      rw [Session.setDeclaration, Spellings.setDeclaration_of_has known, shown]
      rfl
    exact .setDeclaration done
  have fourth : Step (fun _ => 7) ⟨u, [("y", 2), ("x", 1)]⟩ ⟨(u.internWith (fun _ => 7) "x").1,
    [("x", 1), ("y", 2), ("x", 1)]⟩ := by
    have number : (u.internWith (fun _ => 7) "x").2 = 1 := by
      rw [shown, more, stored]
      decide +kernel
    rw [← number]
    exact .intern "x"
  have before := Relation.ReflTransGen.tail (.single first) second
  have after := Relation.ReflTransGen.tail (.single third) fourth
  obtain ⟨-, -, texts, -⟩ := texts_numbered rfl rfl before after
  refine ⟨_, _, before, after, rfl, rfl, ?_, (texts "x" 1 (by simp)).2, (texts "y" 2 (by simp)).2⟩
  rw [shown, more, stored]
  decide +kernel

end SpellingState

end BilingualC
