import Mathlib
import BilingualC.Proofs.Session.Tables
import BilingualC.Proofs.Spelling
import BilingualC.Proofs.TypeTable.Queries

/-!
# Regular sessions

What is true of the tables of a session at any time, also after errors. `Session.Regular` is enough
for every operation on them to come to an end; `Session.Linked` says in addition that nothing can be
asked for that is not there: all numbers that the tables store about each other are numbers of
entries, a declaration hides an earlier one of the same spelling, and a spelling stands for a
declaration that has this spelling. No record of the table of types is longer than a block of memory
(`TypeTable.Short`).

Every operation of the checker on the tables advances a session (`Session.Advances`): all that stays
true, no earlier entry changes, and the tree and the journal are left alone.
-/

namespace BilingualC

open Guarded

namespace Spellings

variable {p : Spellings} {k d : Int}

theorem setDeclaration_of_lt (low : 0 ≤ k) (high : k < p.entries.size) (d : Int) :
    p.setDeclaration k d = .ok (p.shown k d) := by
  have inside : k.toNat < p.entries.size := by omega
  have found : cellAt p.entries k = .ok p.entries[k.toNat] :=
    cellAt_of_lt (by omega) (Array.getElem?_eq_getElem inside)
  have entry : p.entries.getD k.toNat default = p.entries[k.toNat] := by simp [Array.getD, inside]
  rw [setDeclaration, found]
  simp only [bind, Except.bind, setCellAt_of_lt _ low inside, shown, entry]
  rfl

theorem cellAt_of_out (out : ¬ (0 ≤ k ∧ k < p.entries.size)) :
    cellAt p.entries k = .error .badIndex := by
  unfold cellAt
  split
  · rfl
  · rw [Array.getElem?_eq_none (by omega)]
    rfl

theorem setDeclaration_of_out (out : ¬ (0 ≤ k ∧ k < p.entries.size)) (d : Int) :
    p.setDeclaration k d = .error .badIndex := by
  rw [setDeclaration, cellAt_of_out out]
  rfl

/-- The entry with the number zero stands for nothing. -/
theorem declaration_shown_zero (p : Spellings) (d : Int) :
    (p.shown 0 d).declaration = p.declaration := by
  funext j
  rw [declaration, declaration, has_shown]
  by_cases there : p.has j = true
  · have other : 0 ≠ j.toNat := by
      obtain ⟨pos, _⟩ := has_iff.mp there
      omega
    simp [there, shown, Array.getElem?_setIfInBounds_ne other]
  · simp [there]

theorem mem_shown {e : Spelling} (low : 0 ≤ k) (high : k < p.entries.size)
    (mem : e ∈ (p.shown k d).entries) : e ∈ p.entries ∨ e.declaration = d :=
  mem_setDeclaration (setDeclaration_of_lt low high d) mem

theorem Stored.shown {hash : String → UInt64} (stored : p.Stored hash) (k d : Int) :
    (p.shown k d).Stored hash := by
  refine stored.of_same rfl size_shown fun i e entry => ?_
  simp only [Spellings.shown, Array.getElem?_setIfInBounds] at entry
  split at entry
  next here =>
    split at entry
    next inside =>
      cases entry
      exact ⟨_, Array.getElem?_eq_getElem (here ▸ inside), by simp [here]⟩
    next => cases entry
  next => exact ⟨e, entry, rfl, rfl⟩

end Spellings

namespace Session

variable {s t u : Session} {id : Int} {ok : Fault → Prop}

/-- A number that a spelling can stand for. -/
def Shows (s : Session) (id : Int) : Prop := 0 ≤ id ∧ s.Visible id

/-- What is true of the tables at any time. -/
structure Regular (s : Session) : Prop where
  types : s.types.Tiled
  some : 0 < s.identifiers.size
  named : ∀ id, s.types.Named (s.identifier id).type
  listed : ∀ id n, (s.identifier id).kind ≠ .unlisted n
  shown : ∀ e ∈ s.spellings.entries, s.Shows e.declaration
  hidden : ∀ e ∈ s.identifiers, s.Shows e.previous

/-- The numbers that the tables store about each other are numbers of entries. -/
structure Linked (s : Session) : Prop where
  zero : s.identifiers[0]? = some .none
  stored : s.spellings.Stored Checksum.ofText
  spelled : ∀ id : Int, 0 < id → id < s.identifiers.size →
    s.spellings.has (s.identifier id).spelling = true
  previous : ∀ id : Int, (s.identifier id).previous = 0 ∨
    0 < (s.identifier id).previous ∧ (s.identifier id).previous < id ∧
    (s.identifier (s.identifier id).previous).spelling = (s.identifier id).spelling
  refers : ∀ k, s.lookup k = 0 ∨ (s.identifier (s.lookup k)).spelling = k

/-- The later session has all entries of the earlier one. -/
structure Later (s t : Session) : Prop where
  grows : s.Grows t
  strings : t.strings = s.strings
  spellings : s.spellings.entries.size ≤ t.spellings.entries.size

theorem Later.refl (s : Session) : s.Later s := ⟨.refl s, rfl, le_refl _⟩

theorem Later.trans (first : s.Later t) (second : t.Later u) : s.Later u :=
  ⟨first.grows.trans second.grows, second.strings.trans first.strings,
    first.spellings.trans second.spellings⟩

theorem Later.has (later : s.Later t) {k : Int} (known : s.spellings.has k = true) :
    t.spellings.has k = true := by
  obtain ⟨low, high⟩ := Spellings.has_iff.mp known
  have more := later.spellings
  exact Spellings.has_iff.mpr ⟨low, by omega⟩

/-- What an operation on the tables does to a session. -/
structure Advances (ok : Fault → Prop) (s t : Session) : Prop where
  tree : t.tree = s.tree
  journal : t.journal = s.journal
  regular : t.Regular
  later : s.Later t
  linked : ok .badIndex ∨ (s.Linked → t.Linked)
  short : Loose ok ∨ (s.types.Short → t.types.Short)

theorem Advances.trans (first : s.Advances ok t) (second : t.Advances ok u) : s.Advances ok u where
  tree := second.tree.trans first.tree
  journal := second.journal.trans first.journal
  regular := second.regular
  later := first.later.trans second.later
  linked := (or_and first.linked second.linked).imp_right fun steps linked =>
    steps.2 (steps.1 linked)
  short := (or_and first.short second.short).imp_right fun steps short => steps.2 (steps.1 short)

theorem Shows.grow (shows : s.Shows id) (grows : s.Grows t) : t.Shows id :=
  ⟨shows.1, shows.2.grow grows⟩

namespace Regular

theorem shows_zero (regular : s.Regular) : s.Shows 0 := by
  have some := regular.some
  refine ⟨le_refl 0, by omega, ?_⟩
  rw [identifier_of_out (by omega)]
  nofun

/-- What a spelling stands for was declared. -/
theorem lookup (regular : s.Regular) (spelling : Int) : s.Shows (s.lookup spelling) := by
  unfold Session.lookup Spellings.declaration
  split
  next known =>
    obtain ⟨low, high⟩ := Spellings.has_iff.mp known
    have inside : spelling.toNat < s.spellings.entries.size := by omega
    rw [Array.getD_eq_getD_getElem?, Array.getElem?_eq_getElem inside]
    exact regular.shown _ (Array.getElem_mem inside)
  next => exact regular.shows_zero

/-- A number that something stands for names a variable, a function, a library function or a
type. -/
theorem kind_of_shows (regular : s.Regular) (shows : s.Shows id)
    (notBuiltin : (s.identifier id).kind ≠ .builtin) (notType : (s.identifier id).kind ≠ .typeName)
    (notFunction : (s.identifier id).kind ≠ .function) : (s.identifier id).kind = .variable := by
  have notLabel := shows.2.2
  have listed := regular.listed id
  generalize (s.identifier id).kind = kind at *
  cases kind <;> first | rfl | contradiction | exact absurd rfl (listed _)

/-- The declarations and the types may be those of another session. -/
theorem of_same (regular : s.Regular) (types : t.types = s.types)
    (identifiers : t.identifiers = s.identifiers)
    (shown : ∀ e ∈ t.spellings.entries, s.Shows e.declaration) : t.Regular := by
  have same (id : Int) : t.identifier id = s.identifier id := by
    rw [identifier, identifier, identifiers]
  have shows {id : Int} (shows : s.Shows id) : t.Shows id :=
    ⟨shows.1, by rw [identifiers]; exact shows.2.1, by rw [same]; exact shows.2.2⟩
  exact ⟨types ▸ regular.types, identifiers ▸ regular.some, fun id =>
    by rw [same, types]; exact regular.named id, fun id => by rw [same]; exact regular.listed id,
    fun e mem => shows (shown e mem), fun e mem => shows (regular.hidden e (identifiers ▸ mem))⟩

end Regular

theorem identifier_congr (identifiers : t.identifiers = s.identifiers) (id : Int) :
    t.identifier id = s.identifier id := by
  rw [identifier, identifier, identifiers]

theorem grows_of_same (types : t.types = s.types) (identifiers : t.identifiers = s.identifiers)
    (functions : t.functions = s.functions) : s.Grows t :=
  ⟨types ▸ .refl _, identifiers ▸ le_refl _, fun id _ => by rw [identifier_congr identifiers],
    functions ▸ le_refl _⟩

/-- The links may be those of another session. -/
theorem Linked.of_same (linked : s.Linked) (identifiers : t.identifiers = s.identifiers)
    (stored : t.spellings.Stored Checksum.ofText)
    (size : s.spellings.entries.size ≤ t.spellings.entries.size)
    (lookup : ∀ k, t.lookup k = 0 ∨ (s.identifier (t.lookup k)).spelling = k) : t.Linked := by
  have same := identifier_congr identifiers
  refine ⟨identifiers ▸ linked.zero, stored, ?_, ?_, ?_⟩
  · intro id low high
    rw [same]
    obtain ⟨low, high⟩ := Spellings.has_iff.mp (linked.spelled id low (identifiers ▸ high))
    exact Spellings.has_iff.mpr ⟨low, by omega⟩
  · intro id
    rw [same, same]
    exact linked.previous id
  · intro k
    rw [same]
    exact lookup k

section Same

variable (types : t.types = s.types) (identifiers : t.identifiers = s.identifiers)
    (spellings : t.spellings = s.spellings)

include types identifiers spellings

theorem Regular.congr (regular : s.Regular) : t.Regular :=
  regular.of_same types identifiers (spellings ▸ regular.shown)

omit types in
theorem Linked.congr (linked : s.Linked) : t.Linked := by
  refine linked.of_same identifiers (spellings ▸ linked.stored) (spellings ▸ le_refl _) ?_
  rw [show t.lookup = s.lookup by unfold Session.lookup; rw [spellings]]
  exact linked.refers

theorem later_of_same (functions : t.functions = s.functions) (strings : t.strings = s.strings) :
    s.Later t :=
  ⟨grows_of_same types identifiers functions, strings, spellings ▸ le_refl _⟩

end Same

/-- A step that leaves all tables alone. -/
theorem Regular.advances (regular : s.Regular) (tree : t.tree = s.tree)
    (journal : t.journal = s.journal) (types : t.types = s.types)
    (identifiers : t.identifiers = s.identifiers) (spellings : t.spellings = s.spellings)
    (functions : t.functions = s.functions) (strings : t.strings = s.strings) :
    s.Advances ok t where
  tree := tree
  journal := journal
  regular := regular.congr types identifiers spellings
  later := later_of_same types identifiers spellings functions strings
  linked := .inr (.congr identifiers spellings)
  short := .inr fun short => types ▸ short

/-! ## Types -/

/-- A table of types that has gained a record. -/
theorem Regular.advances_types (regular : s.Regular) {r : TypeRecord} {new : TypeTable × TypeId}
    (gains : s.types.Gains r new) (fits : Loose ok ∨ (r.count : Int) ≤ largestBlock) :
    s.Advances ok { s with types := new.1 } := by
  have grows : s.Grows { s with types := new.1 } :=
    ⟨gains.continues, le_refl _, fun _ _ => rfl, le_refl _⟩
  have regular' : Regular { s with types := new.1 } := {
    types := gains.holds.tiled
    some := regular.some
    named := fun id => (regular.named id).continue gains.continues gains.holds.tiled
    listed := regular.listed
    shown := regular.shown
    hidden := regular.hidden }
  exact ⟨rfl, rfl, regular', ⟨grows, rfl, le_refl _⟩, .inr (.congr rfl rfl),
    fits.imp_right fun fits short => gains.short short fits⟩

/-! ## Spellings -/

theorem Regular.advances_intern (regular : s.Regular) (text : String) :
    s.Advances ok (s.intern text).1 := by
  have spellings : (s.intern text).1.spellings = (s.spellings.intern text).1 := rfl
  have lookup : (s.intern text).1.lookup = s.lookup := Spellings.declaration_intern s.spellings text
  have shown (e : Spelling) (mem : e ∈ (s.intern text).1.spellings.entries) :
      s.Shows e.declaration := by
    rw [spellings] at mem
    obtain same | ⟨chains, before, grown⟩ := s.spellings.intern_cases text
    · exact regular.shown e (same ▸ mem)
    · rw [grown] at mem
      rcases Array.mem_push.mp mem with old | rfl
      · exact regular.shown e old
      · exact regular.shows_zero
  have more : s.spellings.entries.size ≤ (s.intern text).1.spellings.entries.size := by
    rw [spellings]
    obtain same | ⟨chains, before, grown⟩ := s.spellings.intern_cases text
    · rw [same]
    · rw [grown]
      simp
  refine ⟨rfl, rfl, regular.of_same rfl rfl shown, ⟨grows_of_same rfl rfl rfl, rfl, more⟩,
    .inr fun linked => ?_, .inr id⟩
  have interned := linked.stored.interned text
  refine linked.of_same rfl interned.stored interned.more fun k => ?_
  rw [lookup]
  exact linked.refers k

/-- The number of a text is that of a stored spelling. -/
theorem Linked.has_intern (linked : s.Linked) (text : String) :
    (s.intern text).1.spellings.has (s.intern text).2 = true := by
  have interned := linked.stored.interned text
  obtain ⟨e, entry, _⟩ := interned.entry
  have inside := (Array.getElem?_eq_some_iff.mp entry).1
  have pos := interned.pos
  refine Spellings.has_iff.mpr ?_
  change 0 < ((s.spellings.intern text).2 : Int) ∧
    ((s.spellings.intern text).2 : Int) < (s.spellings.intern text).1.entries.size
  exact ⟨Int.natCast_pos.mpr pos, Int.ofNat_lt.mpr inside⟩

/-- A spelling is set to stand for something that can be shown. -/
theorem Regular.setDeclaration_ends (regular : s.Regular) {spelling : Int} (shows : s.Shows id)
    (known : ok .badIndex ∨ (0 ≤ spelling ∧ spelling < s.spellings.entries.size)) (fits :
      ok .badIndex ∨ (s.Linked → spelling = 0 ∨ id = 0 ∨ (s.identifier id).spelling = spelling)) :
    (s.setDeclaration spelling id).Ends ok fun t => s.Advances ok t ∧
    t = { s with spellings := t.spellings } := by
  by_cases inside : 0 ≤ spelling ∧ spelling < s.spellings.entries.size
  · rw [setDeclaration, Spellings.setDeclaration_of_lt inside.1 inside.2]
    refine ends_pure ⟨⟨rfl, rfl, regular.of_same rfl rfl fun e mem => ?_,
      ⟨grows_of_same rfl rfl rfl, rfl, ?_⟩, ?_, .inr fun short => short⟩, rfl⟩
    · exact (Spellings.mem_shown inside.1 inside.2 mem).elim (regular.shown e) fun same =>
        same ▸ shows
    · exact le_of_eq Spellings.size_shown.symm
    · refine fits.imp_right fun fits linked => linked.of_same rfl (linked.stored.shown _ _)
        (le_of_eq Spellings.size_shown.symm) fun k => ?_
      rcases fits linked with rfl | fits
      · rw [Session.lookup, Spellings.declaration_shown_zero]
        exact linked.refers k
      · by_cases pos : 0 < spelling
        · rw [Session.lookup, Spellings.declaration_shown (Spellings.has_iff.mpr ⟨pos, inside.2⟩)]
          by_cases same : k = spelling
          · rw [same, Function.update_self]
            exact fits
          · rw [Function.update_of_ne same]
            exact linked.refers k
        · rw [Session.lookup, show spelling = 0 by omega, Spellings.declaration_shown_zero]
          exact linked.refers k
  · rw [setDeclaration, Spellings.setDeclaration_of_out inside]
    exact known.resolve_right inside

/-! ## Declarations -/

/-- What the links need of a declaration. -/
structure EntryLinked (s : Session) (e : Identifier) : Prop where
  spelling : 0 ≤ e.spelling ∧ e.spelling < s.spellings.entries.size
  previous : e.spelling = 0 ∨ e.previous = 0 ∨ (s.identifier e.previous).spelling = e.spelling

theorem Linked.entry (linked : s.Linked) {e : Identifier} (mem : e ∈ s.identifiers) :
    s.EntryLinked e := by
  obtain ⟨k, inside, rfl⟩ := Array.mem_iff_getElem.mp mem
  rcases Nat.eq_zero_or_pos k with rfl | pos
  · have zero := linked.zero
    rw [Array.getElem?_eq_getElem inside, Option.some.injEq] at zero
    rw [zero]
    exact ⟨⟨le_refl 0, Int.natCast_pos.mpr linked.stored.nonempty⟩, .inl rfl⟩
  · have same : s.identifier k = s.identifiers[k] := by simp [identifier, pos, inside]
    have spelled := linked.spelled k (by omega) (by omega)
    have previous := linked.previous k
    rw [same] at spelled previous
    obtain ⟨low, high⟩ := Spellings.has_iff.mp spelled
    exact ⟨⟨low.le, high⟩, .inr (previous.imp_right fun facts => facts.2.2)⟩

/-- The tables with one more declaration, which nothing stands for yet. -/
theorem Regular.advances_push (regular : s.Regular) {e : Identifier} (tree : t.tree = s.tree)
    (journal : t.journal = s.journal) (types : t.types = s.types) (strings : t.strings = s.strings)
    (functions : s.functions.size ≤ t.functions.size) (spellings : t.spellings = s.spellings)
    (identifiers : t.identifiers = s.identifiers.push e) (type : s.types.Named e.type)
    (listed : ∀ n, e.kind ≠ .unlisted n) (previous : s.Shows e.previous)
    (linked : ok .badIndex ∨ (s.Linked → s.spellings.has e.spelling = true ∧
      (e.previous = 0 ∨ (s.identifier e.previous).spelling = e.spelling))) : s.Advances ok t := by
  have some := regular.some
  have size : t.identifiers.size = s.identifiers.size + 1 := by rw [identifiers, Array.size_push]
  have old {k : Int} (low : k < s.identifiers.size) : t.identifier k = s.identifier k :=
    identifier_push identifiers low
  have last : t.identifier s.identifiers.size = e := identifier_last identifiers some
  have past {k : Int} (high : (s.identifiers.size : Int) < k) : t.identifier k = .none :=
    identifier_of_out (by omega)
  have grows : s.Grows t := ⟨types ▸ .refl _, by omega, fun k low => by rw [old low], functions⟩
  have lookup : t.lookup = s.lookup := by
    unfold Session.lookup
    rw [spellings]
  -- an index is one of the old tables, that of the new declaration, or of nothing
  have regular' : t.Regular := by
    constructor
    case types => exact types ▸ regular.types
    case some => omega
    case named =>
      intro k
      rw [types]
      rcases lt_trichotomy k s.identifiers.size with low | rfl | high
      · rw [old low]
        exact regular.named k
      · rwa [last]
      · rw [past high]
        exact regular.types.undefined
    case listed =>
      intro k n
      rcases lt_trichotomy k s.identifiers.size with low | rfl | high
      · rw [old low]
        exact regular.listed k n
      · rw [last]
        exact listed n
      · rw [past high]
        nofun
    case shown =>
      intro x mem
      exact (regular.shown x (spellings ▸ mem)).grow grows
    case hidden =>
      intro x mem
      rw [identifiers] at mem
      rcases Array.mem_push.mp mem with earlier | rfl
      · exact (regular.hidden x earlier).grow grows
      · exact previous.grow grows
  refine ⟨tree, journal, regular', ⟨grows, strings, spellings ▸ le_refl _⟩, ?linked,
    .inr fun short => types ▸ short⟩
  -- the links are known only where indices cannot be wrong
  refine linked.imp_right fun known linked => ?_
  constructor
  case zero =>
    rw [identifiers, Array.getElem?_push_lt some]
    exact (Array.getElem?_eq_getElem some).symm.trans linked.zero
  case stored => exact spellings ▸ linked.stored
  case spelled =>
    intro k low high
    rw [spellings]
    by_cases before : k < s.identifiers.size
    · rw [old before]
      exact linked.spelled k low before
    · rw [show k = s.identifiers.size by omega, last]
      exact (known linked).1
  case previous =>
    intro k
    rcases lt_trichotomy k s.identifiers.size with low | rfl | high
    · rw [old low]
      refine (linked.previous k).imp_right fun facts => ?_
      rw [old (by omega)]
      exact facts
    · rw [last]
      obtain ⟨low, high, -⟩ := previous
      by_cases none : e.previous = 0
      · exact .inl none
      · rw [old high]
        exact .inr ⟨by omega, high, (known linked).2.resolve_left none⟩
    · rw [past high]
      exact .inl rfl
  case refers =>
    intro k
    rw [lookup, old (regular.lookup k).2.1]
    exact linked.refers k

/-- A declaration that was taken in: it stands behind the others. -/
structure Enters (s t : Session) (spelling : Int) (kind : IdentKind) (type : TypeId)
    (id : Int) : Prop where
  fresh : id = s.identifiers.size
  entry : ∃ previous displacement, t.identifiers =
    s.identifiers.push ⟨previous, spelling, type, kind, displacement, false⟩
  scopeStart : t.scopeStart = s.scopeStart

/-- Every declaration is taken in or refused. -/
theorem Regular.declare_ends (regular : s.Regular) {spelling : Int} {kind : IdentKind}
    {type : TypeId} (named : s.types.Named type) (listed : ∀ n, kind ≠ .unlisted n)
    (known : ok .badIndex ∨ s.spellings.has spelling = true) :
    (s.declare spelling kind type).Ends ok fun answer => ∀ t id, answer = .ok (t, id) →
    s.Advances ok t ∧ s.Enters t spelling kind type id := by
  -- a label is not shown to anybody, so it takes nothing else out of sight
  by_cases label : kind = .label
  · subst label
    rw [declare_label]
    refine ends_pure fun t id same => ?_
    cases same
    exact ⟨regular.advances_push rfl rfl rfl rfl (le_refl _) rfl rfl named (by simp)
      regular.shows_zero (known.imp_right fun known _ => ⟨known, .inl rfl⟩), rfl, ⟨0, 0, rfl⟩, rfl⟩
  have visible : (kind == IdentKind.label) = false := by simpa using label
  have inside (known : s.spellings.has spelling = true) : 0 ≤ spelling ∧
    spelling < s.spellings.entries.size :=
    ⟨(Spellings.has_iff.mp known).1.le, (Spellings.has_iff.mp known).2⟩
  -- the spelling knows what it stands for, as looking it up gives it
  have found : (cellAt s.spellings.entries spelling).Ends ok fun cell => s.Shows cell.declaration ∧
      (s.spellings.has spelling = true → cell.declaration = s.lookup spelling) := by
    by_cases there : 0 ≤ spelling ∧ spelling < s.spellings.entries.size
    · have low : spelling.toNat < s.spellings.entries.size := by omega
      refine ends_ok ⟨regular.shown _ (Array.getElem_mem low), fun known => ?_⟩
        (cellAt_of_lt (by omega) (Array.getElem?_eq_getElem low))
      simp [Session.lookup, Spellings.declaration, known, low]
    · rw [Spellings.cellAt_of_out there]
      exact known.resolve_right fun known => there (inside known)
  unfold declare
  simp only [visible, Bool.false_eq_true, if_false]
  refine found.bind ?_
  rintro cell ⟨shows, shown⟩
  split
  · exact ends_pure fun t id same => by cases same
  split
  · exact ends_pure fun t id same => by cases same
  -- not declared before in this scope: it gets a place, its entry, and its spelling shows it
  obtain ⟨u, displacement, made, placed⟩ :=
    place_ok (s := s) ⟨cell.declaration, spelling, type, kind, 0, false⟩ s.identifiers.size fun _ =>
      named.sizeOf
  rw [made]
  have more : s.functions.size ≤ u.functions.size := by
    rw [placed.functions]
    split
    · simp
    · exact le_refl _
  set e : Identifier := ⟨cell.declaration, spelling, type, kind, displacement, false⟩
  have identifiers :
    { u with identifiers := u.identifiers.push e }.identifiers = s.identifiers.push e :=
    congrArg (·.push e) placed.identifiers
  have pushed : s.Advances ok { u with identifiers := u.identifiers.push e } := by
    refine regular.advances_push placed.tree placed.journal
      placed.types placed.strings more placed.spellings identifiers
      named listed shows (known.imp_right fun known linked => ⟨known, ?_⟩)
    show cell.declaration = 0 ∨ (s.identifier cell.declaration).spelling = spelling
    rw [shown known]
    exact linked.refers spelling
  have last := identifier_last identifiers regular.some
  have shows : Shows { u with identifiers := u.identifiers.push e } s.identifiers.size :=
    ⟨Int.natCast_nonneg _, by rw [identifiers, Array.size_push]; omega, by rw [last]; exact label⟩
  have known : ok .badIndex ∨ (0 ≤ spelling ∧ spelling < u.spellings.entries.size) := by
    rw [placed.spellings]
    exact known.imp_right inside
  refine (pushed.regular.setDeclaration_ends shows known (.inr fun _ =>
    .inr (.inr (by rw [last])))).bind ?_
  rintro v ⟨advances, same⟩
  refine ends_pure fun t id answer => ?_
  cases answer
  refine ⟨pushed.trans advances, rfl,
    ⟨_, _, (congrArg Session.identifiers same).trans identifiers⟩, ?_⟩
  rw [same]
  exact placed.scopeStart

/-! ## Scopes -/

/-- What the links need of a declaration stays true as long as no declaration changes. -/
theorem EntryLinked.of_same {e : Identifier} (linked : s.EntryLinked e)
    (identifiers : t.identifiers = s.identifiers)
    (more : s.spellings.entries.size ≤ t.spellings.entries.size) : t.EntryLinked e := by
  obtain ⟨⟨low, high⟩, previous⟩ := linked
  exact ⟨⟨low, by omega⟩, by rwa [identifier_congr identifiers]⟩

theorem Regular.hideAll_ends (regular : s.Regular)
    {entries : List Identifier} (shows : ∀ e ∈ entries, s.Shows e.previous)
    (linked : ok .badIndex ∨ (s.Linked ∧ ∀ e ∈ entries, s.EntryLinked e)) :
    (s.hideAll entries).Ends ok fun t => s.Advances ok t ∧
    t = { s with spellings := t.spellings } := by
  induction entries generalizing s with
  | nil => exact ends_pure ⟨regular.advances rfl rfl rfl rfl rfl rfl rfl, rfl⟩
  | cons e rest ih =>
    obtain ⟨first, others⟩ := List.forall_mem_cons.mp shows
    have linked : ok .badIndex ∨ (s.Linked ∧ s.EntryLinked e ∧ ∀ d ∈ rest, s.EntryLinked d) :=
      linked.imp_right fun both => ⟨both.1, List.forall_mem_cons.mp both.2⟩
    rw [hideAll]
    split
    · exact ih regular others (linked.imp_right fun known => ⟨known.1, known.2.2⟩)
    · have known : ok .badIndex ∨ (0 ≤ e.spelling ∧ e.spelling < s.spellings.entries.size) :=
        linked.imp_right fun known => known.2.1.spelling
      refine (regular.setDeclaration_ends first known
        (linked.imp_right fun known _ => known.2.1.previous)).bind ?_
      rintro t ⟨advances, same⟩
      have identifiers : t.identifiers = s.identifiers := by rw [same]
      have later : ok .badIndex ∨ (t.Linked ∧ ∀ d ∈ rest, t.EntryLinked d) := by
        refine (or_and linked advances.linked).imp_right fun both => ?_
        obtain ⟨known, step⟩ := both
        refine ⟨step known.1, fun d mem => ?_⟩
        exact (known.2.2 d mem).of_same identifiers advances.later.spellings
      have shows (d : Identifier) (mem : d ∈ rest) : t.Shows d.previous :=
        (others d mem).grow advances.later.grows
      refine (ih advances.regular shows later).mono ?_
      rintro u ⟨further, rest⟩
      exact ⟨advances.trans further, by rw [rest, same]⟩

/-- A scope can be closed, whatever was remembered when it was opened. -/
theorem Regular.exitBlock_ends (regular : s.Regular) (linked : ok .badIndex ∨ s.Linked)
    (scope : Scope) : (s.exitBlock scope).Ends ok fun t => s.Advances ok t ∧
    t.identifiers = s.identifiers ∧ t.scopeStart = scope.start := by
  have inside {e : Identifier} (mem : e ∈ (s.identifiers.toList.drop s.scopeStart.toNat).reverse) :
    e ∈ s.identifiers := by
    simpa using List.mem_of_mem_drop (List.mem_reverse.mp mem)
  refine (regular.hideAll_ends (fun e mem => regular.hidden e (inside mem))
    (linked.imp_right fun linked => ⟨linked, fun e mem => linked.entry (inside mem)⟩)).bind
    fun t ⟨advances, same⟩ => ?_
  exact ends_pure ⟨advances.trans (advances.regular.advances rfl rfl rfl rfl rfl rfl rfl),
    by rw [same], rfl⟩

theorem Regular.advances_enterBlock (regular : s.Regular) : s.Advances ok s.enterBlock.1 :=
  regular.advances rfl rfl rfl rfl rfl rfl rfl

theorem Regular.advances_enterFunction (regular : s.Regular) : s.Advances ok s.enterFunction.1 :=
  regular.advances rfl rfl rfl rfl rfl rfl rfl

theorem Regular.exitFunction_ends (regular : s.Regular)
    (linked : ok .badIndex ∨ s.Linked) (scope : Scope) :
    (s.exitFunction scope).Ends ok fun r => s.Advances ok r.1 ∧ r.1.identifiers = s.identifiers ∧
    r.1.scopeStart = scope.start := by
  refine (regular.exitBlock_ends linked scope).bind fun t ⟨advances, same, start⟩ => ?_
  exact ends_pure ⟨advances.trans (advances.regular.advances rfl rfl rfl rfl rfl rfl rfl),
    same, start⟩

/-! ## Changed declarations -/

/-- A change of a declaration that keeps what the tables store about each other. -/
structure Mild (change : Identifier → Identifier) : Prop where
  previous : ∀ e, (change e).previous = e.previous
  spelling : ∀ e, (change e).spelling = e.spelling
  type : ∀ e, (change e).type = e.type
  kind : ∀ e, (change e).kind = e.kind

section Changed

variable {change : Identifier → Identifier} (mild : Mild change) (low : 0 < id)
    (high : id < s.identifiers.size)

include mild low high

theorem Mild.identifier (k : Int) :
    ((s.changed id change).identifier k).previous = (s.identifier k).previous ∧
    ((s.changed id change).identifier k).spelling = (s.identifier k).spelling ∧
    ((s.changed id change).identifier k).type = (s.identifier k).type ∧
    ((s.changed id change).identifier k).kind = (s.identifier k).kind := by
  by_cases here : k = id
  · subst here
    rw [identifier_changed_same low high]
    exact ⟨mild.previous _, mild.spelling _, mild.type _, mild.kind _⟩
  · rw [identifier_changed_ne here]
    exact ⟨rfl, rfl, rfl, rfl⟩

theorem Mild.shows {k : Int} (shows : s.Shows k) : (s.changed id change).Shows k :=
  ⟨shows.1, by simpa using shows.2.1, by rw [(mild.identifier low high k).2.2.2]; exact shows.2.2⟩

omit low high in
theorem Mild.mem {e : Identifier} (mem : e ∈ (s.changed id change).identifiers) :
    ∃ d ∈ s.identifiers, e.previous = d.previous := by
  obtain ⟨k, inside, rfl⟩ := Array.mem_iff_getElem.mp mem
  have old : k < s.identifiers.size := by simpa using inside
  refine ⟨s.identifiers[k], Array.getElem_mem old, ?_⟩
  simp only [changed, Array.getElem_setIfInBounds old]
  split
  next here =>
    subst here
    simp [mild.previous, Array.getD, old]
  next => rfl

theorem Regular.changed (regular : s.Regular) : (s.changed id change).Regular := by
  refine ⟨regular.types, by simpa using regular.some, ?_, ?_, fun e mem => mild.shows low high
    (regular.shown e mem), ?_⟩
  · intro k
    rw [(mild.identifier low high k).2.2.1]
    exact regular.named k
  · intro k n
    rw [(mild.identifier low high k).2.2.2]
    exact regular.listed k n
  · intro e mem
    obtain ⟨d, old, same⟩ := mild.mem mem
    exact same ▸ mild.shows low high (regular.hidden d old)

theorem Linked.changed (linked : s.Linked) : (s.changed id change).Linked := by
  refine ⟨?_, linked.stored, ?_, ?_, ?_⟩
  · rw [Session.changed, Array.getElem?_setIfInBounds_ne (by omega)]
    exact linked.zero
  · intro k pos inside
    rw [(mild.identifier low high k).2.1]
    exact linked.spelled k pos (by simpa using inside)
  · intro k
    rw [(mild.identifier low high k).1, (mild.identifier low high k).2.1,
      (mild.identifier low high _).2.1]
    exact linked.previous k
  · intro k
    rw [(mild.identifier low high _).2.1]
    exact linked.refers k

end Changed

/-- A declaration that is new is changed. -/
theorem Advances.changed {change : Identifier → Identifier} (advances : s.Advances ok t)
    (mild : Mild change) (some : 0 < id) (new : (s.identifiers.size : Int) ≤ id)
    (high : id < t.identifiers.size) : s.Advances ok (t.changed id change) where
  tree := advances.tree
  journal := advances.journal
  regular := advances.regular.changed mild some high
  later := by
    have kept (k : Int) (low : k < s.identifiers.size) : (t.changed id change).identifier k =
        { s.identifier k with defined := ((t.changed id change).identifier k).defined } := by
      rw [identifier_changed_ne (by omega)]
      exact advances.later.grows.kept k low
    have grows : s.Grows (t.changed id change) := {
      types := advances.later.grows.types
      more := by simpa using advances.later.grows.more
      kept
      functions := advances.later.grows.functions }
    exact ⟨grows, advances.later.strings, advances.later.spellings⟩
  linked := advances.linked.imp_right fun step linked => (step linked).changed mild some high
  short := advances.short

/-- A declaration is marked as defined. -/
theorem Regular.setDefined_ok (regular : s.Regular) (low : 0 < id)
    (high : id < s.identifiers.size) : ∃ t, s.setDefined id = .ok t ∧ s.Advances ok t ∧
    t = s.changed id fun e => { e with defined := true } := by
  have mild : Mild fun e : Identifier => { e with defined := true } :=
    ⟨fun _ => rfl, fun _ => rfl, fun _ => rfl, fun _ => rfl⟩
  let t := s.changed id fun e => { e with defined := true }
  have kept (k : Int) :
      t.identifier k = { s.identifier k with defined := (t.identifier k).defined } := by
    by_cases here : k = id
    · subst here
      rw [identifier_changed_same low high]
    · rw [identifier_changed_ne here]
  have grows : s.Grows t := ⟨.refl _, by simp [t], fun k _ => kept k, le_refl _⟩
  have advances : s.Advances ok t := {
    tree := rfl
    journal := rfl
    regular := regular.changed mild low high
    later := ⟨grows, rfl, le_refl _⟩
    linked := .inr fun linked => linked.changed mild low high
    short := .inr fun short => short }
  exact ⟨t, changeIdentifier_of_lt low.le high _, advances, rfl⟩

end Session

end BilingualC
