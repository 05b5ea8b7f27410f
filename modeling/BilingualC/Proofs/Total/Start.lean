import Mathlib
import BilingualC.Proofs.Checker.Library
import BilingualC.Proofs.Total.Steps

/-!
# Starting the checker

An empty session is regular and linked, and has no library functions. The library is declared in it
without a fault, and it consists of known functions, so a checker starts on any regular session.
-/

namespace BilingualC

open Guarded

variable {ok : Fault → Prop}

namespace Session

variable {s t : Session}

/-! ## Library functions -/

/-- Whatever stands for a library function stands for a known one. -/
def Library (s : Session) : Prop :=
  ∀ id, (s.identifier id).kind = .builtin →
    (Builtin.ofNumber (s.identifier id).displacement).isListed = true

theorem Library.congr (identifiers : t.identifiers = s.identifiers) (library : s.Library) :
    t.Library := by
  intro id
  rw [identifier_congr identifiers]
  exact library id

/-- Nothing that a program declares is a library function. -/
theorem Library.enters {spelling id : Int} {kind : IdentKind} {type : TypeId} (regular : s.Regular)
    (entered : s.Enters t spelling kind type id) (other : kind ≠ .builtin) (library : s.Library) :
    t.Library := by
  intro k
  obtain ⟨previous, displacement, identifiers⟩ := entered.entry
  rcases lt_trichotomy k s.identifiers.size with low | rfl | high
  · rw [identifier_push identifiers low]
    exact library k
  · rw [identifier_last identifiers regular.some]
    exact fun isBuiltin => absurd isBuiltin other
  · rw [identifier_of_out (by rw [identifiers, Array.size_push]; omega)]
    exact nofun

theorem Library.later (onward : s.Later t) (size : t.identifiers.size = s.identifiers.size)
    (library : s.Library) : t.Library := by
  intro k
  by_cases low : k < s.identifiers.size
  · rw [onward.grows.kept k low]
    exact library k
  · rw [identifier_of_out (by omega)]
    exact nofun

/-! ## Empty sessions -/

theorem identifier_new (rootType : Int) (journal : Journal) (id : Int) :
    (Session.new rootType journal).identifier id = .none := by
  refine identifier_of_out fun ⟨low, high⟩ => ?_
  have single : (Session.new rootType journal).identifiers.size = 1 := rfl
  omega

theorem regular_new (rootType : Int) (journal : Journal) :
    (Session.new rootType journal).Regular := by
  have zero : (Session.new rootType journal).Shows 0 :=
    ⟨le_refl 0, Int.one_pos, by rw [identifier_new]; decide⟩
  refine ⟨TypeTable.tiled_empty, Nat.one_pos, ?_, ?_, ?_, ?_⟩
  · intro id
    rw [identifier_new]
    exact TypeTable.tiled_empty.undefined
  · intro id n
    rw [identifier_new]
    exact nofun
  · intro e mem
    obtain rfl : e = ⟨"", 0, 0⟩ := by simpa [Session.new, Spellings.empty] using mem
    exact zero
  · intro e mem
    obtain rfl : e = .none := by simpa [Session.new] using mem
    exact zero

theorem linked_new (rootType : Int) (journal : Journal) :
    (Session.new rootType journal).Linked := by
  refine ⟨rfl, Spellings.stored_empty _, fun id low high => ?_, fun id => .inl ?_, fun k => .inl ?_⟩
  · have single : (Session.new rootType journal).identifiers.size = 1 := rfl
    omega
  · rw [identifier_new]
    rfl
  · have only : (Session.new rootType journal).spellings.entries.size = 1 := rfl
    rw [lookup, Spellings.declaration]
    split
    next known =>
      obtain ⟨low, high⟩ := Spellings.has_iff.mp known
      omega
    next => rfl

theorem short_new (rootType : Int) (journal : Journal) :
    (Session.new rootType journal).types.Short := by
  intro id r holds
  have inside := holds.named.lt_size
  have pos := holds.pos
  have single : (Session.new rootType journal).types.cells.size = 1 := rfl
  omega

end Session

namespace Checker

variable {s t : Session} {c : Checker}

/-! ## The library -/

theorem declareBuiltin_ends (regular : s.Regular) (linked : ok .badIndex ∨ s.Linked)
    {b : Builtin} (listed : b.isListed = true) (text : String) :
    (declareBuiltin s b text).Ends ok fun t => s.Advances ok t ∧ (s.Library → t.Library) := by
  have interned : s.Advances ok (s.intern text).1 := regular.advances_intern text
  rw [declareBuiltin]
  dsimp only
  split
  next => exact ends_pure ⟨interned, .congr rfl⟩
  next =>
    have known := linked.imp_right fun linked => linked.has_intern text
    have builtin : ∀ n, IdentKind.builtin ≠ .unlisted n := nofun
    refine (interned.regular.declare_ends interned.regular.types.undefined builtin known).bind
      fun answer taken => ?_
    cases answer with
    | error e => exact ends_pure ⟨interned, .congr rfl⟩
    | ok answer =>
      obtain ⟨t, id⟩ := answer
      obtain ⟨advances, entered⟩ := taken t id rfl
      obtain ⟨previous, displacement, identifiers⟩ := entered.entry
      have mild : Session.Mild fun e : Identifier => { e with displacement := b.number } :=
        ⟨fun _ => rfl, fun _ => rfl, fun _ => rfl, fun _ => rfl⟩
      have some := interned.regular.some
      have low : 0 < id := by
        have := entered.fresh
        omega
      have high : id < t.identifiers.size := by
        have := entered.fresh
        rw [identifiers, Array.size_push]
        omega
      have changed := advances.changed mild low (le_of_eq entered.fresh.symm) high
      refine ends_ok ⟨interned.trans changed, fun library k => ?_⟩
        (Session.changeIdentifier_of_lt low.le high _)
      by_cases new : k = id
      · subst new
        rw [Session.identifier_changed_same low high]
        intro _
        rw [Builtin.ofNumber_number listed]
        exact listed
      · rw [Session.identifier_changed_ne new]
        by_cases old : k < (s.intern text).1.identifiers.size
        · rw [Session.identifier_push identifiers old]
          exact library k
        · have fresh := entered.fresh
          rw [Session.identifier_of_out (by rw [identifiers, Array.size_push]; omega)]
          exact nofun

theorem declareBuiltins_ends (regular : s.Regular) (linked : ok .badIndex ∨ s.Linked)
    {library : List (Builtin × String)} (listed : ∀ b ∈ library, b.1.isListed = true) :
    (declareBuiltins s library).Ends ok fun t => s.Advances ok t ∧ (s.Library → t.Library) := by
  induction library generalizing s with
  | nil => exact ends_pure ⟨regular.advances rfl rfl rfl rfl rfl rfl rfl, fun known => known⟩
  | cons b rest ih =>
    obtain ⟨first, others⟩ := List.forall_mem_cons.mp listed
    refine (declareBuiltin_ends regular linked first b.2).bind fun t ⟨advances, known⟩ => ?_
    have linked' := (or_and linked advances.linked).imp_right fun both => both.2 both.1
    exact (ih advances.regular linked' others).mono fun u ⟨more, later⟩ =>
      ⟨advances.trans more, later ∘ known⟩

/-! ## The first state -/

/-- A state in which nothing of the program was read. -/
structure Begins (ok : Fault → Prop) (s : Session) (c : Checker) : Prop where
  fine : c.Fine ok
  tree : c.session.tree = s.tree
  journal : c.session.journal = s.journal
  later : s.Later c.session
  library : s.Library → c.session.Library
  function : c.function = 0
  labels : c.labels = none
  loops : c.loops = 0
  switches : c.switches = 0

theorem new_ends (regular : s.Regular) (linked : ok .badIndex ∨ s.Linked)
    (tight : Loose ok ∨ (s.types.Short ∧ s.journal.Roomy)) :
    (Checker.new s).Ends ok fun c => Begins ok s c := by
  have char : s.types.Named TypeId.char :=
    TypeTable.named_scalar regular.types (by decide) (by decide)
  have gains := TypeTable.gains_array char
  have typed : s.Advances ok (s.arrayType TypeId.char).1 :=
    regular.advances_types gains (.inr (by simp [TypeRecord.count, largestBlock]))
  rw [Checker.new]
  refine (declareBuiltins_ends typed.regular ((or_and linked typed.linked).imp_right fun both =>
    both.2 both.1) builtinSpellings_listed).bind fun t declared => ?_
  obtain ⟨library, known⟩ := declared
  have all := (typed.trans library).trans library.regular.advances_enterBlock
  have string := gains.holds.continue
    (library.trans library.regular.advances_enterBlock).later.grows.types all.regular.types
  refine ends_pure ⟨⟨all.regular, string, all.regular.types.undefined, ?_, ?_⟩, all.tree,
    all.journal, all.later, ?_, rfl, rfl, rfl, rfl⟩
  · exact (or_and linked all.linked).imp_right fun both => both.2 both.1
  · exact (or_and tight all.short).imp_right fun both =>
      ⟨both.2 both.1.1, by rw [Journal.Roomy, all.journal]; exact both.1.2,
      by simp, by simp [labelList]⟩
  · exact fun library => Session.Library.congr rfl (known (.congr rfl library))

end Checker

end BilingualC
