import Mathlib
import BilingualC.Proofs.Guarded
import BilingualC.Proofs.Session.Scopes
import BilingualC.Proofs.Tree.Form
import BilingualC.Proofs.TypeTable.Defined

/-!
# Sound sessions

`Session.Tables` says that the tables of a session fit together while a program is checked: types
are valid, and those of variables, functions and names of types are defined; what a spelling stands
for was declared and is no label, functions are numbered one by one and have no address yet. Every
operation of the checker keeps this and changes no earlier declaration, except that it may count a
function as defined (`Session.Updates`). What a tree demands of the tables stays true when they grow
(`Covers.grow`).
-/

namespace BilingualC

theorem cellAt_mem {α : Type} {cells : Array α} {i : Int} {cell : α}
    (found : cellAt cells i = .ok cell) : cell ∈ cells := by
  unfold cellAt at found
  split at found
  · cases found
  · split at found
    next here =>
      cases found
      exact Array.mem_of_getElem? here
    next => cases found

/-- Setting a declaration leaves the other spellings alone. -/
theorem Spellings.mem_setDeclaration {p q : Spellings} {k d : Int}
    (done : p.setDeclaration k d = .ok q) {e : Spelling}
    (mem : e ∈ q.entries) : e ∈ p.entries ∨ e.declaration = d := by
  obtain ⟨entry, _, rest⟩ := Guarded.bind_eq_ok.mp done
  obtain ⟨entries, written, made⟩ := Guarded.bind_eq_ok.mp rest
  cases made
  unfold setCellAt at written
  split at written
  next inside =>
    cases written
    obtain ⟨i, high, rfl⟩ := Array.mem_iff_getElem.mp mem
    rw [Array.getElem_setIfInBounds (by simpa using high)]
    split
    · exact .inr rfl
    · exact .inl (Array.getElem_mem _)
  next => cases written

/-- The kinds of nodes that name no declaration. -/
def Kind.isAnonymous : Kind → Bool
  | .identifier | .call | .variable | .label | .jump | .functionDefinition => false
  | _ => true

/-- Says whether a declaration gives its name a type. -/
def Identifier.HasType (e : Identifier) : Prop := e.kind ≠ .label ∧ e.kind ≠ .builtin

namespace Session

variable {s t u : Session}

/-! ## Growing tables -/

/-- The later session has all declarations of the earlier one; only whether they are defined may
have changed. -/
structure Grows (s t : Session) : Prop where
  types : s.types.Continues t.types
  more : s.identifiers.size ≤ t.identifiers.size
  kept : ∀ id : Int, id < s.identifiers.size →
    t.identifier id = { s.identifier id with defined := (t.identifier id).defined }
  functions : s.functions.size ≤ t.functions.size

namespace Grows

theorem refl (s : Session) : s.Grows s := ⟨.refl _, le_refl _, fun _ _ => rfl, le_refl _⟩

theorem trans (first : s.Grows t) (second : t.Grows u) : s.Grows u where
  types := first.types.trans second.types
  more := first.more.trans second.more
  kept id old := by
    have more := first.more
    rw [second.kept id (by omega), first.kept id old]
  functions := first.functions.trans second.functions

section Kept

variable {k : Int} (grows : s.Grows t) (old : k < s.identifiers.size)

include grows old

theorem kind : (t.identifier k).kind = (s.identifier k).kind := by rw [grows.kept k old]

theorem type : (t.identifier k).type = (s.identifier k).type := by rw [grows.kept k old]

theorem displacement : (t.identifier k).displacement = (s.identifier k).displacement := by
  rw [grows.kept k old]

theorem spelling : (t.identifier k).spelling = (s.identifier k).spelling := by rw [grows.kept k old]

theorem previous : (t.identifier k).previous = (s.identifier k).previous := by rw [grows.kept k old]

end Kept

end Grows

variable {spelling id : Int} {kind : IdentKind} {type : TypeId}

/-- A number that names something other than a variable was declared. -/
theorem declared_of_kind (other : (s.identifier id).kind ≠ .variable) : 0 < id ∧
    id < s.identifiers.size := by
  by_contra out
  exact other (by rw [identifier_of_out out]; rfl)

/-- Forms of valid types are kept when the tables grow. -/
theorem Grows.form (grows : s.Grows t) (valid : s.types.Valid type) (pos : 0 < s.types.cells.size) :
    t.types.form? type = s.types.form? type :=
  TypeTable.form_continue grows.types (valid.lt_size pos)

/-! ## Sound tables -/

/-- A number that a spelling may stand for: zero or a declaration that is no label. -/
def Visible (s : Session) (id : Int) : Prop :=
  id < s.identifiers.size ∧ (s.identifier id).kind ≠ .label

/-- What the tables need of a declaration. -/
structure EntryOk (s : Session) (e : Identifier) : Prop where
  type : s.types.Valid e.type
  value : e.kind = .variable ∨ e.kind = .typeName → s.types.isFunction e.type = false
  whole : e.kind = .typeName → s.types.isArray e.type = false
  function : e.kind = .function →
    s.types.isFunction e.type = true ∧ 0 ≤ e.displacement ∧ e.displacement < s.functions.size
  library : e.kind = .builtin → (Builtin.ofNumber e.displacement).isListed = true
  listed : ∀ n, e.kind ≠ .unlisted n

/-- The tables of a session while a program is checked. -/
structure Tables (s : Session) : Prop where
  types : s.types.Sound
  some : 0 < s.identifiers.size
  entries : ∀ id, s.EntryOk (s.identifier id)
  shown : ∀ e ∈ s.spellings.entries, s.Visible e.declaration
  hidden : ∀ e ∈ s.identifiers, s.Visible e.previous
  numbers : ∀ i j, (s.identifier i).kind = .function → (s.identifier j).kind = .function →
    (s.identifier i).displacement = (s.identifier j).displacement → i = j
  counted : ∀ n < s.functions.size, ∃ id, (s.identifier id).kind = .function ∧
    (s.identifier id).displacement = n
  unknown : ∀ a ∈ s.functions, a = 0
  main : s.main ≠ 0 → (s.identifier s.main).kind = .function
  defined : ∀ id : Int, 0 < id → id < s.identifiers.size → (s.identifier id).HasType →
    s.types.Defined (s.identifier id).type

/-- What an operation of the checker does to a session with sound tables: it leaves the tree alone,
and the tables stay sound. -/
structure Updates (s t : Session) : Prop where
  tree : t.tree = s.tree
  grows : s.Grows t
  tables : t.Tables
  defined : ∀ id, (t.identifier id).defined = (s.identifier id).defined

theorem Updates.trans (first : s.Updates t) (second : t.Updates u) : s.Updates u where
  tree := second.tree.trans first.tree
  grows := first.grows.trans second.grows
  tables := second.tables
  defined k := (second.defined k).trans (first.defined k)

/-- A session takes in a declaration behind the others. -/
structure Taken (s t : Session) (e : Identifier) : Prop where
  tree : t.tree = s.tree
  types : t.types = s.types
  identifiers : t.identifiers = s.identifiers.push e
  new : e.defined = false
  functions : t.functions = if e.kind = .function then s.functions.push 0 else s.functions
  number : e.kind = .function → e.displacement = s.functions.size
  previous : s.Visible e.previous
  shown : ∀ x ∈ t.spellings.entries, s.Visible x.declaration ∨ x.declaration = s.identifiers.size ∧
    e.kind ≠ .label
  main : t.main = s.main ∨ t.main = s.identifiers.size ∧ e.kind = .function

theorem Visible.grow (visible : s.Visible id) (grows : s.Grows t) : t.Visible id := by
  have more := grows.more
  refine ⟨by have := visible.1; omega, ?_⟩
  rw [grows.kind visible.1]
  exact visible.2

theorem EntryOk.grow {e : Identifier} (ok : s.EntryOk e) (grows : s.Grows t)
    (pos : 0 < s.types.cells.size) : t.EntryOk e := by
  have form := grows.form ok.type pos
  refine ⟨ok.type.continue grows.types, ?_, ?_, ?_, ok.library, ok.listed⟩
  · intro value
    rw [TypeTable.isFunction, form]
    exact ok.value value
  · intro whole
    rw [TypeTable.isArray, form]
    exact ok.whole whole
  · intro function
    obtain ⟨isFunction, low, high⟩ := ok.function function
    refine ⟨?_, low, lt_of_lt_of_le high (by exact_mod_cast grows.functions)⟩
    rw [TypeTable.isFunction, form]
    exact isFunction

namespace Tables

variable (tables : s.Tables)

include tables

theorem visible_zero : s.Visible 0 := by
  have some := tables.some
  refine ⟨by omega, ?_⟩
  rw [identifier_of_out (by omega)]
  nofun

/-- What a spelling stands for is no label. -/
theorem lookup (spelling : Int) : s.Visible (s.lookup spelling) := by
  unfold Session.lookup Spellings.declaration
  split
  next known =>
    have inside : spelling.toNat < s.spellings.entries.size := by
      simp only [Spellings.has, Bool.and_eq_true, decide_eq_true_eq] at known
      omega
    rw [Array.getD_eq_getD_getElem?, Array.getElem?_eq_getElem inside]
    exact tables.shown _ (Array.getElem_mem inside)
  next => exact tables.visible_zero

/-- A spelling that stands for no type and no function stands for a variable. -/
theorem lookup_variable (notBuiltin : (s.identifier (s.lookup spelling)).kind ≠ .builtin)
    (notType : (s.identifier (s.lookup spelling)).kind ≠ .typeName)
    (notFunction : (s.identifier (s.lookup spelling)).kind ≠ .function) :
    (s.identifier (s.lookup spelling)).kind = .variable := by
  have notLabel := (tables.lookup spelling).2
  have listed := (tables.entries (s.lookup spelling)).listed
  generalize (s.identifier (s.lookup spelling)).kind = kind at *
  cases kind <;> first | rfl | contradiction | exact absurd rfl (listed _)

/-- No function has an address yet. -/
theorem functionAddress (n : Int) : s.functionAddress n = 0 := by
  unfold Session.functionAddress
  split
  next inside =>
    have high : n.toNat < s.functions.size := by
      simp only [inTable, Bool.and_eq_true, decide_eq_true_eq] at inside
      omega
    rw [Array.getD_eq_getD_getElem?, Array.getElem?_eq_getElem high]
    exact tables.unknown _ (Array.getElem_mem high)
  next => rfl

/-! ## Operations on the tables -/

theorem updates_refl : s.Updates s := ⟨rfl, .refl s, tables, fun _ => rfl⟩

/-- The declarations, the functions and the types may be those of an earlier session. -/
theorem of_same (types : t.types = s.types) (identifiers : t.identifiers = s.identifiers)
    (functions : t.functions = s.functions) (main : t.main = s.main)
    (shown : ∀ e ∈ t.spellings.entries, s.Visible e.declaration) : s.Grows t ∧ t.Tables := by
  have same (id : Int) : t.identifier id = s.identifier id := by
    rw [identifier, identifier, identifiers]
  have grows : s.Grows t :=
    ⟨types ▸ .refl _, identifiers ▸ le_refl _, fun id _ => by rw [same], functions ▸ le_refl _⟩
  refine ⟨grows, types ▸ tables.types, identifiers ▸ tables.some, fun id => ?_,
    fun e mem => (shown e mem).grow grows,
    fun e mem => (tables.hidden e (identifiers ▸ mem)).grow grows, ?_, ?_, ?_, ?_, ?_⟩
  · rw [same]
    exact (tables.entries id).grow grows tables.types.size
  · simpa only [same] using tables.numbers
  · simpa only [same, functions] using tables.counted
  · simpa only [functions] using tables.unknown
  · simpa only [same, main] using tables.main
  · simpa only [same, identifiers, types] using tables.defined

theorem updates_journal (j : Journal) : s.Updates { s with journal := j } := by
  obtain ⟨grows, kept⟩ := tables.of_same (t := { s with journal := j }) rfl rfl rfl rfl tables.shown
  exact ⟨rfl, grows, kept, fun _ => rfl⟩

theorem updates_intern (text : String) : s.Updates (s.intern text).1 := by
  have kept : s.Grows (s.intern text).1 ∧ (s.intern text).1.Tables := by
    refine tables.of_same rfl rfl rfl rfl fun e mem => ?_
    have entries : (s.intern text).1.spellings = (s.spellings.intern text).1 := rfl
    rw [entries, Spellings.intern, Spellings.internWith] at mem
    split at mem
    · exact tables.shown e mem
    · rcases Array.mem_push.mp mem with old | rfl
      · exact tables.shown e old
      · exact tables.visible_zero
  exact ⟨rfl, kept.1, kept.2, fun _ => rfl⟩

theorem updates_types {new : TypeTable × TypeId} (makes : s.types.Makes new) :
    s.Updates { s with types := new.1 } := by
  obtain ⟨continues, sound, _⟩ := makes.added tables.types
  have grows : s.Grows { s with types := new.1 } :=
    ⟨continues, le_refl _, fun _ _ => rfl, le_refl _⟩
  have kept : Tables { s with types := new.1 } := {
    tables with
    types := sound
    entries := fun id => (tables.entries id).grow grows tables.types.size
    defined := fun id low high typed => (tables.defined id low high typed).continue continues }
  exact ⟨rfl, grows, kept, fun _ => rfl⟩

/-- A spelling that is set to stand for something visible. -/
theorem updates_setDeclaration (visible : s.Visible id)
    (done : s.setDeclaration spelling id = .ok t) : s.Updates t := by
  obtain ⟨p, set, same⟩ := Guarded.bind_eq_ok.mp done
  cases same
  obtain ⟨grows, kept⟩ :=
    tables.of_same (t := { s with spellings := p }) rfl rfl rfl rfl fun e mem =>
    (Spellings.mem_setDeclaration set mem).elim (tables.shown e) fun same => same ▸ visible
  exact ⟨rfl, grows, kept, fun _ => rfl⟩

theorem updates_hideAll {entries : List Identifier} (visible : ∀ e ∈ entries, s.Visible e.previous)
    (done : s.hideAll entries = .ok t) : s.Updates t := by
  induction entries generalizing s with
  | nil =>
    cases done
    exact tables.updates_refl
  | cons e rest ih =>
    rw [hideAll] at done
    split at done
    next => exact ih tables (fun d mem => visible d (List.mem_cons_of_mem e mem)) done
    next =>
      obtain ⟨middle, hidden, later⟩ := Guarded.bind_eq_ok.mp done
      have step := tables.updates_setDeclaration (visible e List.mem_cons_self) hidden
      exact step.trans (ih step.tables (fun d mem =>
        (visible d (List.mem_cons_of_mem e mem)).grow step.grows) later)

theorem updates_exitBlock {scope : Scope} (done : s.exitBlock scope = .ok t) : s.Updates t := by
  obtain ⟨middle, hidden, same⟩ := Guarded.bind_eq_ok.mp done
  cases same
  have step := tables.updates_hideAll (fun e mem => tables.hidden e (by
    simpa using List.mem_of_mem_drop (List.mem_reverse.mp mem))) hidden
  have kept := step.tables.of_same (t := { middle with
    scopeStart := scope.start
    displacement := scope.displacement }) rfl rfl rfl rfl step.tables.shown
  exact step.trans ⟨rfl, kept.1, kept.2, fun _ => rfl⟩

theorem updates_enterBlock : s.Updates s.enterBlock.1 := by
  obtain ⟨grows, kept⟩ := tables.of_same (t := s.enterBlock.1) rfl rfl rfl rfl tables.shown
  exact ⟨rfl, grows, kept, fun _ => rfl⟩

theorem updates_enterFunction : s.Updates s.enterFunction.1 := by
  obtain ⟨grows, kept⟩ := tables.of_same (t := s.enterFunction.1) rfl rfl rfl rfl tables.shown
  exact ⟨rfl, grows, kept, fun _ => rfl⟩

theorem updates_exitFunction {scope : Scope} {size : Int}
    (done : s.exitFunction scope = .ok (t, size)) : s.Updates t := by
  obtain ⟨middle, closed, same⟩ := Guarded.bind_eq_ok.mp done
  cases same
  have step := tables.updates_exitBlock closed
  obtain ⟨grows, kept⟩ :=
    step.tables.of_same (t := { middle with isLocal := false }) rfl rfl rfl rfl step.tables.shown
  exact step.trans ⟨rfl, grows, kept, fun _ => rfl⟩

/-- A session with one more declaration. -/
theorem updates_taken {e : Identifier} (taken : s.Taken t e) (ok : t.EntryOk e)
    (defined : e.HasType → t.types.Defined e.type) : s.Updates t := by
  have some := tables.some
  have more : t.identifiers.size = s.identifiers.size + 1 := by
    rw [taken.identifiers, Array.size_push]
  have last : t.identifier s.identifiers.size = e := identifier_last taken.identifiers some
  have old {k : Int} (old : k < s.identifiers.size) : t.identifier k = s.identifier k :=
    identifier_push taken.identifiers old
  have past {k : Int} (past : s.identifiers.size < k) : t.identifier k = .none ∧
    s.identifier k = .none :=
    ⟨identifier_of_out (by omega), identifier_of_out (by omega)⟩
  have room : s.functions.size ≤ t.functions.size := by
    rw [taken.functions]
    split <;> simp
  have grows : s.Grows t := ⟨taken.types ▸ .refl _, by omega, fun k low => by rw [old low], room⟩
  -- A function is the new declaration or an earlier one.
  have functionCases (k : Int) (isFunction : (t.identifier k).kind = .function) :
      k = s.identifiers.size ∧ (t.identifier k).displacement = s.functions.size ∨
      (s.identifier k).kind = .function ∧
      (t.identifier k).displacement = (s.identifier k).displacement := by
    rcases lt_trichotomy k s.identifiers.size with low | rfl | high
    · rw [old low] at isFunction ⊢
      exact .inr ⟨isFunction, rfl⟩
    · rw [last] at isFunction ⊢
      exact .inl ⟨rfl, taken.number isFunction⟩
    · rw [(past high).1] at isFunction
      cases isFunction
  have kept : t.Tables := by
    constructor
    case types => exact taken.types ▸ tables.types
    case some => omega
    case entries =>
      intro k
      rcases lt_trichotomy k s.identifiers.size with low | rfl | high
      · rw [old low]
        exact (tables.entries k).grow grows tables.types.size
      · rw [last]
        exact ok
      · rw [(past high).1, ← (past high).2]
        exact (tables.entries k).grow grows tables.types.size
    case shown =>
      intro x mem
      rcases taken.shown x mem with visible | ⟨here, visible⟩
      · exact visible.grow grows
      · rw [here]
        exact ⟨by omega, by rwa [last]⟩
    case hidden =>
      intro x mem
      rw [taken.identifiers] at mem
      rcases Array.mem_push.mp mem with earlier | rfl
      · exact (tables.hidden x earlier).grow grows
      · exact taken.previous.grow grows
    case numbers =>
      intro i j first second same
      rcases functionCases i first with ⟨hi, di⟩ | ⟨ki, di⟩ <;>
        rcases functionCases j second with ⟨hj, dj⟩ | ⟨kj, dj⟩
      · rw [hi, hj]
      · have below := ((tables.entries j).function kj).2.2
        omega
      · have below := ((tables.entries i).function ki).2.2
        omega
      · exact tables.numbers i j ki kj (by omega)
    case counted =>
      intro n low
      by_cases known : n < s.functions.size
      · obtain ⟨k, isFunction, here⟩ := tables.counted n known
        have declared : 0 < k ∧ k < s.identifiers.size := declared_of_kind (by simp [isFunction])
        refine ⟨k, ?_⟩
        rw [old declared.2]
        exact ⟨isFunction, here⟩
      · rw [taken.functions] at low
        split at low
        next new =>
          rw [Array.size_push] at low
          refine ⟨s.identifiers.size, ?_⟩
          rw [last, taken.number new]
          exact ⟨new, by omega⟩
        next => exact absurd low known
    case unknown =>
      intro a mem
      rw [taken.functions] at mem
      split at mem
      · exact (Array.mem_push.mp mem).elim (tables.unknown a) id
      · exact tables.unknown a mem
    case main =>
      intro there
      rcases taken.main with same | ⟨here, new⟩
      · rw [same] at there ⊢
        have isFunction := tables.main there
        rw [old (declared_of_kind (by simp [isFunction])).2]
        exact isFunction
      · rw [here, last]
        exact new
    case defined =>
      intro k low high typed
      rcases lt_trichotomy k s.identifiers.size with before | rfl | past
      · rw [old before] at typed ⊢
        exact taken.types ▸ tables.defined k low before typed
      · rw [last] at typed ⊢
        exact defined typed
      · omega
  have counts (k : Int) : (t.identifier k).defined = (s.identifier k).defined := by
    rcases lt_trichotomy k s.identifiers.size with low | rfl | high
    · rw [old low]
    · rw [last, taken.new, identifier_of_out (by omega)]
      rfl
    · rw [(past high).1, (past high).2]
  exact ⟨taken.tree, grows, kept, counts⟩

/-- A declaration that is counted as defined. -/
theorem setDefined_inv (done : s.setDefined id = .ok t) :
    t.tree = s.tree ∧ s.Grows t ∧ t.Tables ∧ (∀ k, k ≠ id → t.identifier k = s.identifier k) ∧
    (0 < id → (t.identifier id).defined = true) := by
  obtain ⟨low, high, made⟩ := changeIdentifier_eq_ok done
  have size : t.identifiers.size = s.identifiers.size := by rw [made, size_changed]
  have types : t.types = s.types := by rw [made]; rfl
  have functions : t.functions = s.functions := by rw [made]; rfl
  have main : t.main = s.main := by rw [made]; rfl
  have spellings : t.spellings = s.spellings := by rw [made]; rfl
  have other (k : Int) (ne : k ≠ id) : t.identifier k = s.identifier k := by
    rw [made, identifier_changed_ne ne]
  have this (pos : 0 < id) : t.identifier id = { s.identifier id with defined := true } := by
    rw [made, identifier_changed_same pos high]
  -- nothing but the mark of one entry changes
  have same (k : Int) :
    t.identifier k = { s.identifier k with defined := (t.identifier k).defined } := by
    by_cases here : k = id ∧ 0 < id
    · rw [here.1, this here.2]
    · by_cases ne : k = id
      · rw [identifier_of_out (by omega), identifier_of_out (by omega)]
      · rw [other k ne]
  have kinds (k : Int) : (t.identifier k).kind = (s.identifier k).kind := by rw [same]
  have displacements (k : Int) : (t.identifier k).displacement = (s.identifier k).displacement := by
    rw [same]
  have grows : s.Grows t :=
    ⟨types ▸ .refl _, size ▸ le_refl _, fun k _ => same k, functions ▸ le_refl _⟩
  have previous (k : Nat) (inside : k < t.identifiers.size) :
    t.identifiers[k].previous = s.identifiers[k].previous := by
    subst made
    simp only [changed, Array.getElem_setIfInBounds (size ▸ inside)]
    split
    next here => simp [← here, Array.getD, show id.toNat < s.identifiers.size by omega]
    next => rfl
  have tree : t.tree = s.tree := by rw [made]; rfl
  have kept : t.Tables := by
    constructor
    case types => exact types ▸ tables.types
    case some => exact size ▸ tables.some
    case entries =>
      intro k
      rw [same]
      have ok := (tables.entries k).grow grows tables.types.size
      exact ⟨ok.type, ok.value, ok.whole, ok.function, ok.library, ok.listed⟩
    case shown =>
      intro e mem
      exact (tables.shown e (spellings ▸ mem)).grow grows
    case hidden =>
      intro e mem
      obtain ⟨k, inside, rfl⟩ := Array.mem_iff_getElem.mp mem
      rw [previous k inside]
      exact (tables.hidden _ (Array.getElem_mem _)).grow grows
    case numbers => simpa only [kinds, displacements] using tables.numbers
    case counted => simpa only [kinds, displacements, functions] using tables.counted
    case unknown => exact functions ▸ tables.unknown
    case main => simpa only [kinds, main] using tables.main
    case defined =>
      intro k low high typed
      rw [same k] at typed ⊢
      exact types ▸ tables.defined k low (size ▸ high) typed
  exact ⟨tree, grows, kept, other, fun pos => by rw [this pos]⟩

end Tables

/-! ## Declarations -/

/-- What a session needs to take in a declaration of a program. -/
structure Admits (s : Session) (kind : IdentKind) (type : TypeId) : Prop where
  valid : s.types.Valid type
  value : kind = .variable ∨ kind = .typeName → s.types.isFunction type = false
  whole : kind = .typeName → s.types.isArray type = false
  function : kind = .function → s.types.isFunction type = true
  listed : kind = .variable ∨ kind = .typeName ∨ kind = .function ∨ kind = .label
  defined : kind ≠ .label → s.types.Defined type

/-- A declaration that was taken in. -/
structure Declared (s t : Session) (spelling : Int) (kind : IdentKind) (type : TypeId)
    (id : Int) : Prop where
  updates : s.Updates t
  fresh : id = s.identifiers.size
  more : t.identifiers.size = s.identifiers.size + 1
  kind : (t.identifier id).kind = kind
  type : (t.identifier id).type = type
  spelling : (t.identifier id).spelling = spelling
  defined : (t.identifier id).defined = false
  kept : ∀ k, k ≠ id → t.identifier k = s.identifier k

/-- A place that was given is the place that there is to give. -/
theorem place_inv {entry e : Identifier} (done : s.place entry id = .ok (t, e)) :
    s.Placed entry id t ∧ e = { entry with displacement := e.displacement } ∧
      (entry.kind = .function → e.displacement = s.functions.size) := by
  have sized (isVariable : entry.kind = .variable) : ∃ n, s.types.sizeOf entry.type = .ok n := by
    unfold place at done
    simp only [isVariable] at done
    obtain ⟨n, found, _⟩ := Guarded.bind_eq_ok.mp done
    exact ⟨n, found⟩
  obtain ⟨u, cell, placed, facts⟩ := place_ok entry id sized
  cases placed.symm.trans done
  refine ⟨facts, rfl, fun function => ?_⟩
  unfold place at done
  simp only [function] at done
  cases done
  rfl

/-- The steps of a declaration that is taken in and becomes visible. -/
theorem declare_steps (visible : kind ≠ .label)
    (done : s.declare spelling kind type = .ok (.ok (t, id))) :
    id = s.identifiers.size ∧ ∃ cell u e, cellAt s.spellings.entries spelling = .ok cell ∧
    s.place ⟨cell.declaration, spelling, type, kind, 0, false⟩ id = .ok (u, e) ∧
    { u with identifiers := u.identifiers.push e }.setDeclaration spelling id = .ok t := by
  have other : (kind == IdentKind.label) = false := by simpa using visible
  unfold declare at done
  simp only [other, Bool.false_eq_true, if_false] at done
  obtain ⟨cell, found, done⟩ := Guarded.bind_eq_ok.mp done
  split at done
  · cases done
  split at done
  · cases done
  obtain ⟨⟨u, e⟩, placed, done⟩ := Guarded.bind_eq_ok.mp done
  obtain ⟨v, shown, done⟩ := Guarded.bind_eq_ok.mp done
  cases done
  exact ⟨rfl, cell, u, e, found, placed, shown⟩

theorem declare_inv (tables : s.Tables) (done : s.declare spelling kind type = .ok (.ok (t, id))) :
    id = s.identifiers.size ∧ ∃ previous displacement,
      s.Taken t ⟨previous, spelling, type, kind, displacement, false⟩ := by
  by_cases label : kind = .label
  · subst label
    rw [declare_label] at done
    cases done
    exact ⟨rfl, 0, 0, rfl, rfl, rfl, rfl, rfl, nofun, tables.visible_zero,
      fun x mem => .inl (tables.shown x mem), .inl rfl⟩
  · obtain ⟨rfl, cell, u, e, found, placed, shown⟩ := declare_steps label done
    obtain ⟨place, entry, number⟩ := place_inv placed
    obtain ⟨p, set, same⟩ := Guarded.bind_eq_ok.mp shown
    cases same
    refine ⟨rfl, cell.declaration, e.displacement, place.tree, place.types, ?_, rfl,
      place.functions, number, tables.shown _ (cellAt_mem found), fun x mem => ?_, ?_⟩
    · rw [← place.identifiers]
      exact congrArg u.identifiers.push entry
    · rcases Spellings.mem_setDeclaration set mem with old | new
      · exact .inl (tables.shown x (place.spellings ▸ old))
      · exact .inr ⟨new, label⟩
    · have main := place.main
      split at main
      next entry => exact .inr ⟨main, entry.1⟩
      next => exact .inl main

theorem Admits.declared (admits : s.Admits kind type) (tables : s.Tables)
    (done : s.declare spelling kind type = .ok (.ok (t, id))) :
    s.Declared t spelling kind type id := by
  obtain ⟨rfl, previous, displacement, taken⟩ := declare_inv tables done
  have some := tables.some
  have last := identifier_last taken.identifiers some
  have more : t.identifiers.size = s.identifiers.size + 1 := by
    rw [taken.identifiers, Array.size_push]
  have ok : t.EntryOk ⟨previous, spelling, type, kind, displacement, false⟩ := by
    constructor
    case type => exact taken.types ▸ admits.valid
    case value => exact taken.types ▸ admits.value
    case whole => exact taken.types ▸ admits.whole
    case function =>
      intro isFunction
      rw [taken.number isFunction, taken.functions, if_pos isFunction, Array.size_push, taken.types]
      exact ⟨admits.function isFunction, by omega, by omega⟩
    case library =>
      intro library
      rcases admits.listed with h | h | h | h <;> simp [h] at library
    case listed =>
      intro n other
      rcases admits.listed with h | h | h | h <;> simp [h] at other
  constructor
  case updates =>
    exact tables.updates_taken taken ok fun typed => taken.types ▸ admits.defined typed.1
  case fresh => rfl
  case more => exact more
  case kind => rw [last]
  case type => rw [last]
  case spelling => rw [last]
  case defined => rw [last]
  case kept =>
    intro k other
    rcases lt_or_gt_of_ne other with old | past
    · exact identifier_push taken.identifiers old
    · rw [identifier_of_out (by omega), identifier_of_out (by omega)]

/-! ## The journal -/

theorem journal_setDeclaration (done : s.setDeclaration spelling id = .ok t) :
    t.journal = s.journal := by
  obtain ⟨p, _, same⟩ := Guarded.bind_eq_ok.mp done
  cases same
  rfl

theorem journal_declare (done : s.declare spelling kind type = .ok (.ok (t, id))) :
    t.journal = s.journal := by
  by_cases label : kind = .label
  · subst label
    rw [declare_label] at done
    cases done
    rfl
  · obtain ⟨_, cell, u, e, _, placed, shown⟩ := declare_steps label done
    exact (journal_setDeclaration shown).trans (place_inv placed).1.journal

theorem journal_hideAll {entries : List Identifier} (done : s.hideAll entries = .ok t) :
    t.journal = s.journal := by
  induction entries generalizing s with
  | nil =>
    cases done
    rfl
  | cons e rest ih =>
    rw [hideAll] at done
    split at done
    · exact ih done
    · obtain ⟨middle, hidden, later⟩ := Guarded.bind_eq_ok.mp done
      exact (ih later).trans (journal_setDeclaration hidden)

theorem journal_exitBlock {scope : Scope} (done : s.exitBlock scope = .ok t) :
    t.journal = s.journal := by
  obtain ⟨middle, hidden, same⟩ := Guarded.bind_eq_ok.mp done
  cases same
  exact (journal_hideAll hidden :)

theorem journal_exitFunction {scope : Scope} {size : Int}
    (done : s.exitFunction scope = .ok (t, size)) : t.journal = s.journal := by
  obtain ⟨middle, closed, same⟩ := Guarded.bind_eq_ok.mp done
  cases same
  exact (journal_exitBlock closed :)

theorem journal_setDefined (done : s.setDefined id = .ok t) : t.journal = s.journal := by
  obtain ⟨_, _, rfl⟩ := changeIdentifier_eq_ok done
  rfl

/-! ## Demands of trees -/

/-- What a node demands of the tables, in a form that stays true when they grow: whatever it refers
to was declared, and a name has the type of its declaration. -/
structure Refers (s : Session) (r : Rose) : Prop extends s.NodeOk r where
  name : r.kind = .identifier → r.arg 2 < s.identifiers.size ∧
    (s.identifier (r.arg 2)).type = r.exprType ∧
    ((s.identifier (r.arg 2)).kind = .variable ∨ (s.identifier (r.arg 2)).kind = .function)
  place : r.kind = .variable → r.arg 0 < s.identifiers.size

/-- The tables meet the demands of all nodes of a tree. -/
def Covers (s : Session) (r : Rose) : Prop := ∀ x ∈ r.nodes, s.Refers x

theorem Covers.accepts {r : Rose} (covers : s.Covers r) : s.Accepts r :=
  fun x mem => (covers x mem).toNodeOk

theorem Covers.self {r : Rose} (covers : s.Covers r) : s.Refers r := covers r r.mem_nodes_self

theorem Covers.child {r c : Rose} (covers : s.Covers r) (mem : c ∈ r.children) : s.Covers c :=
  fun x inside => covers x (Rose.mem_nodes_child mem inside)

/-- A tree is covered if its node and its children are. -/
theorem covers_node {r : Rose} (refers : s.Refers r) (below : ∀ c ∈ r.children, s.Covers c) :
    s.Covers r := by
  intro x mem
  rw [Rose.nodes_eq, List.mem_cons, List.mem_flatMap] at mem
  rcases mem with rfl | ⟨c, child, inside⟩
  · exact refers
  · exact below c child x inside

/-- A node that names nothing demands a valid type, and that only if it is an expression. -/
theorem refers_anonymous {r : Rose} {kind : Kind}
    (same : r.kind = kind) (anonymous : kind.isAnonymous = true)
    (valid : kind.isExpression = true → s.types.Valid r.exprType) : s.Refers r := by
  have other {k : Kind} (names : k.isAnonymous = false) : r.kind ≠ k := by
    rintro rfl
    rw [same, anonymous] at names
    cases names
  constructor
  case toNodeOk =>
    constructor
    case type => exact fun expression => valid (same ▸ expression)
    all_goals exact fun named => absurd named (other rfl)
  all_goals exact fun named => absurd named (other rfl)

theorem IsFunction.grow (isFunction : s.IsFunction id) (grows : s.Grows t) : t.IsFunction id := by
  obtain ⟨kind, low, high⟩ := isFunction
  have declared : 0 < id ∧ id < s.identifiers.size := declared_of_kind (by simp [kind])
  have more := grows.functions
  rw [IsFunction, grows.kind declared.2, grows.displacement declared.2]
  exact ⟨kind, low, by omega⟩

theorem IsLabel.grow (isLabel : s.IsLabel id) (grows : s.Grows t) : t.IsLabel id := by
  obtain ⟨low, high, kind⟩ := isLabel
  have more := grows.more
  refine ⟨low, by omega, ?_⟩
  rw [grows.kind high]
  exact kind

theorem Refers.grow {r : Rose} (refers : s.Refers r) (grows : s.Grows t) (tables : s.Tables) :
    t.Refers r where
  type expression := (refers.type expression).continue grows.types
  declared isVariable := by
    have old := refers.place isVariable
    rw [grows.type old, grows.kind old]
    exact ⟨(refers.declared isVariable).1.continue grows.types, (refers.declared isVariable).2⟩
  list isVariable unbound i mem list := by
    have old := refers.place isVariable
    rw [grows.type old, TypeTable.isStructure,
      grows.form (refers.declared isVariable).1 tables.types.size]
    exact refers.list isVariable unbound i mem list
  callee call := (refers.callee call).grow grows
  named name := by
    rw [grows.kind (refers.name name).1]
    exact refers.named name
  jump jump := (refers.jump jump).grow grows
  label label := (refers.label label).grow grows
  function function := (refers.function function).grow grows
  name name := by
    obtain ⟨old, type, kind⟩ := refers.name name
    have more := grows.more
    rw [grows.type old, grows.kind old]
    exact ⟨by omega, type, kind⟩
  place isVariable := by
    have old := refers.place isVariable
    have more := grows.more
    omega

theorem Covers.grow {r : Rose} (covers : s.Covers r) (grows : s.Grows t) (tables : s.Tables) :
    t.Covers r :=
  fun x mem => (covers x mem).grow grows tables

end Session

end BilingualC
