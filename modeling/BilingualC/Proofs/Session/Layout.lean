import Mathlib
import BilingualC.Proofs.Session.Types

/-!
# The layout of structures

The fields of a structure lie one behind the other: each starts where the one before it ends. The
size of a structure is stored when it is made, while displacements are added up whenever a member is
looked for, so both are compared with one count of words (`TypeState.Takes`), which never wraps.

Sizes are words. A structure of more words than that is left out, and `sizeOf_wrapped` shows what
happens to one.

Main result: `TypeState.layout_tiles`.
-/

namespace BilingualC

open TypeTable

/-- Selects one member after the other, and adds up their displacements. -/
inductive TypeTable.Selects (t : TypeTable) : Int → List Int → Int → Int → Prop
  | nil {id : Int} : Selects t id [] id 0
  | cons {id e f name d k : Int} {names : List Int} (found : t.member id name = .ok (some (e, d)))
      (more : Selects t e names f k) : Selects t id (name :: names) f (d + k)

/-- Fields with their displacements, from a first displacement on. -/
def laidOut (words : TypeId → Nat) : Nat → List Field → List (Field × Nat)
  | _, [] => []
  | d, f :: fields => (f, d) :: laidOut words (d + words f.type) fields

namespace TypeState

/-- The number of words that a value of a type takes. It is counted from the calls that made the
type, and does not wrap. -/
inductive Takes (x : TypeState) : Int → Nat → Prop
  | nothing {id : Int} (empty : id = TypeId.void ∨ id = TypeId.undefined) : Takes x id 0
  | scalar {id : Int} (arithmetic : TypeId.isArithmetic id = true) : Takes x id 1
  | reference {call : TypeCall} {id : Int} (made : (call, id) ∈ x.made)
      (single : ∀ fields, call ≠ .struct fields) : Takes x id 1
  | struct {fields : List Field} {id : Int} (made : (.struct fields, id) ∈ x.made)
      (words : TypeId → Nat) (each : ∀ f ∈ fields, Takes x f.type (words f.type)) :
      Takes x id (fields.map fun f => words f.type).sum

end TypeState

/-! ## Fields that are laid out -/

section LaidOut

variable {words : TypeId → Nat} {fields : List Field} {d cell : Nat} {item : Field × Nat}

theorem map_laidOut (words : TypeId → Nat) (d : Nat) (fields : List Field) :
    (laidOut words d fields).map (·.1) = fields := by
  induction fields generalizing d with
  | nil => rfl
  | cons f fields ih => rw [laidOut, List.map_cons, ih]

theorem laidOut_bounds (mem : item ∈ laidOut words d fields) :
    d ≤ item.2 ∧ item.2 + words item.1.type ≤ d + (fields.map fun f => words f.type).sum := by
  induction fields generalizing d with
  | nil => cases mem
  | cons f fields ih =>
    rw [List.map_cons, List.sum_cons]
    rcases List.mem_cons.mp mem with rfl | mem
    · exact ⟨Nat.le_refl _, by dsimp only; omega⟩
    · obtain ⟨low, high⟩ := ih mem
      omega

theorem laidOut_pairwise (words : TypeId → Nat) (d : Nat) (fields : List Field) :
    (laidOut words d fields).Pairwise fun a b => a.2 + words a.1.type ≤ b.2 := by
  induction fields generalizing d with
  | nil => exact .nil
  | cons f fields ih => exact .cons (fun item mem => (laidOut_bounds mem).1) (ih _)

/-- Of two different fields one ends before the other starts. -/
theorem laidOut_apart {other : Field × Nat} (mem : item ∈ laidOut words d fields)
    (mem' : other ∈ laidOut words d fields) (differ : item ≠ other) :
    item.2 + words item.1.type ≤ other.2 ∨ other.2 + words other.1.type ≤ item.2 := by
  have symmetric : Std.Symm fun a b : Field × Nat => a.2 + words a.1.type ≤ b.2 ∨
    b.2 + words b.1.type ≤ a.2 :=
    ⟨fun _ _ => Or.symm⟩
  have either : (laidOut words d fields).Pairwise fun a b : Field × Nat =>
      a.2 + words a.1.type ≤ b.2 ∨ b.2 + words b.1.type ≤ a.2 :=
        (laidOut_pairwise words d fields).imp Or.inl
  exact either.forall mem mem' differ

/-- Every cell of the structure is a cell of a field. -/
theorem laidOut_cover (low : d ≤ cell) (high : cell < d + (fields.map fun f => words f.type).sum) :
    ∃ item ∈ laidOut words d fields, item.2 ≤ cell ∧ cell < item.2 + words item.1.type := by
  induction fields generalizing d with
  | nil =>
    simp only [List.map_nil, List.sum_nil] at high
    omega
  | cons f fields ih =>
    rw [List.map_cons, List.sum_cons] at high
    by_cases inside : cell < d + words f.type
    · exact ⟨(f, d), List.mem_cons_self, low, inside⟩
    · obtain ⟨item, mem, found⟩ := ih (d := d + words f.type) (by omega) (by omega)
      exact ⟨item, List.mem_cons_of_mem _ mem, found⟩

end LaidOut

/-! ## Sizes and members -/

namespace TypeTable

variable {t : TypeTable} {words : TypeId → Nat} {fields : List Field} {d : Nat} {name : Int}

/-- The sizes of fields are added up without wrapping if their sum is a word. -/
theorem totalSize_of_sizes (sized : ∀ f ∈ fields, t.sizeOf f.type = .ok (words f.type))
    (small : (fields.map fun f => words f.type).sum < 2 ^ 63) :
    t.totalSize fields = .ok ((fields.map fun f => words f.type).sum : Nat) := by
  induction fields with
  | nil => rfl
  | cons f fields ih =>
    rw [List.map_cons, List.sum_cons] at small ⊢
    rw [totalSize, sized f List.mem_cons_self,
      ih (fun g mem => sized g (List.mem_cons_of_mem f mem)) (by omega)]
    show Except.ok (wrap64 _) = _
    rw [wrap64_of_range (by omega) (by omega)]
    push_cast
    rfl

/-- A member that is found is a field with the name, and has its displacement. -/
theorem memberFrom_found (sized : ∀ f ∈ fields, t.sizeOf f.type = .ok (words f.type))
    (small : d + (fields.map fun f => words f.type).sum < 2 ^ 63) {e place : Int}
    (found : t.memberFrom name d fields = .ok (some (e, place))) :
    ∃ item ∈ laidOut words d fields, item.1.name = name ∧ item.1.type = e ∧
    (item.2 : Int) = place := by
  induction fields generalizing d with
  | nil => cases found
  | cons f fields ih =>
    rw [List.map_cons, List.sum_cons] at small
    rw [memberFrom] at found
    split at found
    next same =>
      cases found
      exact ⟨(f, d), List.mem_cons_self, by simpa using same, rfl, rfl⟩
    next other =>
      rw [sized f List.mem_cons_self] at found
      change t.memberFrom name (wrap64 ((d : Int) + (words f.type : Int))) fields = _ at found
      rw [wrap64_of_range (by omega) (by omega), ← Nat.cast_add] at found
      obtain ⟨item, mem, here⟩ :=
        ih (fun g mem => sized g (List.mem_cons_of_mem f mem)) (by omega) found
      exact ⟨item, List.mem_cons_of_mem _ mem, here⟩

/-- Fields with different names are all found. -/
theorem memberFrom_laidOut (sized : ∀ f ∈ fields, t.sizeOf f.type = .ok (words f.type))
    (small : d + (fields.map fun f => words f.type).sum < 2 ^ 63)
    (distinct : (fields.map (·.name)).Nodup) {item : Field × Nat}
    (mem : item ∈ laidOut words d fields) :
    t.memberFrom item.1.name d fields = .ok (some (item.1.type, (item.2 : Int))) := by
  induction fields generalizing d with
  | nil => cases mem
  | cons f fields ih =>
    rw [List.map_cons, List.sum_cons] at small
    rw [List.map_cons, List.nodup_cons] at distinct
    rw [memberFrom]
    rcases List.mem_cons.mp mem with rfl | mem
    · rw [if_pos (by simp)]
      rfl
    · have inside : item.1 ∈ fields := by
        rw [← map_laidOut words (d + words f.type) fields]
        exact List.mem_map_of_mem mem
      have other : (f.name == item.1.name) = false := by
        rw [beq_eq_false_iff_ne]
        intro same
        exact distinct.1 (same ▸ List.mem_map_of_mem inside)
      rw [if_neg (by simp [other]), sized f List.mem_cons_self]
      show t.memberFrom item.1.name (wrap64 ((d : Int) + (words f.type : Int))) fields = _
      rw [wrap64_of_range (by omega) (by omega), ← Nat.cast_add]
      exact ih (fun g mem => sized g (List.mem_cons_of_mem f mem)) (by omega) distinct.2 mem

end TypeTable

/-! ## Types of a session -/

namespace TypeState

variable {s x : TypeState} {fields : List Field} {id e k : Int} {n : Nat} {name : Int}

theorem isArithmetic_iff : TypeId.isArithmetic id = true ↔ id = TypeId.int ∨ id = TypeId.char ∨
    id = TypeId.float := by
  simp [TypeId.isArithmetic, TypeId.isInteger, TypeId.isFloating, or_assoc]

theorem Takes.sizeOf (takes : x.Takes id n) (consed : x.Consed) (small : n < 2 ^ 63) :
    x.session.types.sizeOf id = .ok (n : Int) := by
  induction takes with
  | nothing empty => rcases empty with rfl | rfl <;> rfl
  | @scalar id arithmetic =>
    rcases isArithmetic_iff.1 arithmetic with rfl | rfl | rfl <;> rfl
  | @reference call id made single =>
    obtain ⟨size, holds⟩ := consed.made call id made
    rw [holds.sizeOf]
    cases call with
    | struct fields => exact absurd rfl (single fields)
    | pointer _ | array _ | function _ _ => rfl
  | @struct fields id made words each ih =>
    obtain ⟨size, holds⟩ := consed.made _ id made
    have sized : ∀ f ∈ fields, x.session.types.sizeOf f.type = .ok (words f.type : Int) := by
      intro f mem
      have part : words f.type ≤ (fields.map fun f => words f.type).sum :=
        List.le_sum_of_mem (List.mem_map_of_mem mem)
      exact ih f mem (by omega)
    have total := totalSize_of_sizes sized small
    rw [holds.totalSize] at total
    rw [holds.sizeOf, ← total]
    rfl

/-- The words of every type can be counted. -/
theorem Consed.takes (consed : x.Consed) (knows : x.Knows id) : ∃ n, x.Takes id n := by
  induction size : id.toNat using Nat.strongRecOn generalizing id with
  | ind k ih =>
    subst size
    rcases knows with ⟨low, high⟩ | ⟨call, made⟩
    · by_cases arithmetic : TypeId.isArithmetic id = true
      · exact ⟨1, .scalar arithmetic⟩
      · rw [isArithmetic_iff, TypeId.int, TypeId.char, TypeId.float] at arithmetic
        have low : (-4 : Int) ≤ id := low
        have high : id ≤ (0 : Int) := high
        have empty : id = -4 ∨ id = 0 := by omega
        exact ⟨0, .nothing empty⟩
    · obtain ⟨size, holds⟩ := consed.made call id made
      have pos := holds.pos
      cases call with
      | struct fields =>
        have each (e : TypeId) : ∃ n, e ∈ (TypeCall.struct fields).components → x.Takes e n := by
          by_cases part : e ∈ (TypeCall.struct fields).components
          · obtain ⟨-, before⟩ := holds.component (e := e) part
            obtain ⟨n, takes⟩ := ih _ (by omega) (consed.known _ id made e part) rfl
            exact ⟨n, fun _ => takes⟩
          · exact ⟨0, fun mem => absurd mem part⟩
        choose words counted using each
        exact ⟨_, .struct made words fun f mem => counted f.type (List.mem_map_of_mem mem)⟩
      | pointer _ | array _ | function _ _ => exact ⟨1, .reference made nofun⟩

/-- A structure whose fields fit in a word together: their sizes, and how members are looked for. -/
structure Fits (x : TypeState) (id : Int) (fields : List Field) (words : TypeId → Nat) : Prop where
  takes : ∀ f ∈ fields, x.Takes f.type (words f.type)
  sized : ∀ f ∈ fields, x.session.types.sizeOf f.type = .ok (words f.type : Int)
  member : ∀ name, x.session.types.member id name = x.session.types.memberFrom name (0 : Nat) fields
  small : 0 + (fields.map fun f => words f.type).sum < 2 ^ 63

theorem Consed.member (consed : x.Consed) (made : (.struct fields, id) ∈ x.made) (name : Int) :
    x.session.types.member id name = x.session.types.memberFrom name (0 : Nat) fields := by
  obtain ⟨size, holds⟩ := consed.made _ id made
  rw [TypeTable.member, holds.fields (consed.short id _ holds)]
  rfl

/-- A type whose words fit in one is no structure, or a structure whose fields fit. -/
theorem Takes.fits (takes : x.Takes id n) (consed : x.Consed) (small : n < 2 ^ 63) :
    x.session.types.isStructure id = false ∨ ∃ fields words, (.struct fields, id) ∈ x.made ∧
    x.Fits id fields words ∧ n = (fields.map fun f => words f.type).sum := by
  have scalar (low : id ≤ 0) : x.session.types.isStructure id = false := by
    rw [isStructure, form_of_scalar low]
    rfl
  cases takes with
  | nothing empty => exact .inl (scalar (by rcases empty with rfl | rfl <;> decide))
  | scalar arithmetic =>
    exact .inl (scalar (by rcases isArithmetic_iff.1 arithmetic with rfl | rfl | rfl <;> decide))
  | @reference call _ made single =>
    obtain ⟨size, holds⟩ := consed.made call id made
    rw [holds.isStructure]
    cases call with
    | struct fields => exact absurd rfl (single fields)
    | pointer _ | array _ | function _ _ => exact .inl rfl
  | @struct fields _ made words each =>
    refine .inr ⟨fields, words, made, ⟨each, fun f mem => ?_, consed.member made, by omega⟩, rfl⟩
    have part : words f.type ≤ (fields.map fun f => words f.type).sum :=
      List.le_sum_of_mem (List.mem_map_of_mem mem)
    exact (each f mem).sizeOf consed (by omega)

theorem Takes.of_struct (takes : x.Takes id n) (consed : x.Consed)
    (small : n < 2 ^ 63) (made : (.struct fields, id) ∈ x.made) :
    ∃ words, x.Fits id fields words ∧ n = (fields.map fun f => words f.type).sum := by
  obtain ⟨size, holds⟩ := consed.made _ id made
  rcases takes.fits consed small with other | ⟨others, words, made', fits, sum⟩
  · rw [holds.isStructure] at other
    cases other
  · obtain ⟨size', holds'⟩ := consed.made _ id made'
    cases TypeCall.record_inj (holds'.unique holds)
    exact ⟨words, fits, sum⟩

/-- Only structures have members. -/
theorem Takes.of_member (takes : x.Takes id n) (consed : x.Consed) (small : n < 2 ^ 63)
    (found : x.session.types.member id name = .ok (some (e, k))) :
    ∃ fields words, x.Fits id fields words ∧ n = (fields.map fun f => words f.type).sum := by
  rcases takes.fits consed small with other | ⟨fields, words, -, fits⟩
  · rw [TypeTable.member, TypeTable.fields, other] at found
    cases found
  · exact ⟨fields, words, fits⟩

section Fits

variable {words : TypeId → Nat}

theorem Fits.mem {item : Field × Nat} (mem : item ∈ laidOut words 0 fields) : item.1 ∈ fields := by
  rw [← map_laidOut words 0 fields]
  exact List.mem_map_of_mem mem

theorem Fits.found (fits : x.Fits id fields words)
    (found : x.session.types.member id name = .ok (some (e, k))) :
    ∃ item ∈ laidOut words 0 fields, item.1.name = name ∧ item.1.type = e ∧ (item.2 : Int) = k := by
  rw [fits.member] at found
  exact memberFrom_found fits.sized fits.small found

end Fits

/-! ## Chains of members -/

section Chains

variable {names common others : List Int} {a b f l m : Int}

/-- A chain of members stays inside. -/
theorem inside_of_selects (selects : x.session.types.Selects id names e k)
    (consed : x.Consed) (takes : x.Takes id n) (small : n < 2 ^ 63) :
    ∃ m : Nat, x.session.types.sizeOf e = .ok (m : Int) ∧ 0 ≤ k ∧ k + m ≤ n := by
  induction selects generalizing n with
  | nil => exact ⟨n, takes.sizeOf consed small, Int.le_refl 0, by omega⟩
  | cons found more ih =>
    obtain ⟨fields, words, fits, rfl⟩ := takes.of_member consed small found
    obtain ⟨item, mem, -, rfl, rfl⟩ := fits.found found
    obtain ⟨-, high⟩ := laidOut_bounds mem
    obtain ⟨m, size, low, stop⟩ := ih (fits.takes item.1 (Fits.mem mem)) (by omega)
    exact ⟨m, size, by omega, by omega⟩

/-- Two chains that part have no cell in common. -/
theorem apart_of_selects (consed : x.Consed) (takes : x.Takes id n) (small : n < 2 ^ 63)
    (differ : a ≠ b) (first : x.session.types.Selects id (common ++ a :: names) e k)
    (second : x.session.types.Selects id (common ++ b :: others) f l)
    {m o : Int} (size : x.session.types.sizeOf e = .ok m)
    (size' : x.session.types.sizeOf f = .ok o) : k + m ≤ l ∨ l + o ≤ k := by
  induction common generalizing id n k l with
  | nil =>
    cases first with
    | cons found more =>
      cases second with
      | cons found' more' =>
        obtain ⟨fields, words, fits, rfl⟩ := takes.of_member consed small found
        obtain ⟨item, mem, rfl, rfl, rfl⟩ := fits.found found
        obtain ⟨item', mem', rfl, rfl, rfl⟩ := fits.found found'
        obtain ⟨-, high⟩ := laidOut_bounds mem
        obtain ⟨-, high'⟩ := laidOut_bounds mem'
        obtain ⟨w, sized, low, stop⟩ :=
          inside_of_selects more consed (fits.takes item.1 (Fits.mem mem)) (by omega)
        obtain ⟨w', sized', low', stop'⟩ :=
          inside_of_selects more' consed (fits.takes item'.1 (Fits.mem mem')) (by omega)
        cases sized.symm.trans size
        cases sized'.symm.trans size'
        -- the two fields are different ones, so one of them ends before the other starts
        have apart : item.2 + words item.1.type ≤ item'.2 ∨ item'.2 + words item'.1.type ≤ item.2 :=
          laidOut_apart mem mem' fun same => differ (same ▸ rfl)
        omega
  | cons c common ih =>
    cases first with
    | cons found more =>
      cases second with
      | cons found' more' =>
        obtain ⟨fields, words, fits, rfl⟩ := takes.of_member consed small found
        obtain ⟨item, mem, -, rfl, rfl⟩ := fits.found found
        obtain ⟨-, high⟩ := laidOut_bounds mem
        cases found.symm.trans found'
        have apart := ih (fits.takes item.1 (Fits.mem mem)) (by omega) more more'
        omega

end Chains

/-- **The layout of a structure is a tiling.** Let a structure be made of fields with different
names, in any session and at any time, and let its words be so few that their number is a word. Then
its size is the sum of the sizes of its fields; every field is found by its name; fields lie one
behind the other in their order, and every cell of the structure is a cell of one of them. Chains of
members stay inside the structure, and chains that part have no cell in common. -/
theorem layout_tiles (empty : s.session.types = .empty) (none : s.made = []) (run : s.Reaches x)
    (made : (.struct fields, id) ∈ x.made) (distinct : (fields.map (·.name)).Nodup)
    (takes : x.Takes id n) (small : n < 2 ^ 63) : x.session.types.sizeOf id = .ok (n : Int) ∧
    ∃ words : TypeId → Nat, n = (fields.map fun f => words f.type).sum ∧
    (∀ f ∈ fields, x.session.types.sizeOf f.type = .ok (words f.type : Int)) ∧
    (∀ item ∈ laidOut words 0 fields,
      x.session.types.member id item.1.name = .ok (some (item.1.type, (item.2 : Int)))) ∧
    (laidOut words 0 fields).Pairwise (fun a b => a.2 + words a.1.type ≤ b.2) ∧ (∀ cell, cell < n ↔
      ∃ item ∈ laidOut words 0 fields, item.2 ≤ cell ∧ cell < item.2 + words item.1.type) ∧
    (∀ names e k, x.session.types.Selects id names e k →
      ∃ m : Nat, x.session.types.sizeOf e = .ok (m : Int) ∧ 0 ≤ k ∧ k + m ≤ n) ∧
    ∀ common a b names others e f k l m o, a ≠ b →
    x.session.types.Selects id (common ++ a :: names) e k →
    x.session.types.Selects id (common ++ b :: others) f l → x.session.types.sizeOf e = .ok m →
    x.session.types.sizeOf f = .ok o → k + m ≤ l ∨ l + o ≤ k := by
  have consed := (run.later (consed_empty empty none)).consed
  refine ⟨takes.sizeOf consed small, ?_⟩
  obtain ⟨words, fits, rfl⟩ := takes.of_struct consed small made
  refine ⟨words, rfl, fits.sized, fun item mem => ?_, laidOut_pairwise words 0 fields, fun cell =>
    ⟨fun inside => ?_, ?_⟩, fun names e k selects => inside_of_selects selects consed takes small,
    fun common a b names others e f k l m o differ first second size size' =>
      apart_of_selects consed takes small differ first second size size'⟩
  · rw [fits.member]
    exact memberFrom_laidOut fits.sized fits.small distinct mem
  · exact laidOut_cover (Nat.zero_le cell) (by omega)
  · rintro ⟨item, mem, low, high⟩
    have bounds := (laidOut_bounds mem).2
    omega

/-- A structure in a structure: its words, and the displacement of the field behind it. -/
theorem layout_tiles_nested :
    let s := Session.new 0 (.new none false)
    let t := { s with types := (s.types.add [1004, 2, 2, -1, 1, -1, 2]).1 }
    let u := { t with types := (t.types.add [1004, 3, 2, 1, 1, -1, 2]).1 }
    let x : TypeState := ⟨u, [(.struct [⟨1, 1⟩, ⟨-1, 2⟩], 8), (.struct [⟨-1, 1⟩, ⟨-1, 2⟩], 1)]⟩
    Reaches ⟨s, []⟩ x ∧ x.Takes 8 3 ∧ x.session.types.sizeOf 8 = .ok 3 ∧
      x.session.types.member 8 2 = .ok (some (-1, 2)) := by
  intro s t u x
  have int {y : TypeState} : y.Knows (-1) := .inl (by decide)
  have first : Reaches ⟨s, []⟩ ⟨t, [(.struct [⟨-1, 1⟩, ⟨-1, 2⟩], 1)]⟩ :=
    .single
      (.call ⟨List.forall_mem_cons.mpr ⟨int, List.forall_mem_singleton.mpr int⟩, by decide⟩ rfl)
  have second : Reaches ⟨t, [(.struct [⟨-1, 1⟩, ⟨-1, 2⟩], 1)]⟩ x :=
    .single (.call ⟨List.forall_mem_cons.mpr ⟨.inr ⟨_, List.mem_cons_self⟩,
      List.forall_mem_singleton.mpr int⟩, by decide⟩ rfl)
  have run : Reaches ⟨s, []⟩ x := first.trans second
  have one : x.Takes (-1) 1 := .scalar (by decide)
  have pair : (.struct [⟨-1, 1⟩, ⟨-1, 2⟩], 1) ∈ x.made := List.mem_cons_of_mem _ List.mem_cons_self
  have inner : x.Takes 1 2 := .struct pair (fun _ => 1) (by simp [one])
  have whole : (.struct [⟨1, 1⟩, ⟨-1, 2⟩], 8) ∈ x.made := List.mem_cons_self
  have outer : x.Takes 8 3 := .struct whole (fun e => if e = 1 then 2 else 1) (by simp [one, inner])
  obtain ⟨size, words, -, sized, found, -⟩ :=
    layout_tiles (s := ⟨s, []⟩) rfl rfl run List.mem_cons_self (by decide) outer (by decide)
  have consed : x.Consed := (run.later (consed_empty rfl rfl)).consed
  have two : (words 1 : Int) = 2 :=
    Except.ok.inj ((sized ⟨1, 1⟩ List.mem_cons_self).symm.trans (inner.sizeOf consed (by decide)))
  have behind := found (⟨-1, 2⟩, words 1) (by simp [laidOut])
  rw [two] at behind
  exact ⟨run, outer, size, behind⟩

/-! ## Structures of too many words -/

/-- A structure of two fields of one type. -/
theorem Consed.double {w : Int} (consed : x.Consed)
    (knows : x.Knows id) (size : x.session.types.sizeOf id = .ok w) :
    ∃ y new, x.Reaches y ∧ (.struct [⟨id, 1⟩, ⟨id, 2⟩], new) ∈ y.made ∧
    y.session.types.sizeOf new = .ok (wrap64 (w + wrap64 (w + 0))) := by
  have allows : x.Allows (.struct [⟨id, 1⟩, ⟨id, 2⟩]) :=
    ⟨List.forall_mem_cons.mpr ⟨knows, List.forall_mem_singleton.mpr knows⟩,
      by simp [TypeCall.count, TypeCall.record, TypeRecord.count, largestBlock]⟩
  obtain ⟨total, new, run, gains⟩ := consed.run allows
  refine ⟨_, new.2, .single (.call allows run), List.mem_cons_self, gains.holds.sizeOf.trans ?_⟩
  have sum := gains.holds.totalSize
  have sized : new.1.sizeOf id = .ok w :=
    ((consed.named knows).sizeOf_continue gains.continues).trans size
  simp only [totalSize, sized, bind, Except.bind, pure, Except.pure] at sum
  exact sum.symm

/-- Structures of two structures of two structures, and so on. -/
theorem reaches_doubled (start : s.Consed) (k : Nat) (small : k ≤ 62) :
    ∃ x id, s.Reaches x ∧ x.Consed ∧ x.Knows id ∧ x.session.types.sizeOf id = .ok (2 ^ k) := by
  induction k with
  | zero => exact ⟨s, TypeId.int, .refl, start, .inl (by decide), rfl⟩
  | succ k ih =>
    obtain ⟨x, id, run, consed, knows, size⟩ := ih (by omega)
    obtain ⟨y, new, next, made, twice⟩ := consed.double knows size
    refine ⟨y, new, run.trans next, (next.later consed).consed, .inr ⟨_, made⟩, twice.trans ?_⟩
    have bound : (2 : Int) ^ k ≤ 2 ^ 61 := pow_le_pow_right₀ (by decide) (by omega)
    have pos : (0 : Int) < 2 ^ k := pow_pos (by decide) k
    rw [wrap64_of_range (x := 2 ^ k + 0) (by omega) (by omega),
      wrap64_of_range (by omega) (by omega), pow_succ]
    congr 1
    omega

/-- A structure with more words than a word counts: its size is negative. -/
theorem sizeOf_wrapped : ∃ (s x : TypeState) (fields : List Field) (id : Int), s.session.types =
    .empty ∧ s.made = [] ∧ s.Reaches x ∧ (.struct fields, id) ∈ x.made ∧
    (fields.map (·.name)).Nodup ∧ x.session.types.sizeOf id = .ok (-2 ^ 63) := by
  have start := consed_empty (x := ⟨Session.new 0 (.new none false), []⟩) rfl rfl
  obtain ⟨x, id, run, consed, knows, size⟩ := reaches_doubled start 62 (by decide)
  obtain ⟨y, new, next, made, twice⟩ := consed.double knows size
  exact ⟨_, y, _, new, rfl, rfl, run.trans next, made, by simp, twice⟩

end TypeState

end BilingualC
