import Mathlib
import BilingualC.Proofs.Guarded
import BilingualC.Proofs.TypeTable.Components

/-!
# Records of types

A type table is a sequence of records and nothing else: behind its first cell the words of the
records follow each other without a gap, and every record has only components that were there before
it (`Tiling`). Records can be read off their words in one way only (`words_append`), so a table has
one such sequence. A name of a type is a scalar or the place of a record (`Named`).

Every operation that takes a named type apart comes to an end, and gives names again.
-/

namespace BilingualC

/-- A record of a derived type. -/
inductive TypeRecord where
  | pointer (element : TypeId)
  | array (element : TypeId)
  | function (result : TypeId) (parameters : List TypeId)
  | struct (size : Int) (fields : List Field)

namespace TypeRecord

def form : TypeRecord → Form
  | .pointer _ => .pointer
  | .array _ => .array
  | .function _ _ => .function
  | .struct _ _ => .record

/-- The words of a record in the table. -/
def words : TypeRecord → List Int
  | .pointer e => [Form.pointer.word, e]
  | .array e => [Form.array.word, e]
  | .function result parameters => Form.function.word :: result :: parameters.length :: parameters
  | .struct size fields => Form.record.word :: size :: fields.length :: TypeTable.fieldWords fields

/-- The types that a record is made of. -/
def components : TypeRecord → List TypeId
  | .pointer e | .array e => [e]
  | .function result parameters => result :: parameters
  | .struct _ fields => fields.map (·.type)

/-- The number of parameters or fields. -/
def count : TypeRecord → Nat
  | .pointer _ | .array _ => 0
  | .function _ parameters => parameters.length
  | .struct _ fields => fields.length

theorem words_ne_nil (r : TypeRecord) : r.words ≠ [] := by cases r <;> simp [words]

theorem words_form (r : TypeRecord) : ∃ rest, r.words = r.form.word :: rest := by
  cases r <;> exact ⟨_, rfl⟩

theorem fieldWords_append {fs gs : List Field} {x y : List Int} (count : fs.length = gs.length)
    (same : TypeTable.fieldWords fs ++ x = TypeTable.fieldWords gs ++ y) : fs = gs ∧ x = y := by
  induction fs generalizing gs with
  | nil =>
    obtain rfl := List.length_eq_zero_iff.mp count.symm
    exact ⟨rfl, same⟩
  | cons f fs ih =>
    obtain ⟨g, gs, rfl⟩ := List.exists_cons_of_length_eq_add_one count.symm
    simp only [TypeTable.fieldWords, List.flatMap_cons, List.cons_append, List.nil_append,
      List.cons.injEq] at same
    obtain ⟨type, name, rest⟩ := same
    obtain ⟨rfl, rfl⟩ := ih (by simpa using count) rest
    exact ⟨by rw [show f = g by cases f; cases g; simp_all], rfl⟩

/-- A record can be read off its words, whatever follows it. -/
theorem words_append {r s : TypeRecord} {x y : List Int} (same : r.words ++ x = s.words ++ y) :
    r = s ∧ x = y := by
  have forms : r.form.word = s.form.word := by
    obtain ⟨_, hr⟩ := r.words_form
    obtain ⟨_, hs⟩ := s.words_form
    rw [hr, hs] at same
    exact (List.cons.inj same).1
  cases r <;> cases s <;> simp only [form, Form.word] at forms <;> try omega
  case pointer.pointer | array.array => simpa [words] using same
  case function.function =>
    simp only [words, List.cons_append, List.cons.injEq, true_and] at same
    obtain ⟨rfl, count, rest⟩ := same
    obtain ⟨rfl, rfl⟩ := List.append_inj rest (by exact_mod_cast count)
    exact ⟨rfl, rfl⟩
  case struct.struct =>
    simp only [words, List.cons_append, List.cons.injEq, true_and] at same
    obtain ⟨rfl, count, rest⟩ := same
    obtain ⟨rfl, rfl⟩ := fieldWords_append (by exact_mod_cast count) rest
    exact ⟨rfl, rfl⟩

/-- Records whose words start in the same way are the same records. -/
theorem flatMap_words_initial {rs ss : List TypeRecord}
    (h : rs.flatMap words <+: ss.flatMap words) : rs <+: ss := by
  induction rs generalizing ss with
  | nil => exact ⟨ss, rfl⟩
  | cons r rs ih =>
    obtain ⟨rest, same⟩ := h
    cases ss with
    | nil => simp [words_ne_nil] at same
    | cons s ss =>
      simp only [List.flatMap_cons, List.append_assoc] at same
      obtain ⟨rfl, later⟩ := words_append same
      exact (List.prefix_cons_inj _).mpr (ih ⟨rest, later⟩)

theorem flatMap_words_injective {rs ss : List TypeRecord}
    (same : rs.flatMap words = ss.flatMap words) : rs = ss := by
  have first : rs <+: ss := flatMap_words_initial ⟨[], by simp [same]⟩
  have second : ss <+: rs := flatMap_words_initial ⟨[], by simp [same]⟩
  exact first.eq_of_length (le_antisymm first.length_le second.length_le)

end TypeRecord

namespace TypeTable

open TypeRecord

/-- The name of the record that comes after some others. -/
def startAfter (before : List TypeRecord) : Int := 1 + (before.flatMap words).length

/-- The names that some records give: those of the scalar types and those of the records. -/
def IsName (records : List TypeRecord) (id : Int) : Prop :=
  (TypeId.void ≤ id ∧ id ≤ TypeId.undefined) ∨ ∃ before r after, records = before ++ r :: after ∧
    id = startAfter before

/-- A table that is made of records, all of which are known. -/
structure Tiling (t : TypeTable) (records : List TypeRecord) : Prop where
  cells : t.cells.toList = 0 :: records.flatMap words
  known : ∀ list id, t.known[list]? = some id ↔
    ∃ before r after, records = before ++ r :: after ∧ list = r.words ∧ id = startAfter before
  components : ∀ before r after, records = before ++ r :: after →
    ∀ e ∈ r.components, IsName before e
  sizes : ∀ size fields, .struct size fields ∈ records → t.totalSize fields = .ok size

/-- A table that is made of records. -/
def Tiled (t : TypeTable) : Prop := ∃ records, t.Tiling records

/-- Says whether a number names a type of a table. -/
def Named (t : TypeTable) (id : Int) : Prop := ∃ records, t.Tiling records ∧ IsName records id

/-- Says which record stands at a place. -/
def Holds (t : TypeTable) (id : Int) (r : TypeRecord) : Prop :=
  ∃ before after, t.Tiling (before ++ r :: after) ∧ id = startAfter before

variable {t u : TypeTable} {id e : Int} {records more before after : List TypeRecord}
    {r s : TypeRecord}

theorem startAfter_append (before : List TypeRecord) (r : TypeRecord) (after : List TypeRecord) :
    startAfter (before ++ r :: after) = startAfter before + r.words.length +
    (after.flatMap words).length := by
  simp only [startAfter, List.flatMap_append, List.flatMap_cons, List.length_append]
  push_cast
  omega

theorem startAfter_pos (before : List TypeRecord) : 0 < startAfter before := by
  unfold startAfter
  omega

theorem IsName.append (name : IsName records id) (more : List TypeRecord) :
    IsName (records ++ more) id := by
  rcases name with scalar | ⟨before, r, after, rfl, rfl⟩
  · exact .inl scalar
  · exact .inr ⟨before, r, after ++ more, by simp, rfl⟩

theorem IsName.lt (name : IsName records id) : id < startAfter records := by
  rcases name with ⟨_, low⟩ | ⟨before, r, after, rfl, rfl⟩
  · exact lt_of_le_of_lt low (startAfter_pos records)
  · have := List.length_pos_iff.mpr r.words_ne_nil
    rw [startAfter_append]
    omega

/-! ## One sequence of records -/

theorem Tiling.size (tiling : t.Tiling records) : (t.cells.size : Int) = startAfter records := by
  rw [← Array.length_toList, tiling.cells, startAfter, List.length_cons]
  push_cast
  omega

/-- A table that continues another one starts with its cells. -/
theorem Continues.initial (continues : t.Continues u) : t.cells.toList <+: u.cells.toList := by
  rw [List.prefix_iff_eq_take]
  refine List.ext_getElem? fun k => ?_
  rw [Array.length_toList, List.getElem?_take]
  split
  next inside => rw [Array.getElem?_toList, Array.getElem?_toList, continues.2 k inside]
  next out => exact List.getElem?_eq_none (by simpa using out)

/-- A table has the records of the tables that it continues. -/
theorem Tiling.initial {others : List TypeRecord} (tiling : t.Tiling records)
    (continues : t.Continues u) (later : u.Tiling others) : records <+: others := by
  have same := continues.initial
  rw [tiling.cells, later.cells] at same
  exact flatMap_words_initial ((List.prefix_cons_inj 0).mp same)

theorem Tiling.unique {others : List TypeRecord} (first : t.Tiling records)
    (second : t.Tiling others) : records = others :=
  (first.initial (.refl t) second).eq_of_length (le_antisymm
    (first.initial (.refl t) second).length_le (second.initial (.refl t) first).length_le)

theorem Named.continue (named : t.Named id) (continues : t.Continues u) (tiled : u.Tiled) :
    u.Named id := by
  obtain ⟨records, tiling, name⟩ := named
  obtain ⟨others, later⟩ := tiled
  obtain ⟨more, rfl⟩ := tiling.initial continues later
  exact ⟨_, later, name.append more⟩

theorem Holds.continue (holds : t.Holds id r) (continues : t.Continues u) (tiled : u.Tiled) :
    u.Holds id r := by
  obtain ⟨before, after, tiling, same⟩ := holds
  obtain ⟨others, later⟩ := tiled
  obtain ⟨more, rfl⟩ := tiling.initial continues later
  exact ⟨before, after ++ more, by simpa using later, same⟩

/-! ## Names and records -/

theorem named_scalar (tiled : t.Tiled) (low : TypeId.void ≤ id) (high : id ≤ TypeId.undefined) :
    t.Named id := by
  obtain ⟨records, tiling⟩ := tiled
  exact ⟨records, tiling, .inl ⟨low, high⟩⟩

theorem Named.tiled (named : t.Named id) : t.Tiled := named.imp fun _ => And.left

theorem Holds.tiled (holds : t.Holds id r) : t.Tiled := by
  obtain ⟨before, after, tiling, _⟩ := holds
  exact ⟨_, tiling⟩

theorem Holds.named (holds : t.Holds id r) : t.Named id := by
  obtain ⟨before, after, tiling, rfl⟩ := holds
  exact ⟨_, tiling, .inr ⟨before, r, after, rfl, rfl⟩⟩

theorem Named.cases (named : t.Named id) : (TypeId.void ≤ id ∧ id ≤ TypeId.undefined) ∨
    ∃ r, t.Holds id r := by
  obtain ⟨records, tiling, scalar | ⟨before, r, after, rfl, rfl⟩⟩ := named
  · exact .inl scalar
  · exact .inr ⟨r, before, after, tiling, rfl⟩

theorem Named.lt_size (named : t.Named id) : id < t.cells.size := by
  obtain ⟨records, tiling, name⟩ := named
  rw [tiling.size]
  exact name.lt

theorem Holds.pos (holds : t.Holds id r) : 0 < id := by
  obtain ⟨before, after, _, rfl⟩ := holds
  exact startAfter_pos before

/-- The components of a record are named, and stand before it. -/
theorem Holds.component (holds : t.Holds id r) (mem : e ∈ r.components) : t.Named e ∧ e < id := by
  obtain ⟨before, after, tiling, rfl⟩ := holds
  have name := tiling.components before r after rfl e mem
  exact ⟨⟨_, tiling, name.append _⟩, name.lt⟩

theorem Holds.recordAt (holds : t.Holds id r) : t.RecordAt id r.words := by
  obtain ⟨before, after, tiling, rfl⟩ := holds
  intro k inside
  have place : (startAfter before).toNat = 1 + (before.flatMap words).length := by
    unfold startAfter
    omega
  rw [place, ← Array.getElem?_toList, tiling.cells, show 1 + (before.flatMap words).length + k =
    (before.flatMap words).length + k + 1 by omega, List.getElem?_cons_succ, List.flatMap_append,
    List.flatMap_cons, List.getElem?_append_right (by omega), Nat.add_sub_cancel_left,
    List.getElem?_append_left inside, List.getElem?_eq_getElem inside]

theorem Holds.form (holds : t.Holds id r) : t.form? id = some r.form := by
  obtain ⟨rest, same⟩ := r.words_form
  exact form_of_record holds.pos (same ▸ holds.recordAt)

theorem Holds.cell (holds : t.Holds id r) {k : Nat} (inside : k < r.words.length) :
    t.cell id k = .ok r.words[k] :=
  cell_of_record holds.pos holds.recordAt inside

/-- A record is determined by its place. -/
theorem Holds.unique (first : t.Holds id r) (second : t.Holds id s) : r = s := by
  obtain ⟨before, after, tiling, rfl⟩ := first
  obtain ⟨before', after', tiling', same⟩ := second
  have records := tiling.unique tiling'
  have length : (before.flatMap words).length = (before'.flatMap words).length := by
    unfold startAfter at same
    omega
  have cells := congrArg (List.flatMap words) records
  simp only [List.flatMap_append, List.flatMap_cons] at cells
  exact (words_append (List.append_inj cells length).2).1

/-- A name of a tiled table is a valid type. -/
theorem Named.valid (named : t.Named id) : t.Valid id := by
  induction h : id.toNat using Nat.strongRecOn generalizing id with
  | ind n ih =>
    subst h
    rcases named.cases with ⟨_, low⟩ | ⟨r, holds⟩
    · exact .scalar low
    · have pos := holds.pos
      have below {e : Int} (mem : e ∈ r.components) : t.Valid e := by
        obtain ⟨named, before⟩ := holds.component mem
        by_cases low : e ≤ 0
        · exact .scalar low
        · exact ih e.toNat (by omega) named rfl
      have record := holds.recordAt
      cases r with
      | pointer e =>
        exact .pointer pos record (holds.component (by simp [components])).2
          (below (by simp [components]))
      | array e =>
        exact .array pos record (holds.component (by simp [components])).2
          (below (by simp [components]))
      | function result parameters =>
        exact .function pos record (below (by simp [components])) fun p mem =>
          below (by simp [components, mem])
      | struct size fields => exact .struct pos record fun f mem => below (List.mem_map_of_mem mem)

theorem Tiled.sound (tiled : t.Tiled) : t.Sound := by
  obtain ⟨records, tiling⟩ := tiled
  have size := tiling.size
  have pos := startAfter_pos records
  refine ⟨by omega, fun list id found => ?_⟩
  obtain ⟨before, r, after, rfl, rfl, rfl⟩ := (tiling.known list id).mp found
  have holds : t.Holds (startAfter before) r := ⟨before, after, tiling, rfl⟩
  exact ⟨holds.pos, holds.recordAt, holds.named.valid⟩

theorem totalSize_continue {fields : List Field}
    (valid : ∀ f ∈ fields, t.Valid f.type) (pos : 0 < t.cells.size)
    (continues : t.Continues u) : u.totalSize fields = t.totalSize fields := by
  induction fields with
  | nil => rfl
  | cons f fields ih =>
    rw [totalSize, totalSize, (valid f List.mem_cons_self).sizeOf_continue pos continues,
      ih fun g mem => valid g (List.mem_cons_of_mem f mem)]

/-- The size of a structure is that of its fields together. -/
theorem Holds.totalSize {size : Int} {fields : List Field}
    (holds : t.Holds id (.struct size fields)) : t.totalSize fields = .ok size := by
  obtain ⟨before, after, tiling, rfl⟩ := holds
  exact tiling.sizes size fields (by simp)

/-- Equal records stand at one place. -/
theorem Holds.eq_of_words {k : Int} (first : t.Holds id r) (second : t.Holds k r) : id = k := by
  obtain ⟨before, after, tiling, rfl⟩ := first
  obtain ⟨before', after', tiling', rfl⟩ := second
  have known := (tiling.known r.words _).mpr ⟨before, r, after, rfl, rfl, rfl⟩
  rw [(tiling'.known r.words _).mpr ⟨before', r, after', rfl, rfl, rfl⟩] at known
  exact (Option.some.inj known).symm

/-! ## New records -/

theorem split_concat {q : TypeRecord} (same : records ++ [r] = before ++ q :: after) :
    (before = records ∧ q = r) ∨ ∃ rest, after = rest ++ [r] ∧ records = before ++ q :: rest := by
  rcases List.eq_nil_or_concat after with rfl | ⟨rest, x, rfl⟩
  · obtain ⟨rfl, last⟩ := List.append_inj' same rfl
    exact .inl ⟨rfl, (List.cons.inj last).1.symm⟩
  · rw [List.concat_eq_append, ← List.cons_append, ← List.append_assoc] at same
    obtain ⟨rfl, last⟩ := List.append_inj' same rfl
    exact .inr ⟨rest, by rw [List.concat_eq_append, (List.cons.inj last).1], rfl⟩

/-- A record of known components is there already, or it is appended. -/
theorem Tiling.add (tiling : t.Tiling records) (good : ∀ e ∈ r.components, IsName records e)
    (sized : ∀ size fields, r = .struct size fields → t.totalSize fields = .ok size) :
    ∃ before after, (t.add r.words).1.Tiling (before ++ r :: after) ∧
    (t.add r.words).2 = startAfter before := by
  have start : (t.cells.size : Int) = startAfter records := tiling.size
  cases miss : t.known[r.words]? with
  | some id =>
    obtain ⟨before, q, after, rfl, same, rfl⟩ := (tiling.known _ _).mp miss
    obtain ⟨rfl, -⟩ := words_append (x := []) (y := []) (by simpa using same)
    exact ⟨before, after, by simpa [TypeTable.add, miss] using tiling,
      by simp [TypeTable.add, miss]⟩
  | none =>
    refine ⟨records, [], ⟨?_, fun list id => ?_, fun before q after same e mem => ?_,
      fun size fields mem_record => ?_⟩,
      by simp [TypeTable.add, miss, start]⟩
    · simp [TypeTable.add, miss, tiling.cells]
    · have known : (t.add r.words).1.known = t.known.insert r.words (startAfter records) := by
        simp [TypeTable.add, miss, start]
      rw [known]
      -- the words of the new record are known from now on, and all others as before
      by_cases new : r.words = list
      · subst new
        rw [Std.TreeMap.getElem?_insert_self, Option.some.injEq]
        constructor
        · rintro rfl
          exact ⟨records, r, [], rfl, rfl, rfl⟩
        · rintro ⟨before, q, after, same, words, rfl⟩
          rcases split_concat same with ⟨rfl, -⟩ | ⟨rest, -, old⟩
          · rfl
          · rw [(tiling.known _ _).mpr ⟨before, q, rest, old, words, rfl⟩] at miss
            cases miss
      · simp only [Std.TreeMap.getElem?_insert, Std.LawfulEqCmp.compare_eq_iff_eq, new, if_false,
          tiling.known]
        constructor
        · rintro ⟨before, q, after, rfl, words, rfl⟩
          exact ⟨before, q, after ++ [r], by simp, words, rfl⟩
        · rintro ⟨before, q, after, same, words, rfl⟩
          rcases split_concat same with ⟨-, rfl⟩ | ⟨rest, -, old⟩
          · exact absurd words.symm new
          · exact ⟨before, q, rest, old, words, rfl⟩
    · rcases split_concat same with ⟨rfl, rfl⟩ | ⟨rest, -, old⟩
      · exact good e mem
      · exact tiling.components before q rest old e mem
    · have named (f : Field) (mem : f ∈ fields) : t.Named f.type := by
        rcases List.mem_append.mp mem_record with old | new
        · obtain ⟨before, after, rfl⟩ := List.append_of_mem old
          exact ⟨_, tiling,
            (tiling.components before _ after rfl f.type (List.mem_map_of_mem mem)).append _⟩
        · exact ⟨_, tiling, good f.type (List.mem_singleton.mp new ▸ List.mem_map_of_mem mem)⟩
      rw [totalSize_continue (fun f mem => (named f mem).valid) (Tiled.sound ⟨_, tiling⟩).size
        (continues_add t r.words)]
      rcases List.mem_append.mp mem_record with old | new
      · exact tiling.sizes size fields old
      · exact sized size fields (List.mem_singleton.mp new).symm

/-- What adding a record of named components gives: the table goes on and has the record at the
place that is given, and no other new one. -/
structure Gains (t : TypeTable) (r : TypeRecord) (new : TypeTable × TypeId) : Prop where
  continues : t.Continues new.1
  holds : new.1.Holds new.2 r
  only : ∀ id q, new.1.Holds id q → t.Holds id q ∨ q = r

theorem gains_add (tiled : t.Tiled) (named : ∀ e ∈ r.components, t.Named e)
    (sized : ∀ size fields, r = .struct size fields → t.totalSize fields = .ok size) :
    t.Gains r (t.add r.words) := by
  obtain ⟨records, tiling⟩ := tiled
  have good : ∀ e ∈ r.components, IsName records e := fun e mem => by
    obtain ⟨others, other, name⟩ := named e mem
    exact other.unique tiling ▸ name
  obtain ⟨before, after, grown, place⟩ := tiling.add good sized
  refine ⟨continues_add t r.words, ⟨before, after, grown, place⟩, fun id q holds => ?_⟩
  cases miss : t.known[r.words]? with
  | some found => exact .inl (by simpa [TypeTable.add, miss] using holds)
  | none =>
    have appended : before ++ r :: after = records ++ [r] := by
      refine flatMap_words_injective ?_
      have cells := grown.cells
      simp only [TypeTable.add, miss, Array.toList_appendList, tiling.cells, List.cons_append,
        List.cons.injEq, true_and] at cells
      rw [← cells]
      simp
    rw [appended] at grown
    obtain ⟨first, rest, other, rfl⟩ := holds
    rcases split_concat (grown.unique other) with ⟨-, rfl⟩ | ⟨more, rfl, rfl⟩
    · exact .inr rfl
    · exact .inl ⟨first, more, tiling, rfl⟩

/-! ### The four forms -/

theorem gains_pointer (named : t.Named e) : t.Gains (.pointer e) (t.pointer e) :=
  gains_add (r := .pointer e) named.tiled (fun _ mem => List.mem_singleton.mp mem ▸ named) nofun

theorem gains_array (named : t.Named e) : t.Gains (.array e) (t.array e) :=
  gains_add (r := .array e) named.tiled (fun _ mem => List.mem_singleton.mp mem ▸ named) nofun

theorem gains_function {result : TypeId} {parameters : List TypeId} (named : t.Named result)
    (all : ∀ p ∈ parameters, t.Named p) :
    t.Gains (.function result parameters) (t.function result parameters) :=
  gains_add (r := .function result parameters) named.tiled
    (List.forall_mem_cons.mpr ⟨named, all⟩) nofun

theorem gains_struct {fields : List Field} (tiled : t.Tiled) (all : ∀ f ∈ fields, t.Named f.type) :
    ∃ size new, t.struct fields = .ok new ∧ t.Gains (.struct size fields) new := by
  obtain ⟨size, total⟩ := totalSize_ok fun f mem => (all f mem).valid
  refine ⟨size, t.add (TypeRecord.struct size fields).words, by rw [TypeTable.struct, total]; rfl,
    gains_add tiled ?_ ?_⟩
  · intro e mem
    obtain ⟨f, inside, rfl⟩ := List.mem_map.mp mem
    exact all f inside
  · rintro _ _ ⟨⟩
    exact total

theorem tiled_empty : empty.Tiled := by
  refine ⟨[], rfl, fun list id => iff_of_false (by simp [empty]) ?_,
    fun before r after same => ?_, by simp⟩
  · rintro ⟨before, r, after, same, -⟩
    simp at same
  · simp at same

end TypeTable

end BilingualC
