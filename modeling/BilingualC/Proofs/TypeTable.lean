import Mathlib
import BilingualC.TypeTable
import BilingualC.Proofs.Guarded

/-!
# Sound type tables

A name is valid in a type table if it names a scalar or a record whose components are valid and
stand before it. Adding records keeps names valid, and the operations that take a valid type apart
find every cell they ask for and give valid types again.
-/

namespace BilingualC.TypeTable

/-- The cells from a place on are the given ones. -/
def RecordAt (t : TypeTable) (id : Int) (record : List Int) : Prop :=
  ∀ k (h : k < record.length), t.cells[id.toNat + k]? = some record[k]

/-- The words of the fields of a structure. -/
def fieldWords (fields : List Field) : List Int := fields.flatMap fun f => [f.type, f.name]

/-- A name of a type: a scalar, or a record of components that have earlier names. -/
inductive Valid (t : TypeTable) : Int → Prop
  | scalar {id : Int} (low : id ≤ 0) : Valid t id
  | pointer {id e : Int} (pos : 0 < id) (record : t.RecordAt id [Form.pointer.word, e])
      (before : e < id) (element : Valid t e) : Valid t id
  | array {id e : Int} (pos : 0 < id) (record : t.RecordAt id [Form.array.word, e])
      (before : e < id) (element : Valid t e) : Valid t id
  | function {id result : Int} {parameters : List TypeId} (pos : 0 < id)
      (record : t.RecordAt id (Form.function.word :: result :: parameters.length :: parameters))
      (result : Valid t result) (parameters : ∀ p ∈ parameters, Valid t p) : Valid t id
  | struct {id : Int} {size : Int} {fields : List Field} (pos : 0 < id)
      (record : t.RecordAt id (Form.record.word :: size :: fields.length :: fieldWords fields))
      (fields : ∀ f ∈ fields, Valid t f.type) : Valid t id

/-- A table whose known records stand where their names say and are valid. -/
structure Sound (t : TypeTable) : Prop where
  size : 0 < t.cells.size
  known : ∀ record id, t.known[record]? = some id → 0 < id ∧ t.RecordAt id record ∧ t.Valid id

/-- One table continues another: it has the same cells and perhaps more. -/
def Continues (t u : TypeTable) : Prop :=
  t.cells.size ≤ u.cells.size ∧ ∀ k < t.cells.size, u.cells[k]? = t.cells[k]?

theorem Continues.refl (t : TypeTable) : t.Continues t := ⟨Nat.le_refl _, fun _ _ => rfl⟩

theorem Continues.trans {t u v : TypeTable} (h : t.Continues u) (k : u.Continues v) :
    t.Continues v :=
  ⟨Nat.le_trans h.1 k.1, fun i hi => (k.2 i (Nat.lt_of_lt_of_le hi h.1)).trans (h.2 i hi)⟩

theorem RecordAt.lt_size {t : TypeTable} {id : Int} {record : List Int} (h : t.RecordAt id record)
    {k : Nat} (inside : k < record.length) : id.toNat + k < t.cells.size := by
  obtain ⟨found, _⟩ := Array.getElem?_eq_some_iff.mp (h k inside)
  exact found

theorem RecordAt.continue {t u : TypeTable} {id : Int} {record : List Int}
    (h : t.RecordAt id record) (c : t.Continues u) : u.RecordAt id record := by
  intro k inside
  rw [c.2 _ (h.lt_size inside)]
  exact h k inside

theorem Valid.continue {t u : TypeTable} {id : Int} (h : t.Valid id) (c : t.Continues u) :
    u.Valid id := by
  induction h with
  | scalar low => exact .scalar low
  | pointer pos record before _ ih => exact .pointer pos (record.continue c) before ih
  | array pos record before _ ih => exact .array pos (record.continue c) before ih
  | function pos record _ _ ih ihs => exact .function pos (record.continue c) ih ihs
  | struct pos record _ ih => exact .struct pos (record.continue c) ih

theorem Valid.lt_size {t : TypeTable} {id : Int} (h : t.Valid id) (pos : 0 < t.cells.size) :
    id < t.cells.size := by
  cases h with
  | scalar low => omega
  | pointer _ record | array _ record | function _ record | struct _ record =>
    have := record.lt_size (k := 0) (by simp)
    omega

/-! ## Adding records -/

theorem continues_add (t : TypeTable) (record : List Int) : t.Continues (t.add record).1 := by
  unfold add
  split
  · exact Continues.refl t
  · exact ⟨by simp [size_append_cells], fun k hk => getElem?_append_old _ _ hk⟩

theorem recordAt_add {t : TypeTable} (sound : t.Sound) (record : List Int) :
    0 < (t.add record).2 ∧ (t.add record).1.RecordAt (t.add record).2 record := by
  unfold add
  split
  next id found =>
    obtain ⟨pos, there, _⟩ := sound.known record id found
    exact ⟨pos, there⟩
  next =>
    have pos := sound.size
    refine ⟨Int.natCast_pos.mpr pos, fun k inside => ?_⟩
    rw [Int.toNat_natCast, getElem?_append_new]
    exact List.getElem?_eq_getElem inside

/-- A record that is valid wherever it stands can be added. -/
theorem sound_add {t : TypeTable} (sound : t.Sound) {record : List Int}
    (valid : (t.add record).1.Valid (t.add record).2) : (t.add record).1.Sound := by
  have grown := continues_add t record
  have there := recordAt_add sound record
  refine ⟨Nat.lt_of_lt_of_le sound.size grown.1, fun other id found => ?_⟩
  by_cases old : t.known[other]? = some id
  · obtain ⟨pos, stands, ok⟩ := sound.known other id old
    exact ⟨pos, stands.continue grown, ok.continue grown⟩
  · have new : other = record ∧ (t.add record).2 = id := by
      unfold add at found ⊢
      split at found
      · exact absurd found old
      · next miss =>
        by_cases same : record = other
        · subst same
          simp at found ⊢
          exact found
        · rw [Std.TreeMap.getElem?_insert] at found
          simp [same] at found
          exact absurd found old
    obtain ⟨rfl, rfl⟩ := new
    exact ⟨there.1, there.2, valid⟩

theorem sound_empty : empty.Sound := ⟨by simp [empty], by simp [empty]⟩

/-- What adding a type to a table gives: the table goes on, stays sound and knows the type. -/
structure Added (t : TypeTable) (new : TypeTable × TypeId) : Prop where
  continues : t.Continues new.1
  sound : new.1.Sound
  valid : new.1.Valid new.2

theorem added_pointer {t : TypeTable} (sound : t.Sound) {e : Int} (valid : t.Valid e) :
    t.Added (t.pointer e) := by
  have grown := continues_add t [Form.pointer.word, e]
  obtain ⟨pos, there⟩ := recordAt_add sound [Form.pointer.word, e]
  have ok : (t.add [Form.pointer.word, e]).1.Valid (t.add [Form.pointer.word, e]).2 := by
    by_cases old : t.known[[Form.pointer.word, e]]? = none
    · refine .pointer pos there ?_ (valid.continue grown)
      have := valid.lt_size sound.size
      simpa [add, old] using this
    · obtain ⟨id, found⟩ := Option.ne_none_iff_exists'.mp old
      have known := (sound.known _ _ found).2.2
      simpa [add, found] using known
  exact ⟨grown, sound_add sound ok, ok⟩

theorem added_array {t : TypeTable} (sound : t.Sound) {e : Int} (valid : t.Valid e) :
    t.Added (t.array e) := by
  have grown := continues_add t [Form.array.word, e]
  obtain ⟨pos, there⟩ := recordAt_add sound [Form.array.word, e]
  have ok : (t.add [Form.array.word, e]).1.Valid (t.add [Form.array.word, e]).2 := by
    by_cases old : t.known[[Form.array.word, e]]? = none
    · refine .array pos there ?_ (valid.continue grown)
      have := valid.lt_size sound.size
      simpa [add, old] using this
    · obtain ⟨id, found⟩ := Option.ne_none_iff_exists'.mp old
      have known := (sound.known _ _ found).2.2
      simpa [add, found] using known
  exact ⟨grown, sound_add sound ok, ok⟩

theorem added_function {t : TypeTable} (sound : t.Sound) {result : TypeId}
    {parameters : List TypeId} (valid : t.Valid result) (all : ∀ p ∈ parameters, t.Valid p) :
    t.Added (t.function result parameters) := by
  have grown := continues_add t (Form.function.word :: result :: parameters.length :: parameters)
  obtain ⟨pos, there⟩ :=
    recordAt_add sound (Form.function.word :: result :: parameters.length :: parameters)
  have ok := Valid.function pos there (valid.continue grown) fun p hp => (all p hp).continue grown
  exact ⟨grown, sound_add sound ok, ok⟩

/-! ## Taking types apart -/

theorem cell_of_record {t : TypeTable} {id : Int} {record : List Int} (pos : 0 < id)
    (h : t.RecordAt id record) {k : Nat} (inside : k < record.length) :
    t.cell id k = .ok record[k] := by
  have at_k := h k inside
  have same : (id + (k : Int)).toNat = id.toNat + k := by omega
  have nonneg : ¬ id + (k : Int) < 0 := by omega
  simp only [cell, cellAt, nonneg, same, at_k, if_false]
  rfl

theorem form_of_record {t : TypeTable} {id : Int} {f : Form} {rest : List Int} (pos : 0 < id)
    (h : t.RecordAt id (f.word :: rest)) : t.form? id = some f := by
  have first := h 0 (by simp)
  have inside := h.lt_size (k := 0) (by simp)
  have low : id < t.cells.size := by omega
  simp only [Nat.add_zero] at first inside
  simp only [form?, pos, low, decide_true, Bool.and_self, if_true]
  rw [Array.getD_eq_getD_getElem?, first]
  cases f <;> rfl

theorem form_of_scalar {t : TypeTable} {id : Int} (low : id ≤ 0) : t.form? id = none := by
  simp [form?, Int.not_lt.mpr low]

/-- Every valid type has a size. -/
theorem Valid.sizeOf {t : TypeTable} {id : Int} (h : t.Valid id) : ∃ n, t.sizeOf id = .ok n := by
  unfold TypeTable.sizeOf
  split
  · exact ⟨0, rfl⟩
  split
  next isStruct =>
    cases h with
    | scalar low => simp [isStructure, form_of_scalar low] at isStruct
    | pointer pos record => simp [isStructure, form_of_record pos record] at isStruct
    | array pos record => simp [isStructure, form_of_record pos record] at isStruct
    | function pos record => simp [isStructure, form_of_record pos record] at isStruct
    | struct pos record => exact ⟨_, cell_of_record pos record (k := 1) (by simp)⟩
  next => exact ⟨1, rfl⟩

theorem form_continue {t u : TypeTable} (c : t.Continues u) {id : Int}
    (inside : id < t.cells.size) : u.form? id = t.form? id := by
  by_cases pos : 0 < id
  · have more := c.1
    have high : id < u.cells.size := by omega
    have same := c.2 id.toNat (by omega)
    simp only [form?, pos, inside, high, decide_true, Bool.and_self, if_true]
    rw [Array.getD_eq_getD_getElem?, Array.getD_eq_getD_getElem?, same]
  · rw [form_of_scalar (by omega), form_of_scalar (by omega)]

/-- A valid type keeps its size when the table goes on. -/
theorem Valid.sizeOf_continue {t u : TypeTable} {id : Int} (h : t.Valid id) (pos : 0 < t.cells.size)
    (c : t.Continues u) : u.sizeOf id = t.sizeOf id := by
  have form := form_continue c (h.lt_size pos)
  have same : u.isStructure id = t.isStructure id := by rw [isStructure, isStructure, form]
  unfold TypeTable.sizeOf
  rw [same]
  split
  · rfl
  split
  next isStruct =>
    cases h with
    | scalar low => simp [isStructure, form_of_scalar low] at isStruct
    | pointer pos record => simp [isStructure, form_of_record pos record] at isStruct
    | array pos record => simp [isStructure, form_of_record pos record] at isStruct
    | function pos record => simp [isStructure, form_of_record pos record] at isStruct
    | struct pos record =>
      rw [show (1 : Int) = ((1 : Nat) : Int) from rfl, cell_of_record pos record (k := 1) (by simp),
        cell_of_record pos (record.continue c) (k := 1) (by simp)]
  next => rfl

/-! ## Structures -/

theorem totalSize_ok {t : TypeTable} {fields : List Field} (valid : ∀ f ∈ fields, t.Valid f.type) :
    ∃ n, t.totalSize fields = .ok n := by
  induction fields with
  | nil => exact ⟨0, rfl⟩
  | cons f fields ih =>
    obtain ⟨first, sized⟩ := (valid f List.mem_cons_self).sizeOf
    obtain ⟨rest, total⟩ := ih fun g mem => valid g (List.mem_cons_of_mem f mem)
    refine ⟨wrap64 (first + rest), ?_⟩
    rw [totalSize, sized, total]
    rfl

/-- A structure takes as many words as its fields together. -/
theorem added_struct {t : TypeTable} (sound : t.Sound) {fields : List Field}
    (valid : ∀ f ∈ fields, t.Valid f.type) : ∃ new n, t.struct fields = .ok new ∧ t.Added new ∧
    t.totalSize fields = .ok n ∧ new.1.sizeOf new.2 = .ok n := by
  obtain ⟨n, total⟩ := totalSize_ok valid
  have grown := continues_add t (Form.record.word :: n :: fields.length :: fieldWords fields)
  obtain ⟨pos, there⟩ :=
    recordAt_add sound (Form.record.word :: n :: fields.length :: fieldWords fields)
  have ok := Valid.struct pos there fun f mem => (valid f mem).continue grown
  refine ⟨t.add (Form.record.word :: n :: fields.length :: fieldWords fields), n, ?_,
    ⟨grown, sound_add sound ok, ok⟩, total, ?_⟩
  · rw [struct, total]
    rfl
  · generalize t.add _ = new at pos there
    have derived : (new.2 == TypeId.void || new.2 == TypeId.undefined) = false := by
      have : new.2 ≠ TypeId.void ∧ new.2 ≠ TypeId.undefined := by
        constructor <;> intro same <;> rw [same] at pos <;> exact absurd pos (by decide)
      simpa using this
    simp only [TypeTable.sizeOf, derived, isStructure, form_of_record pos there, beq_self_eq_true,
      Bool.false_eq_true, if_false, if_true]
    exact cell_of_record pos there (k := 1) (by simp)

/-- One type is made from types that a table has. -/
inductive Makes (t : TypeTable) : TypeTable × TypeId → Prop
  | pointer {element : TypeId} (valid : t.Valid element) : Makes t (t.pointer element)
  | array {element : TypeId} (valid : t.Valid element) : Makes t (t.array element)
  | function {result : TypeId} {parameters : List TypeId} (valid : t.Valid result)
      (all : ∀ p ∈ parameters, t.Valid p) : Makes t (t.function result parameters)
  | struct {fields : List Field} {new : TypeTable × TypeId} (valid : ∀ f ∈ fields, t.Valid f.type)
      (done : t.struct fields = .ok new) : Makes t new

theorem Makes.added {t : TypeTable} {new : TypeTable × TypeId} (makes : t.Makes new)
    (sound : t.Sound) : t.Added new := by
  cases makes with
  | pointer valid => exact added_pointer sound valid
  | array valid => exact added_array sound valid
  | function valid all => exact added_function sound valid all
  | struct valid done =>
    obtain ⟨same, _, made, added, _⟩ := added_struct sound valid
    cases made.symm.trans done
    exact added

/-- The elements of an array have a valid type with an earlier name. -/
theorem Valid.element_of_array {t : TypeTable} {id : Int} (h : t.Valid id)
    (isArray : t.isArray id = true) : ∃ e : Int, t.element id = .ok e ∧ t.Valid e ∧ e < id ∧
    0 < id := by
  cases h with
  | scalar low => simp [TypeTable.isArray, form_of_scalar low] at isArray
  | pointer pos record => simp [TypeTable.isArray, form_of_record pos record] at isArray
  | @array _ e pos record before element =>
    refine ⟨_, ?_, element, before, pos⟩
    simp only [TypeTable.element, isArray, Bool.or_true, if_true]
    exact cell_of_record pos record (k := 1) (by simp)
  | function pos record => simp [TypeTable.isArray, form_of_record pos record] at isArray
  | struct pos record => simp [TypeTable.isArray, form_of_record pos record] at isArray

end BilingualC.TypeTable
