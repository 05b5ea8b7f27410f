import Mathlib
import BilingualC.Proofs.Guarded
import BilingualC.Proofs.TypeTable

/-!
# Components of types

Taking a valid type apart gives valid types again: the element of an array or the target of a
pointer, the result and the parameters of a function, the fields of a structure. A type that is
added to a table has the form it is made with.
-/

namespace BilingualC.TypeTable

variable {t : TypeTable} {id : Int}

/-! ## Forms -/

/-- A valid type of a form has a record of the form. -/
theorem Valid.of_form {form : Form} (valid : t.Valid id) (has : t.form? id = some form) :
    match form with
    | .pointer => ∃ e, 0 < id ∧ t.RecordAt id [Form.pointer.word, e] ∧ t.Valid e
    | .array => ∃ e, 0 < id ∧ t.RecordAt id [Form.array.word, e] ∧ t.Valid e
    | .function =>
      ∃ (result : Int) (parameters : List TypeId), 0 < id ∧
        t.RecordAt id (Form.function.word :: result :: parameters.length :: parameters) ∧
        t.Valid result ∧ ∀ p ∈ parameters, t.Valid p
    | .record =>
      ∃ (size : Int) (fields : List Field), 0 < id ∧
        t.RecordAt id (Form.record.word :: size :: fields.length :: fieldWords fields) ∧
        ∀ f ∈ fields, t.Valid f.type := by
  cases valid with
  | scalar low => simp [form_of_scalar low] at has
  | pointer pos record _ element =>
    obtain rfl := Option.some.inj ((form_of_record pos record).symm.trans has)
    exact ⟨_, pos, record, element⟩
  | array pos record _ element =>
    obtain rfl := Option.some.inj ((form_of_record pos record).symm.trans has)
    exact ⟨_, pos, record, element⟩
  | function pos record result parameters =>
    obtain rfl := Option.some.inj ((form_of_record pos record).symm.trans has)
    exact ⟨_, _, pos, record, result, parameters⟩
  | struct pos record fields =>
    obtain rfl := Option.some.inj ((form_of_record pos record).symm.trans has)
    exact ⟨_, _, pos, record, fields⟩

theorem form_pointer (sound : t.Sound) (e : Int) :
    (t.pointer e).1.form? (t.pointer e).2 = some .pointer :=
  form_of_record (recordAt_add sound _).1 (recordAt_add sound _).2

theorem form_array (sound : t.Sound) (e : Int) : (t.array e).1.form? (t.array e).2 = some .array :=
  form_of_record (recordAt_add sound _).1 (recordAt_add sound _).2

theorem form_function (sound : t.Sound) (result : TypeId) (parameters : List TypeId) :
    (t.function result parameters).1.form? (t.function result parameters).2 = some .function :=
  form_of_record (recordAt_add sound _).1 (recordAt_add sound _).2

theorem form_struct (sound : t.Sound) {fields : List Field} {new : TypeTable × TypeId}
    (done : t.struct fields = .ok new) : new.1.form? new.2 = some .record := by
  obtain ⟨size, _, made⟩ := Guarded.bind_eq_ok.mp done
  cases made
  exact form_of_record (recordAt_add sound _).1 (recordAt_add sound _).2

/-! ## Components -/

/-- Cells that were read are cells of the record. -/
theorem mem_cellsFrom {d : Int} {n : Nat} {i : Int} {cells : List Int}
    (done : t.cellsFrom id d n i = .ok cells) {x : Int}
    (mem : x ∈ cells) : ∃ k < n, t.cell id (i + d * k) = .ok x := by
  induction n generalizing i cells with
  | zero =>
    cases done
    cases mem
  | succ n ih =>
    obtain ⟨first, read, done⟩ := Guarded.bind_eq_ok.mp done
    obtain ⟨rest, later, made⟩ := Guarded.bind_eq_ok.mp done
    cases made
    rcases List.mem_cons.mp mem with rfl | mem
    · exact ⟨0, by omega, by simpa using read⟩
    · obtain ⟨k, low, found⟩ := ih later mem
      refine ⟨k + 1, by omega, ?_⟩
      rw [← found]
      congr 1
      push_cast
      ring

theorem componentCount_of_record {first second : Int} {count : Nat} {rest : List Int} (pos : 0 < id)
    (record : t.RecordAt id (first :: second :: count :: rest)) {n : Nat}
    (done : t.componentCount id = .ok n) : n = count := by
  have cell := cell_of_record pos record (k := 2) (by simp)
  obtain ⟨c, read, done⟩ := Guarded.bind_eq_ok.mp done
  obtain rfl : (count : Int) = c := Except.ok.inj (cell.symm.trans read)
  split at done
  · cases done
  · cases done
    simp

theorem Valid.element (valid : t.Valid id) {e : Int} (done : t.element id = .ok e) : t.Valid e := by
  unfold TypeTable.element at done
  split at done
  next derived =>
    have second {w : Int} {e' : Int} (pos : 0 < id) (record : t.RecordAt id [w, e']) : e' = e :=
      Except.ok.inj ((cell_of_record pos record (k := 1) (by simp)).symm.trans done)
    rcases Bool.or_eq_true_iff.mp derived with isPointer | isArray
    · obtain ⟨e', pos, record, element⟩ :=
        valid.of_form (by simpa [TypeTable.isPointer] using isPointer)
      exact second pos record ▸ element
    · obtain ⟨e', pos, record, element⟩ :=
        valid.of_form (by simpa [TypeTable.isArray] using isArray)
      exact second pos record ▸ element
  next =>
    cases done
    exact .scalar (le_refl 0)

theorem Valid.result (valid : t.Valid id) {e : Int} (done : t.result id = .ok e) : t.Valid e := by
  unfold TypeTable.result at done
  split at done
  next isFunction =>
    obtain ⟨result, _, pos, record, good, _⟩ :=
      valid.of_form (by simpa [TypeTable.isFunction] using isFunction)
    obtain rfl : result = e :=
      Except.ok.inj ((cell_of_record pos record (k := 1) (by simp)).symm.trans done)
    exact good
  next =>
    cases done
    exact .scalar (le_refl 0)

theorem Valid.parameters (valid : t.Valid id) {types : List TypeId}
    (done : t.parameters id = .ok types) : ∀ type ∈ types, t.Valid type := by
  unfold TypeTable.parameters at done
  by_cases isFunction : t.isFunction id = true
  · obtain ⟨_, parameters, pos, record, _, good⟩ :=
      valid.of_form (by simpa [TypeTable.isFunction] using isFunction)
    simp only [isFunction, Bool.not_true, Bool.false_eq_true, if_false] at done
    obtain ⟨n, counted, read⟩ := Guarded.bind_eq_ok.mp done
    obtain rfl := componentCount_of_record pos record counted
    intro type mem
    obtain ⟨k, low, found⟩ := mem_cellsFrom read mem
    have cell := cell_of_record pos record (k := 3 + k) (by simp; omega)
    rw [show ((3 + k : Nat) : Int) = 3 + 1 * (k : Int) by push_cast; ring, found] at cell
    obtain rfl := Except.ok.inj cell
    refine good _ ?_
    simp [List.getElem_cons]
  · simp only [isFunction] at done
    cases done
    simp

/-- The words of fields alternate between types and names. -/
theorem getElem_fieldWords {fields : List Field} {k : Nat} (low : k < fields.length) :
    (fieldWords fields)[2 * k]? = some fields[k].type := by
  induction fields generalizing k with
  | nil => cases low
  | cons f fields ih =>
    cases k with
    | zero => rfl
    | succ k => exact ih (by simpa using low)

theorem Valid.fields (valid : t.Valid id) {fields : List Field} (done : t.fields id = .ok fields) :
    ∀ f ∈ fields, t.Valid f.type := by
  unfold TypeTable.fields at done
  by_cases isStructure : t.isStructure id = true
  · obtain ⟨_, written, pos, record, good⟩ :=
      valid.of_form (by simpa [TypeTable.isStructure] using isStructure)
    simp only [isStructure, Bool.not_true, Bool.false_eq_true, if_false] at done
    obtain ⟨n, counted, done⟩ := Guarded.bind_eq_ok.mp done
    obtain rfl := componentCount_of_record pos record counted
    obtain ⟨types, read, done⟩ := Guarded.bind_eq_ok.mp done
    obtain ⟨names, _, made⟩ := Guarded.bind_eq_ok.mp done
    cases made
    intro f mem
    rw [← List.map_uncurry_zip_eq_zipWith, List.mem_map] at mem
    obtain ⟨⟨type, name⟩, pair, rfl⟩ := mem
    obtain ⟨k, low, found⟩ := mem_cellsFrom read (List.of_mem_zip pair).1
    have word := getElem_fieldWords low
    obtain ⟨inside, word⟩ := List.getElem?_eq_some_iff.mp word
    have cell := cell_of_record pos record (k := 3 + 2 * k) (by simp; omega)
    rw [show ((3 + 2 * k : Nat) : Int) = 3 + 2 * (k : Int) by push_cast; ring, found] at cell
    have same : type = written[k].type := by
      rw [Except.ok.inj cell, ← word]
      simp [List.getElem_cons]
    show t.Valid type
    exact same ▸ good written[k] (List.getElem_mem low)
  · simp only [isStructure] at done
    cases done
    simp

/-- A member that was found has the type of a field. -/
theorem mem_memberFrom {name d : Int} {fields : List Field} {type : TypeId} {place : Int}
    (done : t.memberFrom name d fields = .ok (some (type, place))) :
    ∃ f ∈ fields, f.type = type := by
  induction fields generalizing d with
  | nil => cases done
  | cons f fields ih =>
    rw [memberFrom] at done
    split at done
    · cases done
      exact ⟨f, List.mem_cons_self, rfl⟩
    · obtain ⟨n, _, done⟩ := Guarded.bind_eq_ok.mp done
      obtain ⟨g, mem, same⟩ := ih done
      exact ⟨g, List.mem_cons_of_mem f mem, same⟩

theorem Valid.member (valid : t.Valid id) {name : Int} {type : TypeId} {place : Int}
    (done : t.member id name = .ok (some (type, place))) : t.Valid type := by
  obtain ⟨fields, read, found⟩ := Guarded.bind_eq_ok.mp done
  obtain ⟨f, mem, rfl⟩ := mem_memberFrom found
  exact valid.fields read f mem

end BilingualC.TypeTable
