import Mathlib
import BilingualC.Proofs.TypeTable.Queries

/-!
# Defined types

A type is defined if no part of it was left undefined: it is a scalar type, or a record of defined
types. Records that are made of defined types are defined, and taking a defined type apart gives
defined types.
-/

namespace BilingualC.TypeTable

open TypeRecord

variable {t u : TypeTable} {id e : Int} {r : TypeRecord}

/-- A type no part of which is undefined. -/
inductive Defined (t : TypeTable) : Int → Prop
  | scalar {id : Int} (low : id < 0) : Defined t id
  | record {id : Int} {r : TypeRecord} (pos : 0 < id) (there : t.RecordAt id r.words)
      (parts : ∀ e ∈ r.components, Defined t e) : Defined t id

theorem Defined.ne_undefined (defined : t.Defined id) : id ≠ TypeId.undefined := by
  cases defined with
  | scalar low => exact ne_of_lt low
  | record pos => exact ne_of_gt pos

theorem Defined.continue (defined : t.Defined id) (continues : t.Continues u) : u.Defined id := by
  induction defined with
  | scalar low => exact .scalar low
  | record pos there _ ih => exact .record pos (there.continue continues) ih

theorem defined_arithmetic (arithmetic : TypeId.isArithmetic id = true) : t.Defined id := by
  refine .scalar ?_
  simp only [TypeId.isArithmetic, TypeId.isInteger, TypeId.isFloating, Bool.or_eq_true, beq_iff_eq]
    at arithmetic
  rcases arithmetic with (rfl | rfl) | rfl <;> decide

/-! ## Types that are made -/

theorem defined_add (sound : t.Sound) (parts : ∀ e ∈ r.components, t.Defined e) :
    (t.add r.words).1.Defined (t.add r.words).2 := by
  obtain ⟨pos, there⟩ := recordAt_add sound r.words
  exact .record pos there fun e mem => (parts e mem).continue (continues_add t _)

theorem defined_pointer (sound : t.Sound) (defined : t.Defined e) :
    (t.pointer e).1.Defined (t.pointer e).2 :=
  defined_add (r := .pointer e) sound (by simpa [components] using defined)

theorem defined_array (sound : t.Sound) (defined : t.Defined e) :
    (t.array e).1.Defined (t.array e).2 :=
  defined_add (r := .array e) sound (by simpa [components] using defined)

theorem defined_function (sound : t.Sound) {result : TypeId} {parameters : List TypeId}
    (defined : t.Defined result) (all : ∀ p ∈ parameters, t.Defined p) :
    (t.function result parameters).1.Defined (t.function result parameters).2 :=
  defined_add (r := .function result parameters) sound (List.forall_mem_cons.mpr ⟨defined, all⟩)

theorem defined_struct (sound : t.Sound) {fields : List Field}
    {new : TypeTable × TypeId} (done : t.struct fields = .ok new)
    (all : ∀ f ∈ fields, t.Defined f.type) : new.1.Defined new.2 := by
  obtain ⟨size, -, made⟩ := Guarded.bind_eq_ok.mp done
  cases made
  exact defined_add (r := .struct size fields) sound (List.forall_mem_map.mpr all)

/-! ## Types that are taken apart -/

/-- The parts of a defined type are defined. -/
theorem Defined.component (defined : t.Defined id) (holds : t.Holds id r) (mem : e ∈ r.components) :
    t.Defined e := by
  cases defined with
  | scalar low =>
    have := holds.pos
    omega
  | @record _ s pos there parts =>
    have cells {q : TypeRecord} (there : t.RecordAt id q.words) :
        ∃ rest, t.cells.toList.drop id.toNat = q.words ++ rest := by
      refine ⟨t.cells.toList.drop (id.toNat + q.words.length), ?_⟩
      refine List.ext_getElem? fun k => ?_
      rw [List.getElem?_drop, Array.getElem?_toList]
      by_cases inside : k < q.words.length
      · rw [List.getElem?_append_left inside, there k inside, List.getElem?_eq_getElem inside]
      · rw [List.getElem?_append_right (by omega), List.getElem?_drop, Array.getElem?_toList]
        congr 1
        omega
    obtain ⟨rest, first⟩ := cells holds.recordAt
    obtain ⟨more, second⟩ := cells there
    obtain ⟨rfl, -⟩ := words_append (first.symm.trans second)
    exact parts e mem

theorem Defined.element (defined : t.Defined id) (named : t.Named id)
    (derived : t.isPointer id = true ∨ t.isArray id = true) (done : t.element id = .ok e) :
    t.Defined e := by
  obtain ⟨-, low⟩ | ⟨r, holds⟩ := named.cases
  · simp [isPointer, isArray, form_of_scalar low] at derived
  · rw [holds.element] at done
    rw [holds.isPointer, holds.isArray] at derived
    cases done
    cases r with
    | pointer e | array e =>
      exact defined.component holds (by simp [components, TypeRecord.element])
    | function _ _ | struct _ _ => simp [form] at derived

theorem Defined.result (defined : t.Defined id) (named : t.Named id)
    (isFunction : t.isFunction id = true) (done : t.result id = .ok e) : t.Defined e := by
  obtain ⟨-, low⟩ | ⟨r, holds⟩ := named.cases
  · simp [TypeTable.isFunction, form_of_scalar low] at isFunction
  · rw [holds.result] at done
    rw [holds.isFunction] at isFunction
    cases done
    cases r with
    | function result parameters =>
      exact defined.component holds (by simp [components, TypeRecord.result])
    | pointer _ | array _ | struct _ _ => simp [form] at isFunction

theorem Defined.member (defined : t.Defined id) (named : t.Named id) {name place : Int}
    (done : t.member id name = .ok (some (e, place))) : t.Defined e := by
  obtain ⟨fields, read, found⟩ := Guarded.bind_eq_ok.mp done
  obtain ⟨f, mem, rfl⟩ := mem_memberFrom found
  obtain ⟨-, low⟩ | ⟨r, holds⟩ := named.cases
  · rw [fields_of_scalar low] at read
    cases read
    cases mem
  · cases r with
    | struct size fields =>
      by_cases fits : ((TypeRecord.struct size fields).count : Int) ≤ largestBlock
      · cases (holds.fields fits).symm.trans read
        exact defined.component holds (List.mem_map_of_mem mem)
      · rw [TypeTable.fields, holds.isStructure,
          holds.componentCount_long (.inr rfl) (by omega)] at read
        cases read
    | pointer _ | array _ | function _ _ =>
      rw [TypeTable.fields, holds.isStructure] at read
      cases read
      cases mem

end BilingualC.TypeTable
