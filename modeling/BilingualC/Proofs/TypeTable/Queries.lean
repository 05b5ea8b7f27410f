import Mathlib
import BilingualC.Proofs.TypeTable.Records

/-!
# Questions about named types

Every question about a named type is answered from its record: its size, its components, its
members. Two names are names of equal types only if they are the same name (`equal_ends`), and every
type can be spelled (`describe_ends`). The only fault that is possible is a record with more
components than fit in a block, which a short table does not have.
-/

namespace BilingualC

namespace TypeRecord

def element : TypeRecord → TypeId
  | .pointer e | .array e => e
  | _ => TypeId.undefined

def result : TypeRecord → TypeId
  | .function result _ => result
  | _ => TypeId.undefined

def parameters : TypeRecord → List TypeId
  | .function _ parameters => parameters
  | _ => []

def fields : TypeRecord → List Field
  | .struct _ fields => fields
  | _ => []

/-- The number of words that a value of the type takes. -/
def size : TypeRecord → Int
  | .struct size _ => size
  | _ => 1

end TypeRecord

namespace TypeTable

open TypeRecord Guarded

variable {t u : TypeTable} {id a b : Int} {r : TypeRecord} {ok : Fault → Prop}

/-! ## Forms and components -/

theorem Holds.isPointer (holds : t.Holds id r) : t.isPointer id = (r.form == .pointer) := by
  rw [TypeTable.isPointer, holds.form]
  rfl

theorem Holds.isArray (holds : t.Holds id r) : t.isArray id = (r.form == .array) := by
  rw [TypeTable.isArray, holds.form]
  rfl

theorem Holds.isFunction (holds : t.Holds id r) : t.isFunction id = (r.form == .function) := by
  rw [TypeTable.isFunction, holds.form]
  rfl

theorem Holds.isStructure (holds : t.Holds id r) : t.isStructure id = (r.form == .record) := by
  rw [TypeTable.isStructure, holds.form]
  rfl

theorem Holds.element (holds : t.Holds id r) : t.element id = .ok r.element := by
  rw [TypeTable.element, holds.isPointer, holds.isArray]
  cases r with
  | pointer e => exact holds.cell (k := 1) (by simp [TypeRecord.words])
  | array e => exact holds.cell (k := 1) (by simp [TypeRecord.words])
  | function _ _ => rfl
  | struct _ _ => rfl

theorem Holds.result (holds : t.Holds id r) : t.result id = .ok r.result := by
  rw [TypeTable.result, holds.isFunction]
  cases r with
  | function result parameters => exact holds.cell (k := 1) (by simp [TypeRecord.words])
  | pointer _ | array _ | struct _ _ => rfl

theorem Holds.sizeOf (holds : t.Holds id r) : t.sizeOf id = .ok r.size := by
  have derived : (id == TypeId.void || id == TypeId.undefined) = false := by
    have pos := holds.pos
    simp only [Bool.or_eq_false_iff, beq_eq_false_iff_ne, TypeId.void, TypeId.undefined]
    omega
  rw [TypeTable.sizeOf, derived, holds.isStructure]
  cases r with
  | struct size fields => exact holds.cell (k := 1) (by simp [TypeRecord.words])
  | pointer _ | array _ | function _ _ => rfl

/-- Cells at equal distances are read one after the other. -/
theorem cellsFrom_eq {d : Int} {cells : List Int} {i : Int}
    (read : ∀ k (inside : k < cells.length), t.cell id (i + d * k) = .ok cells[k]) :
    t.cellsFrom id d cells.length i = .ok cells := by
  induction cells generalizing i with
  | nil => rfl
  | cons c cells ih =>
    have first : t.cell id i = .ok c := by
      have := read 0 (by simp)
      rwa [Nat.cast_zero, mul_zero, add_zero] at this
    have rest := ih (i := i + d) fun k inside => by
      rw [show i + d + d * (k : Int) = i + d * ((k + 1 : Nat) : Int) by push_cast; ring]
      exact read (k + 1) (by simpa using inside)
    rw [List.length_cons, cellsFrom, first, rest]
    rfl

/-- The number of components of a function or a structure stands in its record. -/
theorem Holds.cell_count (holds : t.Holds id r) (counted : r.form = .function ∨ r.form = .record) :
    t.cell id 2 = .ok (r.count : Int) := by
  cases r with
  | function _ _ => exact holds.cell (k := 2) (by simp [TypeRecord.words])
  | struct _ _ => exact holds.cell (k := 2) (by simp [TypeRecord.words])
  | pointer _ => simp [TypeRecord.form] at counted
  | array _ => simp [TypeRecord.form] at counted

theorem Holds.componentCount (holds : t.Holds id r)
    (counted : r.form = .function ∨ r.form = .record)
    (fits : (r.count : Int) ≤ largestBlock) : t.componentCount id = .ok r.count := by
  have inside : ¬ ((r.count : Int) < 0 ∨ largestBlock < (r.count : Int)) := by omega
  rw [TypeTable.componentCount, holds.cell_count counted]
  simp only [bind, Except.bind, Bool.or_eq_true, decide_eq_true_eq, inside, if_false,
    Int.toNat_natCast]
  rfl

theorem Holds.componentCount_long (holds : t.Holds id r)
    (counted : r.form = .function ∨ r.form = .record)
    (long : largestBlock < (r.count : Int)) : t.componentCount id = .error .badLength := by
  rw [TypeTable.componentCount, holds.cell_count counted]
  simp only [bind, Except.bind, Bool.or_eq_true, decide_eq_true_eq, long, or_true, if_true]
  rfl

theorem Holds.parameters (holds : t.Holds id r) (fits : (r.count : Int) ≤ largestBlock) :
    t.parameters id = .ok r.parameters := by
  cases r with
  | function result parameters =>
    have cells : t.cellsFrom id 1 parameters.length 3 = .ok parameters := by
      refine cellsFrom_eq fun k inside => ?_
      rw [show (3 : Int) + 1 * (k : Int) = ((3 + k : Nat) : Int) by push_cast; ring]
      rw [holds.cell (k := 3 + k) (by simp [TypeRecord.words]; omega)]
      simp [TypeRecord.words, Nat.add_comm 3 k]
    rw [TypeTable.parameters, holds.isFunction, holds.componentCount (.inl rfl) fits]
    exact cells
  | pointer _ | array _ | struct _ _ =>
    rw [TypeTable.parameters, holds.isFunction]
    rfl

/-- The words of fields alternate between types and names. -/
theorem getElem_fieldWords_name {fields : List Field} {k : Nat} (low : k < fields.length) :
    (fieldWords fields)[2 * k + 1]? = some fields[k].name := by
  induction fields generalizing k with
  | nil => cases low
  | cons f fields ih =>
    cases k with
    | zero => rfl
    | succ k => exact ih (by simpa using low)

theorem zip_fields (fields : List Field) :
    (fields.map (·.type)).zipWith Field.mk (fields.map (·.name)) = fields := by
  rw [List.zipWith_map, List.zipWith_self]
  exact List.map_id fields

theorem Holds.fields (holds : t.Holds id r) (fits : (r.count : Int) ≤ largestBlock) :
    t.fields id = .ok r.fields := by
  cases r with
  | struct size fields =>
    have word (k : Nat) {w : Int} (found : (fieldWords fields)[k]? = some w) :
      t.cell id (3 + k : Nat) = .ok w := by
      obtain ⟨inside, rfl⟩ := List.getElem?_eq_some_iff.mp found
      rw [holds.cell (k := 3 + k) (by simp [TypeRecord.words]; omega)]
      simp [TypeRecord.words, Nat.add_comm 3 k]
    have types : t.cellsFrom id 2 fields.length 3 = .ok (fields.map (·.type)) := by
      rw [← List.length_map (f := (·.type))]
      refine cellsFrom_eq fun k inside => ?_
      rw [show (3 : Int) + 2 * (k : Int) = ((3 + 2 * k : Nat) : Int) by push_cast; ring,
        List.getElem_map]
      exact word _ (getElem_fieldWords (by simpa using inside))
    have names : t.cellsFrom id 2 fields.length 4 = .ok (fields.map (·.name)) := by
      rw [← List.length_map (f := (·.name))]
      refine cellsFrom_eq fun k inside => ?_
      rw [show (4 : Int) + 2 * (k : Int) = ((3 + (2 * k + 1) : Nat) : Int) by push_cast; ring,
        List.getElem_map]
      exact word _ (getElem_fieldWords_name (by simpa using inside))
    rw [TypeTable.fields, holds.isStructure, holds.componentCount (.inr rfl) fits]
    simp only [TypeRecord.form, beq_self_eq_true, Bool.not_true, Bool.false_eq_true, if_false, bind,
      Except.bind]
    rw [show (TypeRecord.struct size fields).count = fields.length from rfl, types, names]
    simp only [zip_fields]
    rfl
  | pointer _ | array _ | function _ _ =>
    rw [TypeTable.fields, holds.isStructure]
    rfl

/-! ## Names -/

theorem element_of_scalar (low : id ≤ 0) : t.element id = .ok TypeId.undefined := by
  simp [TypeTable.element, TypeTable.isPointer, TypeTable.isArray, form_of_scalar low]
  rfl

theorem result_of_scalar (low : id ≤ 0) : t.result id = .ok TypeId.undefined := by
  simp [TypeTable.result, TypeTable.isFunction, form_of_scalar low]
  rfl

theorem parameters_of_scalar (low : id ≤ 0) : t.parameters id = .ok [] := by
  simp [TypeTable.parameters, TypeTable.isFunction, form_of_scalar low]
  rfl

theorem fields_of_scalar (low : id ≤ 0) : t.fields id = .ok [] := by
  simp [TypeTable.fields, TypeTable.isStructure, form_of_scalar low]
  rfl

theorem Tiled.undefined (tiled : t.Tiled) : t.Named TypeId.undefined :=
  named_scalar tiled (by decide) (le_refl _)

theorem Named.element (named : t.Named id) : ∃ e : Int, t.element id = .ok e ∧ t.Named e ∧
    (0 < id → e < id) := by
  rcases named.cases with ⟨low, high⟩ | ⟨r, holds⟩
  · exact ⟨_, element_of_scalar high, named.tiled.undefined, fun pos => pos⟩
  · refine ⟨r.element, holds.element, ?_⟩
    cases r with
    | pointer e | array e =>
      have component := holds.component (e := e) (by simp [TypeRecord.components])
      exact ⟨component.1, fun _ => component.2⟩
    | function _ _ | struct _ _ => exact ⟨holds.tiled.undefined, fun pos => pos⟩

theorem Named.result (named : t.Named id) : ∃ e : Int, t.result id = .ok e ∧ t.Named e := by
  rcases named.cases with ⟨low, high⟩ | ⟨r, holds⟩
  · exact ⟨_, result_of_scalar high, named.tiled.undefined⟩
  · refine ⟨r.result, holds.result, ?_⟩
    cases r with
    | function result _ => exact (holds.component List.mem_cons_self).1
    | pointer _ | array _ | struct _ _ => exact holds.tiled.undefined

theorem Named.sizeOf (named : t.Named id) : ∃ n, t.sizeOf id = .ok n := named.valid.sizeOf

/-- No record has more components than fit in a block. -/
def Short (t : TypeTable) : Prop := ∀ id r, t.Holds id r → (r.count : Int) ≤ largestBlock

theorem Holds.parameters_ends (holds : t.Holds id r) (room : ok .badLength ∨ t.Short) :
    (t.parameters id).Ends ok fun types => types = r.parameters := by
  by_cases fits : (r.count : Int) ≤ largestBlock
  · exact ends_ok rfl (holds.parameters fits)
  · have allowed := room.resolve_right fun short => fits (short id r holds)
    rw [TypeTable.parameters, holds.isFunction]
    cases r with
    | function result parameters =>
      rw [holds.componentCount_long (.inl rfl) (not_le.mp fits)]
      exact allowed
    | pointer _ | array _ | struct _ _ => exact ends_pure rfl

theorem Holds.fields_ends (holds : t.Holds id r) (room : ok .badLength ∨ t.Short) :
    (t.fields id).Ends ok fun fields => fields = r.fields := by
  by_cases fits : (r.count : Int) ≤ largestBlock
  · exact ends_ok rfl (holds.fields fits)
  · have allowed := room.resolve_right fun short => fits (short id r holds)
    rw [TypeTable.fields, holds.isStructure]
    cases r with
    | struct size fields =>
      rw [holds.componentCount_long (.inr rfl) (not_le.mp fits)]
      exact allowed
    | pointer _ | array _ | function _ _ => exact ends_pure rfl

theorem Holds.named_parameter (holds : t.Holds id r) {e : Int} (mem : e ∈ r.parameters) :
    t.Named e ∧ e < id := by
  cases r with
  | function result parameters => exact holds.component (List.mem_cons_of_mem _ mem)
  | pointer _ | array _ | struct _ _ => cases mem

theorem Holds.named_field (holds : t.Holds id r) {f : Field} (mem : f ∈ r.fields) : t.Named f.type ∧
    (f.type : Int) < id := by
  cases r with
  | struct size fields => exact holds.component (List.mem_map_of_mem mem)
  | pointer _ | array _ | function _ _ => cases mem

theorem parameters_ends (named : t.Named id) (room : ok .badLength ∨ t.Short) :
    (t.parameters id).Ends ok fun types => ∀ e ∈ types, t.Named e := by
  rcases named.cases with ⟨low, high⟩ | ⟨r, holds⟩
  · exact ends_ok (by simp) (parameters_of_scalar high)
  · exact (holds.parameters_ends room).mono fun types same e mem =>
      (holds.named_parameter (same ▸ mem)).1

theorem fields_ends (named : t.Named id) (room : ok .badLength ∨ t.Short) :
    (t.fields id).Ends ok fun fields => ∀ f ∈ fields, t.Named f.type := by
  rcases named.cases with ⟨low, high⟩ | ⟨r, holds⟩
  · exact ends_ok (by simp) (fields_of_scalar high)
  · exact (holds.fields_ends room).mono fun fields same f mem => (holds.named_field (same ▸ mem)).1

theorem memberFrom_ok {fields : List Field} (named : ∀ f ∈ fields, t.Named f.type) (name d : Int) :
    ∃ found, t.memberFrom name d fields = .ok found := by
  induction fields generalizing d with
  | nil => exact ⟨none, rfl⟩
  | cons f fields ih =>
    rw [memberFrom]
    split
    · exact ⟨_, rfl⟩
    · obtain ⟨n, sized⟩ := (named f List.mem_cons_self).sizeOf
      rw [sized]
      exact ih (fun g mem => named g (List.mem_cons_of_mem f mem)) _

/-- A member that is found has a named type. -/
theorem member_ends (named : t.Named id) (room : ok .badLength ∨ t.Short) (name : Int) :
    (t.member id name).Ends ok fun found => ∀ type place, found = some (type, place) →
    t.Named type := by
  refine (fields_ends named room).bind fun fields good => ?_
  obtain ⟨found, done⟩ := memberFrom_ok good name 0
  refine ends_ok (fun type place same => ?_) done
  subst same
  obtain ⟨f, mem, rfl⟩ := mem_memberFrom done
  exact good f mem

/-! ## Comparing types -/

section Equal

variable {depth : Nat} (ih : ∀ {a b : Int}, a.toNat < depth → t.Named a → t.Named b →
    (t.equalAt depth a b).Ends ok fun same => same = (a == b))

include ih

theorem equalAll_ends {as bs : List TypeId} (low : ∀ a ∈ as, (a : Int).toNat < depth)
    (first : ∀ a ∈ as, t.Named a) (second : ∀ b ∈ bs, t.Named b) (count : as.length = bs.length) :
    (equalAt.equalAll t depth as bs).Ends ok fun same => same = (as == bs) := by
  induction as generalizing bs with
  | nil =>
    obtain rfl := List.length_eq_zero_iff.mp count.symm
    exact ends_ok (a := true) rfl (by simp [equalAt.equalAll]; rfl)
  | cons a as more =>
    obtain ⟨b, bs, rfl⟩ := List.exists_cons_of_length_eq_add_one count.symm
    rw [equalAt.equalAll]
    refine (ih (low a List.mem_cons_self) (first a List.mem_cons_self)
      (second b List.mem_cons_self)).bind fun same here => ?_
    subst here
    rw [List.cons_beq_cons]
    cases a == b with
    | true =>
      exact more (fun x mem => low x (List.mem_cons_of_mem a mem))
        (fun x mem => first x (List.mem_cons_of_mem a mem))
        (fun x mem => second x (List.mem_cons_of_mem b mem)) (by simpa using count)
    | false => rfl

theorem equalFields_ends {as bs : List Field} (low : ∀ a ∈ as, (a.type : Int).toNat < depth)
    (first : ∀ a ∈ as, t.Named a.type)
    (second : ∀ b ∈ bs, t.Named b.type) (count : as.length = bs.length) :
    (equalAt.equalFields t depth as bs).Ends ok fun same => same = decide (as = bs) := by
  induction as generalizing bs with
  | nil =>
    obtain rfl := List.length_eq_zero_iff.mp count.symm
    exact ends_ok (a := true) rfl (by simp [equalAt.equalFields]; rfl)
  | cons a as more =>
    obtain ⟨b, bs, rfl⟩ := List.exists_cons_of_length_eq_add_one count.symm
    rw [equalAt.equalFields]
    by_cases name : a.name = b.name
    · have fields : a = b ↔ a.type = b.type :=
        ⟨fun same => same ▸ rfl, fun type => by cases a; cases b; simp_all⟩
      simp only [name, bne_self_eq_false, Bool.false_eq_true, if_false]
      refine (ih (low a List.mem_cons_self) (first a List.mem_cons_self)
        (second b List.mem_cons_self)).bind fun same here => ?_
      subst here
      by_cases type : (a.type : Int) = b.type
      · rw [if_pos (by simpa using type)]
        refine (more (fun x mem => low x (List.mem_cons_of_mem a mem)) (fun x mem =>
          first x (List.mem_cons_of_mem a mem)) (fun x mem => second x (List.mem_cons_of_mem b mem))
          (by simpa using count)).mono fun same rest => ?_
        simp [rest, fields.mpr type]
      · rw [if_neg (by simpa using type)]
        exact ends_pure (by simp [fields, type])
    · rw [if_pos (by simpa using name)]
      exact ends_pure (by simp [show a ≠ b from fun same => name (same ▸ rfl)])

end Equal

/-- Two names are found to be names of equal types only if they are the same. -/
theorem equalAt_ends (room : ok .badLength ∨ t.Short)
    {depth : Nat} (enough : a.toNat < depth) (first : t.Named a)
    (second : t.Named b) : (t.equalAt depth a b).Ends ok fun same => same = (a == b) := by
  induction depth generalizing a b with
  | zero => omega
  | succ depth ih =>
    rw [equalAt]
    by_cases same : a = b
    · simp only [same, beq_self_eq_true, if_true]
      exact ends_pure rfl
    have different : (a == b) = false := by simpa using same
    simp only [different, Bool.false_eq_true, if_false]
    by_cases scalar : a ≤ 0 ∨ b ≤ 0
    · rw [if_pos (by simpa using scalar)]
      exact ends_pure rfl
    rw [if_neg (by simpa using scalar)]
    obtain ⟨r, holdsA⟩ := first.cases.resolve_left fun low => scalar (.inl low.2)
    obtain ⟨q, holdsB⟩ := second.cases.resolve_left fun low => scalar (.inr low.2)
    -- Records that are equal stand at one place, so some component has to differ.
    have distinct : r ≠ q := fun equal => same (holdsA.eq_of_words (equal ▸ holdsB))
    have below {e : Int} (mem : e ∈ r.components) : e.toNat < depth := by
      have := (holdsA.component mem).2
      omega
    have pair {e f : Int} (first : t.element a = .ok e) (second : t.element b = .ok f)
        (inA : e ∈ r.components) (inB : f ∈ q.components) (injective : e = f → r = q) :
        (do t.equalAt depth (← t.element a) (← t.element b)).Ends ok fun same => same = false := by
      rw [first, second]
      refine (ih (below inA) (holdsA.component inA).1 (holdsB.component inB).1).mono
        fun same here => ?_
      simpa [here] using fun equal => distinct (injective equal)
    rw [holdsA.form, holdsB.form]
    cases r <;> cases q <;> try exact ends_pure rfl
    case pointer.pointer e f =>
      exact pair holdsA.element holdsB.element List.mem_cons_self List.mem_cons_self (congrArg _)
    case array.array e f =>
      exact pair holdsA.element holdsB.element List.mem_cons_self List.mem_cons_self (congrArg _)
    case function.function x ps y qs =>
      refine (holdsA.parameters_ends room).bind fun _ listA =>
        (holdsB.parameters_ends room).bind fun _ listB => ?_
      rw [listA, listB]
      by_cases count : ps.length = qs.length
      · simp only [TypeRecord.parameters, count, bne_self_eq_false, Bool.false_eq_true, if_false,
          holdsA.result, holdsB.result]
        refine (ih (below List.mem_cons_self) (holdsA.component List.mem_cons_self).1
          (holdsB.component List.mem_cons_self).1).bind fun same here => ?_
        by_cases results : (x : Int) = y
        · rw [if_neg (by simp [here, results])]
          refine (equalAll_ends ih (fun e mem => below (List.mem_cons_of_mem _ mem))
            (fun e mem => (holdsA.named_parameter mem).1) (fun e mem =>
            (holdsB.named_parameter mem).1) count).mono ?_
          rintro same rfl
          exact beq_eq_false_iff_ne.mpr fun equal : ps = qs => distinct (by rw [results, equal])
        · rw [if_pos (by simpa [here] using results)]
          exact ends_pure rfl
      · simp only [TypeRecord.parameters, bne_iff_ne, ne_eq, count, not_false_eq_true, if_true]
        exact ends_pure rfl
    case struct.struct x ps y qs =>
      refine (holdsA.fields_ends room).bind fun _ listA =>
        (holdsB.fields_ends room).bind fun _ listB => ?_
      rw [listA, listB]
      by_cases count : ps.length = qs.length
      · simp only [TypeRecord.fields, count, bne_self_eq_false, Bool.false_eq_true, if_false]
        refine (equalFields_ends ih (fun f mem => below (List.mem_map_of_mem mem)) (fun f mem =>
          (holdsA.named_field mem).1) (fun f mem => (holdsB.named_field mem).1) count).mono ?_
        rintro same rfl
        refine decide_eq_false fun equal : ps = qs => distinct ?_
        -- Structures with the same fields have the same size.
        have size := holdsA.totalSize
        rw [equal, holdsB.totalSize] at size
        rw [equal, Except.ok.inj size]
      · simp only [TypeRecord.fields, bne_iff_ne, ne_eq, count, not_false_eq_true, if_true]
        exact ends_pure rfl

/-- Two types are equal only if they have the same name. -/
theorem equal_ends (room : ok .badLength ∨ t.Short) (first : t.Named a) (second : t.Named b) :
    (t.equal a b).Ends ok fun same => same = (a == b) := by
  refine equalAt_ends room ?_ first second
  have low := first.lt_size
  have more : t.cells.size + 1 ≤ (t.cells.size + 1) * (t.cells.size + 1) := Nat.le_mul_self _
  omega

/-! ## Spelling types -/

/-- A step for each element of a list, taken for all of them. -/
theorem mapM_ends {α β : Type} {f : α → Guarded β} {l : List α}
    (each : ∀ x ∈ l, (f x).Ends ok fun _ => True) : (l.mapM f).Ends ok fun _ => True := by
  induction l with
  | nil => exact trivial
  | cons x l ih =>
    rw [List.mapM_cons]
    exact (each x List.mem_cons_self).bind fun _ _ =>
      (ih fun y mem => each y (List.mem_cons_of_mem x mem)).bind fun _ _ => trivial

theorem describeAt_ends (room : ok .badLength ∨ t.Short)
    (nameOf : Int → String) {depth : Nat} (enough : id.toNat < depth)
    (named : t.Named id) : (t.describeAt nameOf depth id).Ends ok fun _ => True := by
  induction depth generalizing id with
  | zero => omega
  | succ depth ih =>
    rw [describeAt]
    iterate 4
      split
      · exact trivial
    rcases named.cases with ⟨low, high⟩ | ⟨r, holds⟩
    · rw [form_of_scalar high]
      exact trivial
    · have pos := holds.pos
      have below {e : Int} (part : t.Named e ∧ e < id) :
        (t.describeAt nameOf depth e).Ends ok fun _ => True :=
        ih (by omega) part.1
      rw [holds.form]
      cases r with
      | pointer e | array e =>
        simp only [TypeRecord.form, holds.element]
        exact (below (holds.component List.mem_cons_self)).bind fun _ _ => trivial
      | function result parameters =>
        simp only [TypeRecord.form, holds.result]
        refine (holds.parameters_ends room).bind fun _ list => ?_
        refine (mapM_ends fun e mem => below (holds.named_parameter (list ▸ mem))).bind fun _ _ =>
          ?_
        exact (below (holds.component List.mem_cons_self)).bind fun _ _ => trivial
      | struct size fields =>
        simp only [TypeRecord.form]
        refine (holds.fields_ends room).bind fun _ list => ?_
        refine (mapM_ends fun f mem => ?_).bind fun _ _ => trivial
        exact (below (holds.named_field (list ▸ mem))).bind fun _ _ => trivial

theorem describe_ends (named : t.Named id) (room : ok .badLength ∨ t.Short)
    (nameOf : Int → String) : (t.describe nameOf id).Ends ok fun _ => True := by
  have low := named.lt_size
  exact describeAt_ends room nameOf (by omega) named

/-! ## Tables that go on -/

theorem Gains.short {new : TypeTable × TypeId} (gains : t.Gains r new) (short : t.Short)
    (fits : (r.count : Int) ≤ largestBlock) : new.1.Short := by
  intro id q holds
  rcases gains.only id q holds with old | rfl
  · exact short id q old
  · exact fits

section Continue

variable (named : t.Named id) (continues : t.Continues u) (tiled : u.Tiled)

include named continues

theorem Named.form_continue : u.form? id = t.form? id :=
  TypeTable.form_continue continues named.lt_size

theorem Named.isPointer_continue : u.isPointer id = t.isPointer id := by
  rw [isPointer, isPointer, named.form_continue continues]

theorem Named.isArray_continue : u.isArray id = t.isArray id := by
  rw [isArray, isArray, named.form_continue continues]

theorem Named.isFunction_continue : u.isFunction id = t.isFunction id := by
  rw [isFunction, isFunction, named.form_continue continues]

theorem Named.isStructure_continue : u.isStructure id = t.isStructure id := by
  rw [isStructure, isStructure, named.form_continue continues]

theorem Named.isScalar_continue : u.isScalar id = t.isScalar id := by
  rw [isScalar, isScalar, named.isPointer_continue continues]

theorem Named.sizeOf_continue : u.sizeOf id = t.sizeOf id :=
  named.valid.sizeOf_continue named.tiled.sound.size continues

include tiled

theorem Named.element_continue : u.element id = t.element id := by
  rcases named.cases with ⟨_, high⟩ | ⟨r, holds⟩
  · rw [element_of_scalar high, element_of_scalar high]
  · rw [holds.element, (holds.continue continues tiled).element]

theorem Named.result_continue : u.result id = t.result id := by
  rcases named.cases with ⟨_, high⟩ | ⟨r, holds⟩
  · rw [result_of_scalar high, result_of_scalar high]
  · rw [holds.result, (holds.continue continues tiled).result]

theorem Named.parameters_continue : u.parameters id = t.parameters id := by
  rcases named.cases with ⟨_, high⟩ | ⟨r, holds⟩
  · rw [parameters_of_scalar high, parameters_of_scalar high]
  · have later := holds.continue continues tiled
    by_cases fits : (r.count : Int) ≤ largestBlock
    · rw [holds.parameters fits, later.parameters fits]
    · rw [parameters, parameters, holds.isFunction, later.isFunction]
      cases r with
      | function _ _ =>
        rw [holds.componentCount_long (.inl rfl) (not_le.mp fits),
          later.componentCount_long (.inl rfl) (not_le.mp fits)]
        rfl
      | pointer _ | array _ | struct _ _ => rfl

theorem Named.fields_continue : u.fields id = t.fields id := by
  rcases named.cases with ⟨_, high⟩ | ⟨r, holds⟩
  · rw [fields_of_scalar high, fields_of_scalar high]
  · have later := holds.continue continues tiled
    by_cases fits : (r.count : Int) ≤ largestBlock
    · rw [holds.fields fits, later.fields fits]
    · rw [fields, fields, holds.isStructure, later.isStructure]
      cases r with
      | struct _ _ =>
        rw [holds.componentCount_long (.inr rfl) (not_le.mp fits),
          later.componentCount_long (.inr rfl) (not_le.mp fits)]
        rfl
      | pointer _ | array _ | function _ _ => rfl

theorem Named.member_continue (name : Int) : u.member id name = t.member id name := by
  rw [member, member, named.fields_continue continues tiled]
  have good : (t.fields id).Ends (fun _ => True) fun fields => ∀ f ∈ fields, t.Named f.type :=
    fields_ends named (.inl trivial)
  cases read : t.fields id with
  | error f => rfl
  | ok fields =>
    rw [read] at good
    have steps (d : Int) : u.memberFrom name d fields = t.memberFrom name d fields := by
      clear read
      induction fields generalizing d with
      | nil => rfl
      | cons f fields ih =>
        rw [memberFrom, memberFrom, (good f List.mem_cons_self).sizeOf_continue continues]
        simp only [ih fun g mem => good g (List.mem_cons_of_mem f mem)]
    exact steps 0

end Continue

end TypeTable

end BilingualC
