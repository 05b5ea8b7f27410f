import Mathlib
import BilingualC.Checker.Declaration
import BilingualC.Proofs.Checker.Facts

/-!
# Rules for declarations, checked

A declaration needs a type that fits and gives the number of a declaration with that type.
Variables, type names and structures are declared inside and outside of functions.
-/

namespace BilingualC

open Std.Do

set_option mvcgen.warning false

namespace Session

variable {s t : Session} {spelling id : Int} {kind : IdentKind} {type : TypeId}

theorem Declared.names (declared : s.Declared t spelling kind type id) (tables : s.Tables) :
    t.Names id kind type := by
  have fresh := declared.fresh
  have more := declared.more
  have some := tables.some
  exact ⟨by omega, by omega, declared.kind, declared.type⟩

end Session

namespace Checker

open Rose Session

variable {c₀ c₁ c : Checker} {w : World}

/-- A declaration that is taken in. -/
theorem leads_declare {spelling id : Int} {kind : IdentKind} {type : TypeId} {s : Session}
    {P : Session → Prop} (done : c.session.declare spelling kind type = .ok (.ok (s, id)))
    (admits : c.session.Tables → P c.session → c.session.Admits kind type) :
    c.Leads P [] (fun s => s.Names id kind type) [] (c.withSession s) := by
  refine .update (fun dirty => (congrArg Journal.hadError (journal_declare done)).trans dirty)
    fun tables p => ?_
  have declared := (admits tables p).declared tables done
  exact ⟨declared.updates, declared.names tables⟩

@[spec] theorem reportDeclaration_spec (e : DeclarationError) (spelling : Int) (loc : Location) :
    ⦃fun c => ⌜c = c₀⌝⦄ reportDeclaration e spelling loc ⦃⇓? _ c => ⌜c.Dirty⌝⦄ := by
  mvcgen [reportDeclaration, currentSession]

/-! ## Variables -/

@[spec] theorem declareVariable_spec (type : TypeId) (spelling : Int) (loc : Location) :
    ⦃fun c => ⌜c = c₀⌝⦄ declareVariable type spelling loc ⦃⇓? id c =>
    ⌜c₀.Leads (fun s => s.Valued type) [] (fun s => s.Names id .variable type) [] c⌝⦄ := by
  mvcgen [declareVariable, types]
  all_goals subst_vars
  case vc1 dirty => exact .of_dirty dirty
  case vc2 declared =>
    obtain ⟨t, done, rfl⟩ := declared
    exact leads_declare done fun _ valued => ⟨valued.valid, fun _ => valued.noFunction, by simp,
      by simp, .inl rfl, fun _ => valued.defined⟩
  case vc3 dirty => exact .of_dirty dirty

/-- The bounds were looked at: all are right, or one of them is broken, or one was reported. -/
def BoundsChecked (c₀ : Checker) (bounds : List Handle) (ok : Bool) (c : Checker) : Prop :=
  c = c₀ ∧ (ok = false → bounds.any c₀.session.tree.isBroken = true) ∨ c.Dirty

@[spec] theorem checkBounds_spec (bounds : List Handle) :
    ⦃fun c => ⌜c = c₀⌝⦄ checkBounds bounds ⦃⇓? out c => ⌜c₀.BoundsChecked bounds out.1 c⌝⦄ := by
  induction bounds generalizing c₀ with
  | nil =>
    mvcgen [checkBounds]
    subst_vars
    exact .inl ⟨rfl, by simp⟩
  | cons bound rest ih =>
    mvcgen [checkBounds, isBroken, kindOf, tree, typeOf, locationOf, ih]
    all_goals subst_vars
    case vc1 dirty _ _ later =>
      obtain ⟨rfl, -⟩ | dirty := later
      · exact .inr dirty
      · exact .inr dirty
    case vc2 before _ _ _ _ right _ _ _ later =>
      rw [Bool.not_eq_true] at right
      obtain ⟨same, ok⟩ | dirty := later
      · refine .inl ⟨same, fun failed => ?_⟩
        rw [List.any_cons, Bool.or_eq_true]
        cases broken : before.session.tree.isBroken bound
        · exact .inr (ok (by simpa [right, broken] using failed))
        · exact .inl rfl
      · exact .inr dirty

/-- The initializer is broken or was reported. -/
def InitFailed (c₀ : Checker) (init : Handle) (c : Checker) : Prop :=
  c₀.session.tree.isBroken init = true ∧ c = c₀ ∨ c.Dirty

theorem InitFailed.dirty {init : Handle} (failed : c₀.InitFailed init c) (dirty : c₀.Dirty) :
    c.Dirty := by
  obtain ⟨-, rfl⟩ | error := failed
  · exact dirty
  · exact error

@[spec] theorem checkInitializer_spec (type : TypeId) (init : Handle) :
    ⦃fun c => ⌜c = c₀⌝⦄ checkInitializer type init
    ⦃⇓? out c => ⌜match out with
      | none => c₀.InitFailed init c
      | some init' => c₀.Converted type init init' none c⌝⦄ := by
  mvcgen [checkInitializer, isBroken, kindOf, tree, types, locationOf]
  all_goals subst_vars
  case vc1 broken => exact .inl ⟨broken, rfl⟩
  case vc2 dirty | vc3 dirty => exact .inr dirty
  case vc4 fine _ converted =>
    rw [fine] at converted
    exact converted

/-- A part of a declaration: a type name or a variable. -/
def IsDeclared (r : Rose) : Prop :=
  (r.kind = .typeDefinition ∧ r.children = []) ∨ ∃ bounds init, IsVariable r bounds init

/-- An initializer that was converted: only structures and arrays have lists. -/
def Suits (types : TypeTable) (type : TypeId) (r : Rose) : Prop :=
  IsInitializer r ∧
    (r.kind = .initializer → types.isStructure type = true ∨ types.isArray type = true)

theorem Converted.dirty {type : TypeId} {init init' : Handle} {problem : Option Diagnostic}
    (converted : c₀.Converted type init init' problem c) (dirty : c₀.Dirty) : c.Dirty := by
  obtain ⟨t, rfl, -⟩ := converted
  exact dirty

theorem Converted.suits {type : TypeId} {init init' : Handle}
    (converted : c₀.Converted type init init' none c) (valid : c₀.session.types.Valid type) :
    c₀.Effect [⟨init, IsInitializer⟩] [⟨init', Suits c₀.session.types type⟩] c := by
  refine Effect.swap converted.dirty [] fun w upper x lower stands named known => ?_
  obtain ⟨x', swapped, isInit, -, list⟩ := converted.swapped stands named known valid
  exact ⟨x', swapped, isInit, list⟩

/-- What the declaration of a variable with some bounds needs of the tables. -/
structure Variable (id : Int) (bounds : List Handle) (type : TypeId) (s : Session) : Prop where
  names : s.Names id .variable type
  valid : s.types.Valid type
  bare : bounds = [] → s.types.isArray type = false

/-- A variable that is declared. -/
theorem Built.variable {id : Int} {bounds : List Handle} {init n : Handle}
    {hasInit : Bool} {type : TypeId} {loc : List Int} (built :
      c₀.Built .variable (id :: bounds.length :: flagWord hasInit :: loc) (bounds ++ [init]) n c)
    (known : Variable id bounds type c₀.session) (marked : Clause.Marked ⟨init, hasInit⟩) :
    c₀.Effect (Clause.slots (Suits c₀.session.types type) ⟨init, hasInit⟩ ++
      Slot.each IsBound bounds) [⟨n, IsDeclared⟩] c := by
  refine built.effect ?_ rfl fun w trees rest stands fits node kind args kids => ?_
  · have live := Clause.live marked (Suits c₀.session.types type)
    rw [List.map_append, List.reverse_append, handles_each, List.reverse_reverse,
      Clause.reverse_slots, List.filter_append, List.filter_append, live]
  · obtain ⟨upper, lower, rfl, clause, boundTrees⟩ := fits_append.mp fits
    obtain ⟨o, rfl, written, suits⟩ := fits_clause clause
    obtain ⟨named, areBounds⟩ := fits_each.mp boundTrees
    have length : bounds.length = lower.length := by
      rw [named, List.length_map, List.length_reverse]
    -- the clause is the last child if there is one, and the bounds stand in front of it in order
    have single : o.toList.reverse = o.toList := by cases o <;> rfl
    have children : node.children = lower.reverse ++ o.toList := by
      rw [kids, List.reverse_append, single]
    refine ⟨.inr ⟨lower.reverse, o, kind, children, ?_, ?_,
      fun b mem => areBounds b (List.mem_reverse.mp mem), fun i mem => (suits i mem).1⟩, ?_⟩
    · rw [arg, args, List.length_reverse, ← length]
      rfl
    · rw [arg, args, ← written]
      rfl
    · have id' : node.arg 0 = id := by rw [arg, args]; rfl
      constructor
      case toNodeOk =>
        constructor
        case declared =>
          intro _
          rw [id', known.names.type, known.names.kind]
          exact ⟨known.valid, by simp⟩
        case list =>
          intro _ unbound i mem list
          have none : bounds = [] := by
            rw [arg, args] at unbound
            exact List.length_eq_zero_iff.mp (Int.ofNat_eq_zero.mp unbound)
          have empty : lower = [] := List.length_eq_zero_iff.mp (by rw [← length, none]; rfl)
          rw [children, empty] at mem
          have form := (suits i (by simpa using mem)).2 list
          rw [known.bare none] at form
          rw [id', known.names.type]
          exact form.resolve_right (by simp)
        all_goals
          intro other
          rw [kind] at other
          cases other
      case place => exact fun _ => id' ▸ known.names.low
      case name =>
        intro other
        cases kind.symm.trans other

theorem BoundsChecked.dirty {bounds : List Handle} {ok : Bool}
    (checked : c₀.BoundsChecked bounds ok c) (dirty : c₀.Dirty) : c.Dirty := by
  obtain ⟨rfl, -⟩ | error := checked
  · exact dirty
  · exact error

/-- When bounds are not right, a report was made. -/
theorem BoundsChecked.failed {bounds : List Handle}
    {above base : List Slot} (checked : c₀.BoundsChecked bounds false c)
    (state : c₀.State w (above ++ Slot.each IsBound bounds ++ base)) : c.Dirty := by
  obtain ⟨rfl, broken⟩ | dirty := checked
  · obtain ⟨n, mem, broken⟩ := List.any_eq_true.mp (broken rfl)
    refine state.dirty ?_ broken
    rw [List.map_append, List.map_append, handles_each]
    simp [mem]
  · exact dirty

/-- A variable whose initializer was converted. -/
theorem Built.initialized {c₂ : Checker} {id : Int} {bounds : List Handle}
    {ok : Bool} {init init' n : Handle} {type : TypeId}
    {loc : List Int} (checked : c₀.BoundsChecked bounds ok c₁)
    (converted : c₁.Converted (c₁.session.identifier id).type init init' none c₂) (built :
      c₂.Built .variable (id :: bounds.length :: flagWord true :: loc) (bounds ++ [init']) n c) :
    c₀.Leads (Variable id bounds type) (Clause.slots IsInitializer ⟨init, true⟩ ++
      Slot.each IsBound bounds) (fun _ => True) [⟨n, IsDeclared⟩] c := by
  refine .of_effect (fun dirty =>
    built.dirty (converted.dirty (checked.dirty dirty))) fun tables known => ?_
  obtain ⟨rfl, -⟩ | dirty := checked
  · rw [known.names.type] at converted
    have first := (converted.suits known.valid).frame (Slot.each IsBound bounds)
    obtain ⟨t, rfl, -⟩ := converted
    have later : Variable id bounds type (c₁.withTree t).session :=
      ⟨⟨known.names.pos, known.names.low, known.names.kind, known.names.type⟩,
        known.valid, known.bare⟩
    exact first.trans (built.variable later (by simp [Clause.Marked]))
  · exact .of_dirty (built.dirty (converted.dirty dirty))

/-- A variable without an initializer. -/
theorem Built.uninitialized {id : Int} {bounds : List Handle}
    {ok : Bool} {init n : Handle} {type : TypeId} {loc : List Int}
    (checked : c₀.BoundsChecked bounds ok c₁) (marked : Clause.Marked ⟨init, false⟩) (built :
      c₁.Built .variable (id :: bounds.length :: flagWord false :: loc) (bounds ++ [init]) n c) :
    c₀.Leads (Variable id bounds type) (Clause.slots IsInitializer ⟨init, false⟩ ++
      Slot.each IsBound bounds) (fun _ => True) [⟨n, IsDeclared⟩] c := by
  refine .of_effect (fun dirty => built.dirty (checked.dirty dirty)) fun tables known => ?_
  obtain ⟨rfl, -⟩ | dirty := checked
  · exact built.variable known marked
  · exact .of_dirty (built.dirty dirty)

@[spec] theorem variableDeclaration_spec (id : Int) (bounds : List Handle)
    (init : Handle) (hasInit : Bool) (loc : Location) :
    ⦃fun c => ⌜c = c₀⌝⦄ variableDeclaration id bounds init hasInit loc ⦃⇓? n c => ⌜∀ type,
    Clause.Marked ⟨init, hasInit⟩ → c₀.Leads (Variable id bounds type) (Clause.slots IsInitializer
      ⟨init, hasInit⟩ ++ Slot.each IsBound bounds) (fun _ => True) [⟨n, IsDeclared⟩] c⌝⦄ := by
  mvcgen [variableDeclaration, currentSession]
  all_goals subst_vars
  case vc1 zero _ =>
    refine fun type _ => .of_effect (fun dirty => dirty) fun _ known => ?_
    have pos := known.names.pos
    rw [beq_iff_eq] at zero
    omega
  case vc2 dirty _ _ failed _ _ _ _ => exact fun _ _ => .of_dirty (failed.dirty dirty)
  case vc3 dirty _ _ _ converted _ _ _ _ _ => exact fun _ _ => .of_dirty (converted.dirty dirty)
  case vc4 missing _ right => simp [missing] at right
  case vc5 dirty _ _ _ _ => exact fun _ _ => .of_dirty dirty
  case vc6 missing _ _ _ _ _ _ _ _ right _ _ => simp [missing] at right
  case vc7 checked _ _ failed _ _ _ _ =>
    refine fun type _ => .of_effect (fun dirty => failed.dirty (checked.dirty dirty)) fun _ _ => ?_
    obtain ⟨broken, rfl⟩ | dirty := failed
    · obtain ⟨rfl, -⟩ | dirty := checked
      · exact .of_broken (by simp [Clause.slots]) broken
      · exact .of_dirty dirty
    · exact .of_dirty dirty
  case vc8 checked _ _ _ converted _ _ right _ failed =>
    refine fun type _ =>
      .of_effect (fun dirty => converted.dirty (checked.dirty dirty)) fun _ _ => ?_
    simp only [right, Bool.or_false, Bool.not_eq_true'] at failed
    rw [failed] at checked
    exact fun w base state => .inl (converted.dirty (checked.failed state))
  case vc9 checked _ _ _ converted _ _ _ _ _ _ _ =>
    exact fun built type _ => built.initialized checked converted
  case vc10 right _ checked _ _ _ failed =>
    refine fun type _ => .of_effect checked.dirty fun _ _ => ?_
    simp only [right, Bool.or_false, Bool.not_eq_true'] at failed
    rw [failed] at checked
    exact fun w base state => .inl (checked.failed state)
  case vc11 checked _ _ without _ _ _ =>
    rw [Bool.not_eq_true] at without
    subst without
    exact fun built type marked => built.uninitialized checked marked

/-! ## Types -/

@[spec] theorem typeDefinition_spec (type : TypeId) (spelling : Int) (loc : Location) :
    ⦃fun c => ⌜c = c₀⌝⦄ typeDefinition type spelling loc
    ⦃⇓? n c => ⌜c₀.Leads (fun s => s.Whole type) [] (fun _ => True) [⟨n, IsDeclared⟩] c⌝⦄ := by
  mvcgen [typeDefinition]
  all_goals subst_vars
  case vc1 declared _ _ =>
    obtain ⟨s, done, rfl⟩ := declared
    intro built
    have first := leads_declare (P := fun s => s.Whole type) done fun _ whole =>
      ⟨whole.valid, fun _ => whole.noFunction, fun _ => whole.noArray, by simp, .inr (.inl rfl),
        fun _ => whole.defined⟩
    refine first.trans (.of_effect built.dirty fun _ _ => ?_)
    refine built.effect rfl rfl fun w trees rest stands fits node kind args kids => ?_
    rw [fits_nil.mp fits] at kids
    exact ⟨.inl ⟨kind, kids⟩, refers_anonymous kind rfl (by simp [Kind.isExpression])⟩
  case vc2 dirty => exact .of_dirty dirty

@[spec] theorem namedType_spec (spelling : Int) :
    ⦃fun c => ⌜c = c₀⌝⦄ namedType? spelling
    ⦃⇓? out c => ⌜c = c₀ ∧ ∀ type ∈ out, c₀.session.Tables → c₀.session.Whole type⌝⦄ := by
  mvcgen [namedType?, lookup, currentSession]
  all_goals subst_vars
  refine ⟨rfl, fun type found tables => ?_⟩
  split at found
  · cases found
  next named =>
    cases found
    simp only [Bool.or_eq_true, not_or, bne_iff_ne, ne_eq, not_not] at named
    have declared := declared_of_kind (ne_of_eq_of_ne named.2 (by decide))
    exact ⟨⟨⟨(tables.entries _).type,
      tables.defined _ declared.1 declared.2 (by rw [Identifier.HasType, named.2]; decide)⟩,
      (tables.entries _).value (.inr named.2)⟩, (tables.entries _).whole named.2⟩

@[spec] theorem builtin_spec (spelling : Int) :
    ⦃fun c => ⌜c = c₀⌝⦄ builtin? spelling
    ⦃⇓? out c => ⌜c = c₀ ∧ ∀ b ∈ out, c₀.session.Tables → b.isListed = true⌝⦄ := by
  mvcgen [builtin?, lookup, currentSession]
  all_goals subst_vars
  refine ⟨rfl, fun b found tables => ?_⟩
  split at found
  · cases found
  next named =>
    cases found
    simp only [Bool.or_eq_true, not_or, bne_iff_ne, ne_eq, not_not] at named
    exact (tables.entries _).library named.2

@[spec] theorem tagSpelling_spec (tag : Int) :
    ⦃fun c => ⌜c = c₀⌝⦄ tagSpelling tag ⦃⇓? _ c => ⌜c₀.Effect [] [] c⌝⦄ := by
  mvcgen [tagSpelling, currentSession]
  all_goals subst_vars
  exact .update id fun _ _ _ stands _ => stands.tables.updates_intern _

/-! ## Structures -/

@[spec] theorem fieldProblem_spec (seen : List Int) (f : WrittenField) :
    ⦃fun c => ⌜c = c₀⌝⦄ fieldProblem seen f
    ⦃⇓? out c => ⌜c = c₀ ∧ (out = none → c₀.session.types.isArray f.type = false)⌝⦄ := by
  mvcgen [fieldProblem, types, currentSession]
  all_goals subst_vars
  case vc4 notArray _ _ => exact ⟨rfl, by simpa using notArray⟩
  all_goals exact ⟨rfl, by simp⟩

/-- All fields are right and none is an array, or a report was made. -/
def FieldsChecked (c₀ : Checker) (fields : List WrittenField) (ok : Bool) (c : Checker) : Prop :=
  (ok = true → c = c₀ ∧ ∀ f ∈ fields, c₀.session.types.isArray f.type = false) ∧
    (ok = false → c.Dirty)

@[spec] theorem checkFields_spec (seen : List Int) (fields : List WrittenField) :
    ⦃fun c => ⌜c = c₀⌝⦄ checkFields seen fields ⦃⇓? ok c => ⌜c₀.FieldsChecked fields ok c⌝⦄ := by
  induction fields generalizing c₀ seen with
  | nil =>
    mvcgen [checkFields]
    subst_vars
    exact ⟨fun _ => ⟨rfl, by simp⟩, by simp⟩
  | cons f rest ih =>
    mvcgen [checkFields, ih]
    all_goals subst_vars
    case vc1 dirty ok _ later _ =>
      refine ⟨by simp, fun _ => ?_⟩
      cases ok with
      | true => exact (later.1 rfl).1 ▸ dirty
      | false => exact later.2 rfl
    case vc2 problem none _ found ok _ later _ =>
      obtain ⟨rfl, fine⟩ := found
      obtain rfl : problem = .none := Option.eq_none_iff_forall_ne_some.mpr none
      refine ⟨fun all => ?_, fun failed => later.2 (by simpa using failed)⟩
      obtain ⟨same, others⟩ := later.1 (by simpa using all)
      exact ⟨same, List.forall_mem_cons.mpr ⟨fine rfl, others⟩⟩

/-- Fields that were read: their types were made, and expressions are left in the way only if one of
them is an array. -/
structure FieldsRead (fields : List WrittenField) (strays : List Slot) (s : Session) : Prop where
  made : ∀ f ∈ fields, s.Made f.type
  array : strays ≠ [] → ∃ f ∈ fields, s.types.isArray f.type = true

theorem FieldsChecked.dirty {fields : List WrittenField} {ok : Bool}
    (checked : c₀.FieldsChecked fields ok c) (dirty : c₀.Dirty) : c.Dirty := by
  cases ok with
  | true => exact (checked.1 rfl).1 ▸ dirty
  | false => exact checked.2 rfl

/-- A structure of fields that are right. -/
theorem FieldsChecked.structure {fields : List WrittenField} {strays : List Slot}
    {s : Session} {type : TypeId} (checked : c₀.FieldsChecked fields true c₁)
    (done : c₁.session.structType (fields.map fun f => ⟨f.type, f.name⟩) = .ok (s, type)) :
    c₀.Leads (FieldsRead fields strays) strays (fun s => s.Whole type) [] (c₁.withSession s) := by
  obtain ⟨rfl, noArray⟩ := checked.1 rfl
  have made := leads_structType done
  cases strays with
  | nil =>
    refine made.imp (fun _ read f mem => ?_) fun _ whole => whole
    obtain ⟨f, written, rfl⟩ := List.mem_map.mp mem
    exact read.made f written
  | cons stray strays =>
    refine .absurd made.dirty fun _ read => ?_
    obtain ⟨f, written, isArray⟩ := read.array (List.cons_ne_nil _ _)
    rw [noArray f written] at isArray
    cases isArray

@[spec] theorem declareStructure_spec (tag : Int) (fields : List WrittenField) (loc : Location) :
    ⦃fun c => ⌜c = c₀⌝⦄ declareStructure tag fields loc ⦃⇓? type c => ⌜∀ strays,
    c₀.Leads (FieldsRead fields strays) strays (fun s => s.Whole type) [] c⌝⦄ := by
  mvcgen [declareStructure, currentSession]
  all_goals subst_vars
  case vc1 failed _ checked =>
    rw [Bool.not_eq_true'] at failed
    exact fun strays => .of_dirty (checked.2 failed)
  case vc2 right _ checked _ made _ _ _ _ _ _ _ declared interned =>
    rw [Bool.not_eq_true', Bool.not_eq_false] at right
    rw [right] at checked
    obtain ⟨s, done, rfl⟩ := declared
    refine fun strays => (checked.structure made).trans ((interned.leads (stable_whole _)).trans ?_)
    have named := leads_declare (P := fun s => s.Whole _) done fun _ whole =>
      ⟨whole.valid, fun _ => whole.noFunction, fun _ => whole.noArray, by simp, .inr (.inl rfl),
        fun _ => whole.defined⟩
    exact (named.frame (stable_whole _)).imp (fun _ whole => ⟨whole, whole⟩) fun _ known => known.2
  case vc3 dirty _ => exact fun strays => .of_dirty dirty
  case vc4 right _ checked _ made _ _ _ =>
    rw [Bool.not_eq_true', Bool.not_eq_false] at right
    rw [right] at checked
    exact fun strays => checked.structure made

@[spec] theorem structureOf_spec (tag : Int) (loc : Location) :
    ⦃fun c => ⌜c = c₀⌝⦄ structureOf tag loc
    ⦃⇓? type c => ⌜c₀.Leads (fun _ => True) [] (fun s => s.Whole type) [] c⌝⦄ := by
  mvcgen [structureOf, currentSession]
  all_goals subst_vars
  case vc1 effect type _ found =>
    obtain ⟨rfl, whole⟩ := found
    exact (effect.leads (stable_const True)).trans (.learn fun _ _ stands _ =>
      whole type rfl stands.tables)
  case vc2 dirty => exact .of_dirty dirty

@[spec] theorem declaration_spec (parts : List Handle) (loc : Location) :
    ⦃fun c => ⌜c = c₀⌝⦄ declaration parts loc
    ⦃⇓? n c => ⌜c₀.Effect (Slot.each IsDeclared parts) [⟨n, IsDeclaration⟩] c⌝⦄ := by
  mvcgen [declaration]
  all_goals subst_vars
  refine fun built => built.effect (by rw [handles_each, List.reverse_reverse]) rfl
    fun w trees rest stands fits node kind args kids =>
    ⟨⟨kind, fun x mem => ?_⟩, refers_anonymous kind rfl (by simp [Kind.isExpression])⟩
  exact (fits_each.mp fits).2 x (by simpa [kids] using mem)

/-! ## Functions -/

/-- A number is that of a declared function. -/
def NamesFunction (id : Int) (s : Session) : Prop := ∃ type, s.Names id .function type

theorem stable_namesFunction (id : Int) : Stable (NamesFunction id) :=
  fun s t tables grows ⟨type, names⟩ =>
    ⟨type, stable_names id .function type s t tables grows names⟩

/-- Where functions were declared is of no account. -/
theorem leads_places (c : Checker) (places : List (Int × Location)) (P : Session → Prop) :
    c.Leads P [] P [] { c with functionPlaces := places } := by
  rintro w base (dirty | ⟨trees, stands, fits, p⟩)
  · exact .inl dirty
  · exact .inr ⟨trees, { stands with
      labels := stands.labels.congr rfl (.refl _) (.refl _) fun _ mem => mem
      keeps := stands.keeps.trans ⟨.refl _, rfl, rfl, rfl, rfl, rfl⟩ }, fits, p⟩

@[spec] theorem declareFunction_spec (spelling : Int) (type : TypeId) (loc : Location) :
    ⦃fun c => ⌜c = c₀⌝⦄ declareFunction spelling type loc
    ⦃⇓? id c => ⌜c₀.Leads (IsFunctionType type) [] (NamesFunction id) [] c⌝⦄ := by
  mvcgen [declareFunction, currentSession, lookup]
  all_goals subst_vars
  case vc1 known _ =>
    simp only [Bool.and_eq_true, beq_iff_eq] at known
    have declared := declared_of_kind (by rw [known.1.2]; decide)
    exact .learn fun _ _ _ _ => ⟨_, declared.1, declared.2, known.1.2, rfl⟩
  case vc3 declared _ =>
    obtain ⟨s, done, rfl⟩ := declared
    have named := leads_declare (P := IsFunctionType type) done fun _ isFunction =>
      ⟨isFunction.1.valid, by simp, by simp, fun _ => isFunction.2, .inr (.inr (.inl rfl)),
        fun _ => isFunction.1.defined⟩
    exact (named.imp (fun _ known => known) fun _ names => ⟨type, names⟩).trans (leads_places _ _ _)
  all_goals exact .of_dirty ‹_›

@[spec] theorem declareParameters_spec (parameters : List Parameter) :
    ⦃fun c => ⌜c = c₀⌝⦄ declareParameters parameters ⦃⇓? _ c =>
    ⌜c₀.Leads (fun s => ∀ p ∈ parameters, s.Valued p.type) [] (fun _ => True) [] c⌝⦄ := by
  induction parameters generalizing c₀ with
  | nil =>
    mvcgen [declareParameters]
    subst_vars
    exact .learn fun _ _ _ _ => trivial
  | cons p rest ih =>
    mvcgen [declareParameters, declareParameters.ignore, ih]
    all_goals subst_vars
    case vc1 dirty _ _ => exact fun later => .of_dirty (later.dirty dirty)
    case vc2 first _ _ =>
      intro later
      have others : Stable fun s => ∀ p ∈ rest, s.Valued p.type :=
        .all fun p => stable_valued p.type
      exact ((first.frame others).imp (fun _ => List.forall_mem_cons.mp) fun _ known =>
        known.2).trans later

end Checker

end BilingualC
