import Mathlib
import BilingualC.Proofs.Grammar.Expression

/-!
# What grammar rules of declarations do

A type specifier gives a type that is whole. The bounds of fields leave expressions behind that
belong to no node; they are in the way only if a field is an array, which is refused
(`Checker.FieldsRead`). Declarations of variables take their bounds and initializers, and a
declaration takes its parts.
-/

namespace BilingualC

namespace Grammar

open Checker Rose Session

/-! ## Types -/

/-- A type that is made of others, between any claims. -/
theorem Does.make {β : Type} {pre : Claim} (mid : TypeId → Claim)
    (make : Session → Session × TypeId) {rest : TypeId → Parse β}
    {post : β → Claim} (dirty : ∀ c : Checker, c.Dirty → (c.withSession (make c.session).1).Dirty)
    (step : ∀ (c : Checker) w base, pre.holds w base c →
      (mid (make c.session).2).holds w base (c.withSession (make c.session).1))
    (later : ∀ id, Does (mid id) (rest id) post) : Does pre (do
      let s ← liftM currentSession
      liftM (setSession (make s).1)
      rest (make s).2) post := by
  intro r c a r' c' run recovers
  obtain ⟨s, _, _, got, run⟩ := run_bind.mp run
  cases got
  obtain ⟨_, _, _, set, run⟩ := run_bind.mp run
  cases set
  obtain ⟨recovers', errors, holds⟩ := later _ _ _ _ _ _ run fun on => dirty c (recovers on)
  exact ⟨recovers', fun error => errors (dirty c error),
    fun w base known => holds w base (step c w base known)⟩

/-- A type that is made of others. -/
theorem Does.makeType {β : Type} {P : Session → Prop}
    {Q : TypeId → Session → Prop} {ins outs : List Slot}
    (make : Session → Session × TypeId) {rest : TypeId → Parse β} {post : β → Claim} (step :
      ∀ c : Checker, c.Leads P ins (Q (make c.session).2) outs (c.withSession (make c.session).1))
    (later : ∀ id, Does (.known (Q id) outs) (rest id) post) : Does (.known P ins) (do
      let s ← liftM currentSession
      liftM (setSession (make s).1)
      rest (make s).2) post :=
  .make (fun id => .known (Q id) outs) make (fun c => (step c).dirty) (fun c w base =>
    step c w base) later

theorem does_arrayOf (type : TypeId) : Does (.fact fun s => s.Made type) (arrayOf type) fun id =>
    .fact fun s => s.Valued id ∧ s.types.isArray id = true :=
  .makeType (·.arrayType type) (Q := fun id s => s.Valued id ∧ s.types.isArray id = true)
    (fun c => leads_arrayType c type) fun _ => .pure rfl

theorem does_stars (depth : Nat) (type : TypeId) :
    Does (.fact fun s => s.Whole type) (stars depth type) fun id => .fact fun s => s.Whole id := by
  induction depth generalizing type with
  | zero => exact .throw _
  | succ depth ih =>
    refine .within _ (.bind (.accept _) fun _ => .ite (fun _ => .pure rfl) fun _ => ?_)
    exact .makeType (·.pointerType type) (Q := fun id s => s.Whole id) (fun c =>
      (leads_pointerType c type).imp (fun _ whole => whole.toMade) fun _ whole => whole) ih

/-- The type that an identifier names. -/
theorem does_typeNamed (tok : Token) : Does (.slots []) (typeNamed? tok) fun type => .fact fun s =>
    ∀ x ∈ type, s.Whole x := by
  refine .ite (fun _ => .leads fun run => ?_) fun _ => ?_
  · obtain ⟨rfl, whole⟩ := of_run (namedType_spec tok.spelling) run
    exact .learn fun w trees stands _ type found => whole type found stands.tables
  · have unnamed :
      Does (.fact fun s => ∀ x ∈ (none : Option TypeId), s.Whole x) (Pure.pure none) fun type =>
        .fact fun s => ∀ x ∈ type, s.Whole x := .pure rfl
    exact unnamed.given (by simp)

/-! ## Structures -/

/-- A field whose bounds were read, and the expressions that they left behind. -/
def Bounded (type : TypeId) (strays : List Slot) (s : Session) : Prop :=
  s.Valued type ∧ (strays ≠ [] → s.types.isArray type = true)

theorem stable_isArray (type : TypeId) : Stable fun s => s.types.Valid type ∧
    s.types.isArray type = true := by
  refine fun s t tables grows known => ⟨known.1.continue grows.types, ?_⟩
  rw [TypeTable.isArray, grows.form known.1 tables.types.size]
  exact known.2

theorem stable_fieldsRead (fields : List WrittenField) (strays : List Slot) :
    Stable (FieldsRead fields strays) := by
  refine fun s t tables grows read =>
    ⟨fun f mem => stable_made f.type s t tables grows (read.made f mem), fun left => ?_⟩
  obtain ⟨f, mem, isArray⟩ := read.array left
  exact ⟨f, mem, (stable_isArray f.type s t tables grows ⟨(read.made f mem).valid, isArray⟩).2⟩

theorem stable_bounded (type : TypeId) (strays : List Slot) : Stable (Bounded type strays) := by
  refine fun s t tables grows known => ⟨stable_valued type s t tables grows known.1, fun left => ?_⟩
  exact (stable_isArray type s t tables grows ⟨known.1.valid, known.2 left⟩).2

theorem does_fieldBounds (depth : Nat) (type : TypeId) (strays : List Slot) :
    Does (.known (Bounded type strays) strays) (fieldBounds depth type) fun id =>
      .some fun strays => .known (Bounded id strays) strays := by
  induction depth generalizing type strays with
  | zero => exact .throw _
  | succ depth ih =>
    have array (strays : List Slot) :
      Does (.known (fun s => s.Valued type) strays) (arrayOf type) fun id =>
        .known (Bounded id strays) strays :=
      (((does_arrayOf type).below fun _ => strays).given fun _ _ valued =>
        valued.toMade).gives fun _ _ _ made =>
        ⟨made.1, fun _ => made.2⟩
    have tail (strays : List Slot) : Does (.known (fun s => s.Valued type) strays)
        (do want .rightBracket "]"; fieldBounds depth (← arrayOf type)) fun id =>
        .some fun strays => .known (Bounded id strays) strays :=
      .bind (.want _ _) fun _ => .bind (array strays) fun id => ih id strays
    refine .within _ (.bind (.accept _) fun _ =>
      .ite (fun _ => .intro (fun _ => strays) (.pure rfl)) fun _ => ?_)
    refine Does.given (P := fun s => s.Valued type) ?_ fun _ _ bounded => bounded.1
    refine .bind (.check _) fun _ => .ite (fun _ => ?_) fun _ => tail strays
    exact .bind
      ((expressionRules depth).conditionalExpression.carry (stable_valued type) strays) fun n =>
      tail ([.expr n] ++ strays)

theorem does_fieldList (depth : Nat) (base : TypeId) :
    Does (.fact fun s => s.Whole base) (fieldList depth base) fun fields =>
      .some fun strays => .known (FieldsRead fields strays) strays := by
  induction depth with
  | zero => exact .throw _
  | succ depth ih =>
    have first : Does (.fact fun s => s.Whole base) (stars depth base) fun type => .fact fun s =>
      s.Whole type ∧ s.Whole base :=
      ((does_stars depth base).frame (stable_whole base)).given fun _ _ whole => ⟨whole, whole⟩
    refine .within _ (.bind first fun type => .bind .current fun name => .expectElse _ _ ?_)
    have bounded :
      Does (.fact fun s => s.Whole type ∧ s.Whole base) (fieldBounds depth type) fun id =>
        .some fun strays => .known (fun s => Bounded id strays s ∧ s.Whole base) strays := by
      have kept := (does_fieldBounds depth type []).keepSome (stable_whole base) []
      simp only [List.append_nil] at kept
      exact kept.given fun _ _ whole => ⟨⟨whole.1.toValued, by simp⟩, whole.2⟩
    refine .bind bounded fun id => .elim fun strays => .bind (.accept _) fun _ =>
      .ite (fun _ => ?_) fun _ => ?_
    · have more := (ih.keepSome (stable_bounded id strays) strays).given (N := fun s =>
        Bounded id strays s ∧ s.Whole base) fun _ _ known => ⟨known.2, known.1⟩
      refine .bind more fun fields => .elim fun strays' => .intro (fun _ => strays' ++ strays) ?_
      refine Does.given (P := FieldsRead (⟨name.spelling, id, name.loc⟩ :: fields)
        (strays' ++ strays)) (.pure rfl) ?_
      rintro s - ⟨read, bounded⟩
      refine ⟨List.forall_mem_cons.mpr ⟨bounded.1.toMade, read.made⟩, fun left => ?_⟩
      by_cases empty : strays' = []
      · subst empty
        exact ⟨_, List.mem_cons_self, bounded.2 left⟩
      · obtain ⟨f, mem, isArray⟩ := read.array empty
        exact ⟨f, List.mem_cons_of_mem _ mem, isArray⟩
    · refine .intro (fun _ => strays)
        (Does.given (P := FieldsRead [⟨name.spelling, id, name.loc⟩] strays) (.pure rfl) ?_)
      rintro s - ⟨bounded, -⟩
      exact ⟨List.forall_mem_singleton.mpr bounded.1.toMade,
        fun left => ⟨_, List.mem_singleton_self _, bounded.2 left⟩⟩

/-- What the rules of type specifiers do when they may nest so deep. -/
structure SpecifierRules (depth : Nat) : Prop where
  typeSpecifier : Does (.slots []) (typeSpecifier depth) fun type => .fact fun s =>
    ∀ x ∈ type, s.Whole x
  structureSpecifier : ∀ start, Does (.slots []) (structureSpecifier depth start) fun type =>
    .fact fun s => s.Whole type
  members : Does (.slots []) (members depth) fun fields => .some fun strays =>
    .known (FieldsRead fields strays) strays

namespace SpecifierRules

variable {depth : Nat} (rules : SpecifierRules depth)

/-- A type that is whole is given. -/
theorem given_type (type : TypeId) :
    Does (.fact fun s => s.Whole type) (Pure.pure (some type)) fun type =>
    .fact fun s => ∀ x ∈ type, s.Whole x := by
  have found : Does (.fact fun s => ∀ x ∈ some type, s.Whole x) (Pure.pure (some type)) fun type =>
    .fact fun s => ∀ x ∈ type, s.Whole x := .pure rfl
  exact found.given (by simp)

include rules

theorem typeSpecifier_succ : Does (.slots []) (Grammar.typeSpecifier (depth + 1)) fun type =>
    .fact fun s => ∀ x ∈ type, s.Whole x := by
  have scalar {type : TypeId} (low : type < 0) :
    Does (.slots []) (do Grammar.advance; return some type) fun type =>
      .fact fun s => ∀ x ∈ type, s.Whole x :=
    .bind .advance fun _ => (given_type type).given fun _ _ _ => whole_scalar low
  refine .within _ (.bind .current fun tok => ?_)
  split
  next => exact scalar (by decide)
  next => exact scalar (by decide)
  next => exact scalar (by decide)
  next => exact scalar (by decide)
  next => exact scalar (by decide)
  next => exact scalar (by decide)
  next => exact .bind .advance fun _ => .bind (rules.structureSpecifier _) given_type
  next =>
    refine .bind (does_typeNamed tok) fun type => ?_
    cases type with
    | none => exact .pure rfl
    | some type => exact .bind .advance fun _ => (given_type type).given (by simp)

theorem structureSpecifier_succ (start : Location) :
    Does (.slots []) (Grammar.structureSpecifier (depth + 1) start) fun type => .fact fun s =>
    s.Whole type := by
  refine .within _ (.bind .current fun tok => .bind (.accept _) fun tagged =>
    .bind (.accept _) fun opened => .ite (fun _ => ?_) fun _ => ?_)
  · refine .ite (fun _ => .leads fun run => (of_run (structureOf_spec _ _) run :)) fun _ => ?_
    exact .bind (.reportMissing _) fun _ => .pure rfl
  · refine .bind rules.members fun fields => .elim fun strays => .bind (.want _ _) fun _ =>
      .bind (.spanFrom _) fun loc => ?_
    exact .leads fun run => of_run (declareStructure_spec _ fields loc) run strays

theorem members_succ : Does (.slots []) (Grammar.members (depth + 1)) fun fields =>
    .some fun strays => .known (FieldsRead fields strays) strays := by
  refine .within _ (.bind (.check _) fun _ => .bind (.check _) fun _ =>
    .ite (fun _ => ?_) fun _ => ?_)
  · refine .intro (fun _ => []) (Does.given (P := FieldsRead [] []) (.pure rfl) ?_)
    exact fun _ _ _ => ⟨by simp, by simp⟩
  · refine .bind rules.typeSpecifier fun type => ?_
    cases type with
    | none => exact .bind (.reportMissing _) fun _ => .bind .synchronize fun _ => rules.members
    | some base =>
      refine .bind ((does_fieldList depth base).given (by simp)) fun fields =>
        .elim fun strays => ?_
      refine .bind (.want _ _) fun _ => .bind .synchronize fun _ => ?_
      have more := (rules.members.keepSome (stable_fieldsRead fields strays) strays).given
        (N := FieldsRead fields strays) fun _ _ read => ⟨True.intro, read⟩
      refine .bind more fun others => .elim fun strays' => .intro (fun _ => strays' ++ strays) ?_
      refine Does.given (P := FieldsRead (fields ++ others) (strays' ++ strays)) (.pure rfl) ?_
      rintro s - ⟨later, first⟩
      refine ⟨fun f mem => (List.mem_append.mp mem).elim (first.made f) (later.made f),
        fun left => ?_⟩
      by_cases empty : strays' = []
      · obtain ⟨f, mem, isArray⟩ := first.array (by simpa [empty] using left)
        exact ⟨f, List.mem_append_left _ mem, isArray⟩
      · obtain ⟨f, mem, isArray⟩ := later.array empty
        exact ⟨f, List.mem_append_right _ mem, isArray⟩

end SpecifierRules

/-- The rules of type specifiers, however deep they nest. -/
theorem specifierRules (depth : Nat) : SpecifierRules depth := by
  induction depth with
  | zero => constructor <;> intros <;> exact .throw _
  | succ depth rules =>
    exact ⟨rules.typeSpecifier_succ, rules.structureSpecifier_succ, rules.members_succ⟩

/-! ## Variables -/

/-- The bounds of a variable and the type that they make of the type of its elements. -/
def Bounds (elements : TypeId) (bounds : List Handle) (type : TypeId) (s : Session) : Prop :=
  s.Valued type ∧ (bounds = [] → type = elements)

theorem does_bounds (depth : Nat) (type : TypeId) :
    Does (.fact fun s => s.Valued type) (bounds depth type) fun out =>
    .known (Bounds type out.1 out.2) (Slot.each IsBound out.1) := by
  induction depth generalizing type with
  | zero => exact .throw _
  | succ depth ih =>
    have none :
      Does (.fact fun s => s.Valued type) (Pure.pure (([] : List Handle), type)) fun out =>
        .known (Bounds type out.1 out.2) (Slot.each IsBound out.1) :=
      Does.given (P := Bounds type [] type) (.pure rfl) fun _ _ valued => ⟨valued, fun _ => rfl⟩
    have tail (n : Handle) : Does (.known (fun s => s.Valued type) [.bound n])
        (do
          want .rightBracket "]"
          let out ← bounds depth (← arrayOf type)
          return (n :: out.1, out.2))
        fun out => .known (Bounds type out.1 out.2) (Slot.each IsBound out.1) := by
      have array := ((does_arrayOf type).below fun _ => [.bound n]).given (N := fun s =>
        s.Valued type) fun _ _ valued => valued.toMade
      refine .bind (.want _ _) fun _ => .bind array fun id => ?_
      refine .bind (((ih id).below fun _ => [.bound n]).given fun _ _ made => made.1) fun out => ?_
      refine Does.given (P := Bounds type (n :: out.1) out.2)
        (.pure (by rw [Slot.each_cons]; rfl)) ?_
      exact fun _ _ made => ⟨made.1, by simp⟩
    refine .within _ (.bind .current fun opening => .bind (.accept _) fun _ =>
      .ite (fun _ => none) fun _ => ?_)
    refine .bind (.check _) fun _ => .ite (fun _ => .bind .current fun closing => ?_) fun _ => ?_
    · exact .bind (.carry (.effect fun run => (of_run (emptyBound_spec _) run :))
        (stable_valued type) []) tail
    · refine .bind (((expressionRules depth).conditionalExpression.carry (stable_valued type)
        []).weaken fun n _ => ?_) tail
      exact .cons ⟨rfl, fun _ => .inr⟩ .nil

theorem stable_variable (id : Int) (bounds : List Handle) (type : TypeId) :
    Stable (Variable id bounds type) := by
  refine fun s t tables grows known => ⟨stable_names id _ type s t tables grows known.names,
    known.valid.continue grows.types, fun bare => ?_⟩
  rw [TypeTable.isArray, grows.form known.valid tables.types.size]
  exact known.bare bare

/-- The declaration of a variable after its bounds. -/
theorem does_declareVariable (elements type : TypeId) (bounds : List Handle) (name : Token) : Does
    (.known (fun s => Bounds elements bounds type s ∧ s.Whole elements) (Slot.each IsBound bounds))
    (liftM (Checker.declareVariable type name.spelling name.loc)) fun id =>
      .known (Variable id bounds type) (Slot.each IsBound bounds) := by
  have named : Does (.fact fun s => s.Valued type)
    (liftM (Checker.declareVariable type name.spelling name.loc)) fun id =>
      .fact fun s => s.Names id .variable type :=
    .leads fun run => (of_run (declareVariable_spec type _ _) run :)
  have stable : Stable fun s => Bounds elements bounds type s ∧ s.Whole elements :=
    ((stable_valued type).and (stable_const _)).and (stable_whole elements)
  refine ((named.keep stable (Slot.each IsBound bounds)).given fun _ _ known =>
    ⟨known.1.1, known⟩).gives fun id s _ known => ?_
  obtain ⟨names, bounded, whole⟩ := known
  exact ⟨names, bounded.1.valid, fun bare => bounded.2 bare ▸ whole.noArray⟩

theorem does_declarator (depth : Nat) (type : TypeId) :
    Does (.fact fun s => s.Whole type) (declarator depth type) fun n =>
    .slots [⟨n, IsDeclared⟩] := by
  refine .within _ (.bind .current fun name => .expectElse _ _ ?_)
  have bounded : Does (.fact fun s => s.Whole type) (bounds depth type) fun out =>
      .known (fun s => Bounds type out.1 out.2 s ∧ s.Whole type) (Slot.each IsBound out.1) :=
    ((does_bounds depth type).frame (stable_whole type)).given fun _ _ whole =>
      ⟨whole.toValued, whole⟩
  refine .bind bounded fun out => ?_
  obtain ⟨bounds, elements⟩ := out
  refine .bind (does_declareVariable type elements bounds name) fun id =>
    .bind (.accept _) fun hasInit => .ite (fun written => ?_) fun missing => ?_
  · subst written
    refine .bind ((initializerRules depth).initializer.carry (stable_variable id bounds elements) _)
      fun init => ?_
    exact .bind (.spanFrom _) fun loc => .leads fun run =>
      of_run (variableDeclaration_spec id bounds init true loc) run elements
        (by simp [Clause.Marked])
  · obtain rfl : hasInit = false := by simpa using missing
    exact .pass (.bind (.spanFrom _) fun loc => .leads fun run =>
      of_run (variableDeclaration_spec id bounds .broken false loc) run elements fun _ => rfl)

theorem does_declaratorList (depth : Nat) (base : TypeId) :
    Does (.fact fun s => s.Whole base) (declaratorList depth base) fun parts =>
    .slots (Slot.each IsDeclared parts) := by
  induction depth with
  | zero => exact .throw _
  | succ depth ih =>
    have type : Does (.fact fun s => s.Whole base) (stars depth base) fun type => .fact fun s =>
      s.Whole type ∧ s.Whole base :=
      ((does_stars depth base).frame (stable_whole base)).given fun _ _ whole => ⟨whole, whole⟩
    have first (type : TypeId) :
      Does (.fact fun s => s.Whole type ∧ s.Whole base) (declarator depth type) fun n =>
        .known (fun s => s.Whole base) [⟨n, IsDeclared⟩] :=
      ((does_declarator depth type).frame (stable_whole base)).gives fun _ _ _ known => known.2
    refine .within _ (.bind type fun type => .bind (first type) fun n => .bind (.accept _) fun _ =>
      .ite (fun _ => ?_) fun _ => ?_)
    · refine .bind (ih.below fun _ => [⟨n, IsDeclared⟩]) fun rest => .pure ?_
      rw [Slot.each_cons]
    · exact Does.forget (.pure rfl)

/-! ## Declarations -/

theorem does_restOfDeclaration (depth : Nat) (base : TypeId) (start : Location) :
    Does (.fact fun s => s.Whole base) (restOfDeclaration depth base start) fun n =>
    .slots [⟨n, IsDeclaration⟩] := by
  have finish (parts : List Handle) : Does (.slots (Slot.each IsDeclared parts))
      (do
        want .semicolon ";"
        let loc ← spanFrom start
        Checker.declaration parts loc)
      fun n => .slots [⟨n, IsDeclaration⟩] :=
    .bind (.want _ _) fun _ => .bind (.spanFrom _) fun loc => .effect fun run =>
      (of_run (declaration_spec parts loc) run :)
  refine .within _ (.bind (.check _) fun _ => .ite (fun _ => ?_) fun _ => ?_)
  · exact .pass (Does.forget (finish []))
  · exact .bind (does_declaratorList depth base) finish

theorem does_restOfTypedef (depth : Nat) (start : Location) :
    Does (.slots []) (restOfTypedef depth start) fun n => .slots [⟨n, IsDeclaration⟩] := by
  refine .within _ (.bind (specifierRules depth).typeSpecifier fun base => ?_)
  cases base with
  | none => exact .bind (.reportMissing _) fun _ => .pure rfl
  | some base =>
    refine .bind ((does_stars depth base).given (by simp)) fun type => .bind .current fun name =>
      .expectElse _ _ ?_
    refine .bind (.want _ _) fun _ =>
      .bind (.leads fun run => (of_run (typeDefinition_spec type _ _) run :)) fun part => ?_
    exact .bind (.spanFrom _) fun loc => .effect fun run =>
      (of_run (declaration_spec [part] loc) run :)

theorem does_declaration (depth : Nat) : Does (.slots []) (declaration depth) fun n =>
    .slots [⟨n, IsDeclaration⟩] := by
  refine .within _ (.bind .current fun tok => .bind (.accept _) fun _ =>
    .ite (fun _ => does_restOfTypedef depth _) fun _ => ?_)
  refine .bind (specifierRules depth).typeSpecifier fun base => ?_
  cases base with
  | none => exact .bind (.reportMissing _) fun _ => .pure rfl
  | some base => exact (does_restOfDeclaration depth base _).given (by simp)

/-! ## Parameters -/

theorem does_parameterBounds (depth : Nat) (type : TypeId) :
    Does (.fact fun s => s.Valued type) (parameterBounds depth type) fun id => .fact fun s =>
    s.Valued id := by
  induction depth generalizing type with
  | zero => exact .throw _
  | succ depth ih =>
    refine .within _ (.bind (.accept _) fun _ => .ite (fun _ => .pure rfl) fun _ =>
      .bind (.want _ _) fun _ => ?_)
    exact .bind ((does_arrayOf type).given fun _ _ valued => valued.toMade) fun id =>
      (ih id).given fun _ _ made => made.1

/-- All parameters have types that values can have. -/
def ParametersRead (parameters : List Parameter) (s : Session) : Prop :=
  ∀ p ∈ parameters, s.Valued p.type

theorem stable_parametersRead (parameters : List Parameter) : Stable (ParametersRead parameters) :=
  .all fun p => stable_valued p.type

theorem does_parameterList (depth : Nat) : Does (.slots []) (parameterList depth) fun parameters =>
    .fact (ParametersRead parameters) := by
  induction depth with
  | zero => exact .throw _
  | succ depth ih =>
    refine .within _ (.bind .current fun start =>
      .bind (specifierRules depth).typeSpecifier fun base => ?_)
    cases base with
    | none => exact .bind (.reportMissing _) fun _ => .pure rfl
    | some base =>
      refine .bind ((does_stars depth base).given (by simp)) fun type => .bind .current fun tok =>
        .bind (.accept _) fun named => ?_
      refine .bind ((does_parameterBounds depth type).given fun _ _ whole =>
        whole.toValued) fun id => ?_
      refine .bind (.accept _) fun _ => .ite (fun _ => ?_) fun _ => ?_
      · refine .bind (ih.besides (stable_valued id)) fun rest => ?_
        refine Does.given (P := ParametersRead (_ :: rest)) (.pure rfl) fun s _ known =>
          List.forall_mem_cons.mpr ⟨?_, known.1⟩
        cases named <;> exact known.2
      · refine Does.given (P := ParametersRead [_]) (.pure rfl) fun s _ known =>
          List.forall_mem_singleton.mpr ?_
        cases named <;> exact known

theorem does_parameters (depth : Nat) : Does (.slots []) (parameters depth) fun parameters =>
    .fact (ParametersRead parameters) := by
  have none : Does (.slots []) (Pure.pure ([] : List Parameter)) fun parameters =>
    .fact (ParametersRead parameters) :=
    Does.given (P := ParametersRead []) (.pure rfl) (by simp [ParametersRead])
  refine .within _ (.bind (.check _) fun _ => .ite (fun _ => none) fun _ =>
    .bind (.check _) fun _ => ?_)
  exact .bind .peek fun _ => .ite (fun _ => .bind .advance fun _ => none) fun _ =>
    does_parameterList depth

end Grammar

end BilingualC
