import Mathlib
import BilingualC.Proofs.Checker.Statement
import BilingualC.Proofs.TypeTable.Components

/-!
# Facts about the tables

Types and declarations do not wait under the root; what is known of them is a fact about the tables.
`Checker.Leads` is an effect with a fact before and a fact after it. A fact that stays true when the
tables grow is kept by every effect (`Effect.leads`), so that facts can be framed like slots.
-/

namespace BilingualC

namespace Session

variable {s t : Session} {type : TypeId} {id : Int} {kind : IdentKind}

/-- A type that was made without an error. -/
structure Made (s : Session) (type : TypeId) : Prop where
  valid : s.types.Valid type
  defined : s.types.Defined type

/-- A type that values can have. -/
structure Valued (s : Session) (type : TypeId) : Prop extends s.Made type where
  noFunction : s.types.isFunction type = false

/-- A type that a declaration can start with: values can have it, and it is no array. -/
structure Whole (s : Session) (type : TypeId) : Prop extends s.Valued type where
  noArray : s.types.isArray type = false

/-- A number is that of a declaration. -/
structure Names (s : Session) (id : Int) (kind : IdentKind) (type : TypeId) : Prop where
  pos : 0 < id
  low : id < s.identifiers.size
  kind : (s.identifier id).kind = kind
  type : (s.identifier id).type = type

/-- A fact that stays true when the tables grow. -/
def Stable (P : Session → Prop) : Prop := ∀ s t : Session, s.Tables → s.Grows t → P s → P t

theorem stable_const (p : Prop) : Stable fun _ => p := fun _ _ _ _ known => known

theorem Stable.and {P Q : Session → Prop} (first : Stable P) (second : Stable Q) :
    Stable fun s => P s ∧ Q s :=
  fun s t tables grows known => ⟨first s t tables grows known.1, second s t tables grows known.2⟩

theorem Stable.all {α : Type} {p : α → Prop} {P : α → Session → Prop} (each : ∀ a, Stable (P a)) :
    Stable fun s => ∀ a, p a → P a s :=
  fun s t tables grows known a mem => each a s t tables grows (known a mem)

theorem stable_made (type : TypeId) : Stable fun s => s.Made type :=
  fun _ _ _ grows made => ⟨made.valid.continue grows.types, made.defined.continue grows.types⟩

theorem Valued.form (valued : s.Valued type) (tables : s.Tables) (grows : s.Grows t) :
    t.types.form? type = s.types.form? type :=
  grows.form valued.valid tables.types.size

theorem stable_valued (type : TypeId) : Stable fun s => s.Valued type := by
  refine fun s t tables grows valued => ⟨stable_made type s t tables grows valued.toMade, ?_⟩
  rw [TypeTable.isFunction, valued.form tables grows]
  exact valued.noFunction

theorem stable_whole (type : TypeId) : Stable fun s => s.Whole type := by
  refine fun s t tables grows whole => ⟨stable_valued type s t tables grows whole.toValued, ?_⟩
  rw [TypeTable.isArray, whole.form tables grows]
  exact whole.noArray

theorem stable_names (id : Int) (kind : IdentKind) (type : TypeId) :
    Stable fun s => s.Names id kind type := by
  intro s t _ grows names
  have more := grows.more
  have low := names.low
  exact ⟨names.pos, by omega, (grows.kind low).trans names.kind, (grows.type low).trans names.type⟩

/-- A scalar type is no derived one. -/
theorem whole_scalar (low : type < 0) : s.Whole type :=
  ⟨⟨⟨.scalar low.le, .scalar low⟩,
    by rw [TypeTable.isFunction, TypeTable.form_of_scalar low.le]; rfl⟩,
    by rw [TypeTable.isArray, TypeTable.form_of_scalar low.le]; rfl⟩

end Session

namespace Checker

open Session

variable {c₀ c₁ c₂ c : Checker} {w : World}

/-- The state of the checker when a fact is known. -/
def StateOf (P : Session → Prop) (w : World) (slots : List Slot) (c : Checker) : Prop :=
  c.Dirty ∨ ∃ trees, c.Stands w trees ∧ c.Fits slots trees ∧ P c.session

/-- A step of the checker that needs a fact and gives one. -/
def Leads (c₀ : Checker) (P : Session → Prop) (ins : List Slot) (Q : Session → Prop)
    (outs : List Slot) (c : Checker) : Prop :=
  ∀ w base, c₀.StateOf P w (ins ++ base) → c.StateOf Q w (outs ++ base)

section Rules

variable {P P' Q Q' R : Session → Prop} {ins mid outs slots : List Slot}

theorem Leads.of_dirty (dirty : c.Dirty) : c₀.Leads P ins Q outs c := fun _ _ _ => .inl dirty

theorem Leads.trans (first : c₀.Leads P ins Q mid c₁) (second : c₁.Leads Q mid R outs c₂) :
    c₀.Leads P ins R outs c₂ :=
  fun w base state => second w base (first w base state)

/-- A step that gives a fact keeps errors. -/
theorem Leads.dirty (leads : c₀.Leads P ins Q outs c) (dirty : c₀.Dirty) : c.Dirty := by
  rcases leads ⟨{ c with function := c.function + 1 }, []⟩ [] (.inl dirty) with dirty
    | ⟨trees, stands, -⟩
  · exact dirty
  · have same : c.function = c.function + 1 := stands.keeps.function
    omega

/-- A fact that is stable is known afterwards. -/
theorem Leads.frame (leads : c₀.Leads P ins Q outs c) (stable : Stable R) :
    c₀.Leads (fun s => P s ∧ R s) ins (fun s => Q s ∧ R s) outs c := by
  rintro w base (dirty | ⟨trees, stands, fits, p, r⟩)
  · exact .inl (leads.dirty dirty)
  · rcases leads ⟨c₀, w.parts⟩ base
      (.inr ⟨trees, stands.rebase stands.loops stands.switches, fits, p⟩) with
      dirty | ⟨trees', after, fits', q⟩
    · exact .inl dirty
    · exact .inr ⟨trees', { after with keeps := stands.keeps.trans after.keeps }, fits', q,
        stable _ _ stands.tables after.keeps.grows r⟩

/-- What is known before and after a step may be said in other words. -/
theorem Leads.imp (leads : c₀.Leads P ins Q outs c)
    (pre : c₀.session.Tables → P' c₀.session → P c₀.session)
    (post : c.session.Tables → Q c.session → Q' c.session) : c₀.Leads P' ins Q' outs c := by
  intro w base state
  rcases leads w base (state.imp_right fun ⟨trees, stands, fits, p⟩ =>
    ⟨trees, stands, fits, pre stands.tables p⟩) with
    dirty | ⟨trees, stands, fits, q⟩
  · exact .inl dirty
  · exact .inr ⟨trees, stands, fits, post stands.tables q⟩

theorem Leads.below (leads : c₀.Leads P ins Q outs c) (more : List Slot) :
    c₀.Leads P (ins ++ more) Q (outs ++ more) c := by
  intro w base state
  rw [List.append_assoc] at state ⊢
  exact leads w (more ++ base) state

theorem Leads.effect (leads : c₀.Leads (fun _ => True) ins Q outs c) : c₀.Effect ins outs c := by
  intro w base state
  rcases leads w base (state.imp_right fun ⟨trees, stands, fits⟩ =>
    ⟨trees, stands, fits, trivial⟩) with
    dirty | ⟨trees, stands, fits, -⟩
  · exact .inl dirty
  · exact .inr ⟨trees, stands, fits⟩

/-- An effect keeps stable facts. -/
theorem Effect.leads (effect : c₀.Effect ins outs c) (stable : Stable R) :
    c₀.Leads R ins R outs c := by
  have plain : c₀.Leads (fun _ => True) ins (fun _ => True) outs c := by
    intro w base state
    rcases effect w base (state.imp_right fun ⟨trees, stands, fits, _⟩ =>
      ⟨trees, stands, fits⟩) with
      dirty | ⟨trees, stands, fits⟩
    · exact .inl dirty
    · exact .inr ⟨trees, stands, fits, trivial⟩
  exact (plain.frame stable).imp (fun _ known => ⟨trivial, known⟩) fun _ known => known.2

/-- What follows from the state is known. -/
theorem Leads.learn (known : ∀ w trees, c.Stands w trees → P c.session → Q c.session) :
    c.Leads P slots Q slots c :=
  fun w _ state => state.imp_right fun ⟨trees, stands, fits, p⟩ =>
    ⟨trees, stands, fits, known w trees stands p⟩

/-- A step that is an effect once a fact is known. -/
theorem Leads.of_effect (dirty : c₀.Dirty → c.Dirty)
    (effect : c₀.session.Tables → P c₀.session → c₀.Effect ins outs c) :
    c₀.Leads P ins (fun _ => True) outs c := by
  rintro w base (error | ⟨trees, stands, fits, p⟩)
  · exact .inl (dirty error)
  · exact (effect stands.tables p w base (.inr ⟨trees, stands, fits⟩)).imp_right
      fun ⟨trees, stands, fits⟩ =>
      ⟨trees, stands, fits, trivial⟩

/-- Nothing has to be said of a step that is not possible without an error. -/
theorem Leads.absurd (dirty : c₀.Dirty → c.Dirty) (never : c₀.session.Tables → ¬P c₀.session) :
    c₀.Leads P ins Q outs c := by
  rintro w base (error | ⟨trees, stands, fits, p⟩)
  · exact .inl (dirty error)
  · exact (never stands.tables p).elim

/-- A step on the tables that needs a fact and gives one. -/
theorem Leads.update {s : Session} (errors : c.Dirty → s.journal.hadError = true)
    (updates : c.session.Tables → P c.session → c.session.Updates s ∧ Q s) :
    c.Leads P slots Q slots (c.withSession s) := by
  rintro w base (dirty | ⟨trees, stands, fits, p⟩)
  · exact .inl (errors dirty)
  · obtain ⟨step, q⟩ := updates stands.tables p
    refine .inr ⟨trees, stands.update step, fits.keep fun r _ => ?_, q⟩
    rw [show (c.withSession s).session.tree = c.session.tree from step.tree]

end Rules

/-! ## Types that are made -/

section Types

variable {type : TypeId}

theorem leads_arrayType (c : Checker) (type : TypeId) : c.Leads (fun s => s.Made type) []
    (fun s => s.Valued (c.session.arrayType type).2 ∧ s.types.isArray (c.session.arrayType type).2 =
      true) [] (c.withSession (c.session.arrayType type).1) := by
  refine .update id fun tables made => ?_
  have form := TypeTable.form_array tables.types type
  refine ⟨tables.updates_types (.array made.valid),
    ⟨⟨(TypeTable.added_array tables.types made.valid).valid,
    TypeTable.defined_array tables.types made.defined⟩, ?_⟩, ?_⟩
  · rw [TypeTable.isFunction]
    exact (congrArg (· == some Form.function) form).trans rfl
  · rw [TypeTable.isArray]
    exact (congrArg (· == some Form.array) form).trans rfl

theorem leads_pointerType (c : Checker) (type : TypeId) :
    c.Leads (fun s => s.Made type) [] (fun s => s.Whole (c.session.pointerType type).2) []
    (c.withSession (c.session.pointerType type).1) := by
  refine .update id fun tables made => ?_
  have form := TypeTable.form_pointer tables.types type
  refine ⟨tables.updates_types (.pointer made.valid),
    ⟨⟨(TypeTable.added_pointer tables.types made.valid).valid,
    TypeTable.defined_pointer tables.types made.defined⟩, ?_⟩, ?_⟩
  · rw [TypeTable.isFunction]
    exact (congrArg (· == some Form.function) form).trans rfl
  · rw [TypeTable.isArray]
    exact (congrArg (· == some Form.array) form).trans rfl

/-- A type of functions. -/
def IsFunctionType (type : TypeId) (s : Session) : Prop :=
  s.Made type ∧ s.types.isFunction type = true

theorem leads_functionType (c : Checker) (result : TypeId) (parameters : List TypeId) :
    c.Leads (fun s => s.Made result ∧ ∀ p ∈ parameters, s.Made p) []
      (IsFunctionType (c.session.functionType result parameters).2) []
      (c.withSession (c.session.functionType result parameters).1) := by
  refine .update id fun tables ⟨made, all⟩ => ?_
  have valid (p : TypeId) (mem : p ∈ parameters) := (all p mem).valid
  refine ⟨tables.updates_types (.function made.valid valid),
    ⟨(TypeTable.added_function tables.types made.valid valid).valid,
    TypeTable.defined_function tables.types made.defined fun p mem => (all p mem).defined⟩, ?_⟩
  rw [TypeTable.isFunction]
  exact (congrArg (· == some Form.function)
    (TypeTable.form_function tables.types result parameters)).trans rfl

theorem leads_structType {fields : List Field} {s : Session} {type : TypeId}
    (done : c.session.structType fields = .ok (s, type)) : c.Leads (fun s =>
      ∀ f ∈ fields, s.Made f.type) [] (fun s => s.Whole type) [] (c.withSession s) := by
  obtain ⟨⟨types, id⟩, made, same⟩ := Guarded.bind_eq_ok.mp done
  cases same
  refine .update id fun tables all => ?_
  have makes : c.session.types.Makes (types, type) := .struct (fun f mem => (all f mem).valid) made
  have form : types.form? type = some .record := TypeTable.form_struct tables.types made
  refine ⟨tables.updates_types makes, ⟨⟨(makes.added tables.types).valid,
    TypeTable.defined_struct tables.types made fun f mem => (all f mem).defined⟩, ?_⟩, ?_⟩
  · rw [TypeTable.isFunction]
    exact (congrArg (· == some Form.function) form).trans rfl
  · rw [TypeTable.isArray]
    exact (congrArg (· == some Form.array) form).trans rfl

end Types

end Checker

end BilingualC
