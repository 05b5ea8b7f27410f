import Mathlib
import BilingualC.Checker.Declaration
import BilingualC.Proofs.Session.Frames
import BilingualC.Proofs.Total.Steps

/-!
# The types of a session

Types are made by calls, and a call names only types that are there: scalar types and the results of
earlier calls. A `TypeState` is a session together with the calls that were answered in it, and a
`TypeState.Step` is one more call, or anything else that happens in the session.

What carries the proofs is that every answer stands in the table as the record of its call
(`TypeState.Consed`). A step keeps that, whatever it is (`Step.consed`), so a whole run does.

Main result: `TypeState.types_consed`.
-/

namespace BilingualC

/-- A call that makes a type. -/
inductive TypeCall where
  | pointer (element : TypeId)
  | array (element : TypeId)
  | function (result : TypeId) (parameters : List TypeId)
  | struct (fields : List Field)
deriving DecidableEq

namespace TypeCall

def run (s : Session) : TypeCall → Guarded (Session × TypeId)
  | pointer element => pure (s.pointerType element)
  | array element => pure (s.arrayType element)
  | function result parameters => pure (s.functionType result parameters)
  | struct fields => s.structType fields

/-- The record that a call asks for. Only a structure has a size. -/
def record (size : Int) : TypeCall → TypeRecord
  | pointer element => .pointer element
  | array element => .array element
  | function result parameters => .function result parameters
  | struct fields => .struct size fields

/-- The types that a call names. -/
def components (call : TypeCall) : List TypeId := (call.record 0).components

/-- The number of parameters or fields. -/
def count (call : TypeCall) : Nat := (call.record 0).count

/-- A table gives what a call was given, when it is asked for the answer of the call. -/
def Answered (t : TypeTable) (id : TypeId) : TypeCall → Prop
  | pointer element => t.isPointer id = true ∧ t.element id = .ok element
  | array element => t.isArray id = true ∧ t.element id = .ok element
  | function result parameters =>
    t.isFunction id = true ∧ t.result id = .ok result ∧ t.parameters id = .ok parameters
  | struct fields => t.isStructure id = true ∧ t.fields id = .ok fields

end TypeCall

/-- A session, and the calls that made types in it with the types that they made. -/
structure TypeState where
  session : Session
  made : List (TypeCall × TypeId)

namespace TypeState

/-- The types of a session: the scalar ones and those that were made. -/
def Knows (x : TypeState) (id : Int) : Prop :=
  (TypeId.void ≤ id ∧ id ≤ TypeId.undefined) ∨ ∃ call, (call, id) ∈ x.made

/-- A call may be made if it names types of the session. What it names was listed in memory. -/
structure Allows (x : TypeState) (call : TypeCall) : Prop where
  known : ∀ e ∈ call.components, x.Knows e
  fits : (call.count : Int) ≤ largestBlock

/-- One thing that happens in a session. A declaration of a structure makes a type unless it is
refused. -/
inductive Step : TypeState → TypeState → Prop
  | other {s t : Session} {made : List (TypeCall × TypeId)} (types : t.types = s.types) :
      Step ⟨s, made⟩ ⟨t, made⟩
  | call {s t : Session} {made : List (TypeCall × TypeId)}
      {call : TypeCall} {id : TypeId} (allows : Allows ⟨s, made⟩ call)
      (done : call.run s = .ok (t, id)) : Step ⟨s, made⟩ ⟨t, (call, id) :: made⟩
  | declare {c d : Checker} {made : List (TypeCall × TypeId)} {tag : Int}
      {fields : List Checker.WrittenField} {loc : Location} {id : TypeId}
      (allows : Allows ⟨c.session, made⟩ (.struct (fields.map fun f => ⟨f.type, f.name⟩)))
      (done : Checker.declareStructure tag fields loc c = .ok (id, d)) :
      Step ⟨c.session, made⟩ ⟨d.session, if id = TypeId.undefined then made
        else (.struct (fields.map fun f => ⟨f.type, f.name⟩), id) :: made⟩

/-- Runs of a session. -/
def Reaches : TypeState → TypeState → Prop := Relation.ReflTransGen Step

end TypeState

/-! ## Declarations of structures -/

namespace Checker

variable {c d : Checker} {α : Type}

/-- A step that makes no type, if it gives an answer. -/
def MakesNone (m : Check α) : Prop :=
  ∀ c, Ends (fun _ => True) m c fun _ d => d.session.types = c.session.types

theorem MakesNone.bind {β : Type} {m : Check α} {f : α → Check β} (first : MakesNone m)
    (next : ∀ a, MakesNone (f a)) : MakesNone (m >>= f) := by
  intro c
  refine (first c).bind fun a d same => ?_
  exact (next a d).mono fun b e more => more.trans same

theorem makesNone_pure (a : α) : MakesNone (pure a : Check α) := fun _ => rfl

theorem makesNone_read (f : Checker → α) : MakesNone (fun c => .ok (f c, c) : Check α) :=
  fun _ => rfl

theorem makesNone_report (loc : Location) (d : Diagnostic) : MakesNone (report loc d) := by
  intro c
  refine Ends.step (currentSession_run c) ?_
  show Ends _ ((liftM (c.session.error loc d) : Check Session) >>= setSession) c _
  cases added : c.session.journal.error loc d with
  | error e =>
    rw [Session.error, added]
    trivial
  | ok j =>
    rw [Session.error, added]
    rfl

theorem makesNone_tagSpelling (tag : Int) : MakesNone (tagSpelling tag) := fun _ => rfl

theorem makesNone_reportDeclaration (e : DeclarationError) (spelling : Int) (loc : Location) :
    MakesNone (reportDeclaration e spelling loc) := by
  cases e with
  | mainRedefined => exact makesNone_report _ _
  | redeclared => exact (makesNone_read (·.session)).bind fun _ => makesNone_report _ _

theorem makesNone_fieldProblem (seen : List Int) (f : WrittenField) :
    MakesNone (fieldProblem seen f) := by
  refine (makesNone_read (·.session.types)).bind fun types => ?_
  split
  · exact makesNone_pure _
  · split
    · exact makesNone_pure _
    · split
      · exact (makesNone_read (·.session)).bind fun _ => makesNone_pure _
      · exact makesNone_pure _

theorem makesNone_checkFields (seen : List Int) (fields : List WrittenField) :
    MakesNone (checkFields seen fields) := by
  induction fields generalizing seen with
  | nil => exact makesNone_pure true
  | cons f rest ih =>
    refine (makesNone_fieldProblem seen f).bind fun problem => ?_
    have later : MakesNone (do return (← checkFields (f.name :: seen) rest) && problem.isNone) :=
      (ih (f.name :: seen)).bind fun _ => makesNone_pure _
    cases problem with
    | none => exact later
    | some d => exact (makesNone_report f.loc d).bind fun _ => later

theorem makesNone_declare (spelling : Int) (kind : IdentKind) (type : TypeId) :
    MakesNone (declare spelling kind type) := by
  intro c
  refine Ends.step (currentSession_run c) ?_
  cases done : c.session.declare spelling kind type with
  | error e => trivial
  | ok out =>
    refine Ends.step (lift_run rfl) ?_
    cases out with
    | error e => exact rfl
    | ok made =>
      obtain ⟨s, id⟩ := made
      exact (Session.declare_eq done).2.1

/-- A declaration of a structure is refused, or it is one call. -/
theorem declareStructure_types {tag : Int} {fields : List WrittenField} {loc : Location}
    {id : TypeId} (done : declareStructure tag fields loc c = .ok (id, d)) :
    (id = TypeId.undefined ∧ d.session.types = c.session.types) ∨
    c.session.types.struct (fields.map fun f => ⟨f.type, f.name⟩) = .ok (d.session.types, id) := by
  have ends : Ends (fun _ => True) (declareStructure tag fields loc) c fun id d =>
      (id = TypeId.undefined ∧ d.session.types = c.session.types) ∨
        c.session.types.struct (fields.map fun f => ⟨f.type, f.name⟩) = .ok (d.session.types, id) :=
        by
    refine (makesNone_checkFields [] fields c).bind fun right e same => ?_
    split
    · exact .inl ⟨rfl, same⟩
    refine Ends.step (currentSession_run e) ?_
    rw [Session.structType, same]
    cases made : c.session.types.struct (fields.map fun f => ⟨f.type, f.name⟩) with
    | error f => trivial
    | ok new =>
      refine Ends.step (lift_run rfl) (Ends.step (setSession_run _ _) ?_)
      split
      · refine ((makesNone_tagSpelling tag _).bind fun spelling g first => ?_)
        refine (makesNone_declare spelling .typeName new.2 g).bind fun out h second => ?_
        have kept : h.session.types = new.1 := second.trans first
        cases out with
        | ok _ => exact .inr (by rw [kept])
        | error e =>
          refine (makesNone_reportDeclaration e tag loc h).bind fun _ k third => .inr ?_
          rw [third, kept]
      · exact .inr rfl
  unfold Ends at ends
  rwa [done] at ends

end Checker

/-! ## Calls -/

namespace TypeCall

variable {size other : Int} {call c d : TypeCall}

@[simp] theorem components_record (size : Int) (call : TypeCall) :
    (call.record size).components = call.components := by
  cases call <;> rfl

@[simp] theorem count_record (size : Int) (call : TypeCall) :
    (call.record size).count = call.count := by
  cases call <;> rfl

theorem record_inj (same : c.record size = d.record other) : c = d := by
  cases c <;> cases d <;> simp_all [record]

/-- The record of a call gives what the call was given. -/
theorem answered_of_holds {t : TypeTable} {id : TypeId} (holds : t.Holds id (call.record size))
    (fits : (call.count : Int) ≤ largestBlock) : call.Answered t id := by
  have room : ((call.record size).count : Int) ≤ largestBlock := by rwa [count_record]
  cases call with
  | pointer element => exact ⟨holds.isPointer, holds.element⟩
  | array element => exact ⟨holds.isArray, holds.element⟩
  | function result parameters => exact ⟨holds.isFunction, holds.result, holds.parameters room⟩
  | struct fields => exact ⟨holds.isStructure, holds.fields room⟩

/-- The record of a call stands at one place. -/
theorem eq_of_holds {t : TypeTable} {a b : TypeId} (first : t.Holds a (call.record size))
    (second : t.Holds b (call.record other)) : a = b := by
  cases call with
  | struct fields =>
    obtain rfl := Except.ok.inj (first.totalSize.symm.trans second.totalSize)
    exact first.eq_of_words second
  | pointer _ | array _ | function _ _ => exact first.eq_of_words second

end TypeCall

/-! ## Runs -/

namespace TypeState

variable {s x y : TypeState} {call : TypeCall} {id : TypeId}

/-- Every answer stands in the table as the record of its call, which names types of the session;
and all records fit in memory. -/
structure Consed (x : TypeState) : Prop where
  tiled : x.session.types.Tiled
  short : x.session.types.Short
  made : ∀ call id, (call, id) ∈ x.made → ∃ size, x.session.types.Holds id (call.record size)
  known : ∀ call id, (call, id) ∈ x.made → ∀ e ∈ call.components, x.Knows e

theorem Consed.named (consed : x.Consed) (known : x.Knows id) : x.session.types.Named id := by
  rcases known with ⟨low, high⟩ | ⟨call, mem⟩
  · exact TypeTable.named_scalar consed.tiled low high
  · obtain ⟨size, holds⟩ := consed.made call id mem
    exact holds.named

theorem consed_empty (empty : x.session.types = .empty) (none : x.made = []) : x.Consed := by
  have nothing (id : Int) (r : TypeRecord) : ¬ TypeTable.empty.Holds id r := by
    intro holds
    have low := holds.pos
    have high := holds.named.lt_size
    simp only [TypeTable.empty, List.size_toArray, List.length_singleton] at high
    omega
  refine ⟨empty ▸ TypeTable.tiled_empty, fun id r holds => absurd (empty ▸ holds) (nothing id r),
    fun call id mem => ?_, fun call id mem => ?_⟩
  all_goals
    rw [none] at mem
    cases mem

/-- A call that may be made gives a type, and its record is added to the table. -/
theorem Consed.run (consed : x.Consed) (allows : x.Allows call) :
    ∃ size new, call.run x.session = .ok ({ x.session with types := new.1 }, new.2) ∧
    x.session.types.Gains (call.record size) new := by
  have named : ∀ e ∈ call.components, x.session.types.Named e :=
    fun e mem => consed.named (allows.known e mem)
  cases call with
  | pointer element => exact ⟨0, _, rfl, TypeTable.gains_pointer (named element List.mem_cons_self)⟩
  | array element => exact ⟨0, _, rfl, TypeTable.gains_array (named element List.mem_cons_self)⟩
  | function result parameters =>
    exact ⟨0, _, rfl, TypeTable.gains_function (named result List.mem_cons_self) fun p mem =>
      named p (List.mem_cons_of_mem _ mem)⟩
  | struct fields =>
    obtain ⟨size, new, made, gains⟩ := TypeTable.gains_struct consed.tiled fun f mem =>
      named f.type (List.mem_map_of_mem mem)
    refine ⟨size, new, ?_, gains⟩
    rw [TypeCall.run, Session.structType, made]
    rfl

theorem Consed.add {t : Session} {size : Int} (consed : x.Consed) (allows : x.Allows call)
    (gains : x.session.types.Gains (call.record size) (t.types, id)) :
    Consed ⟨t, (call, id) :: x.made⟩ := by
  have more {e : Int} (knows : x.Knows e) : Knows ⟨t, (call, id) :: x.made⟩ e :=
    knows.imp_right fun ⟨c, mem⟩ => ⟨c, List.mem_cons_of_mem _ mem⟩
  refine ⟨gains.holds.tiled,
    gains.short consed.short (by rw [TypeCall.count_record]; exact allows.fits), fun c i mem => ?_,
    fun c i mem e part => more ?_⟩
  · rcases List.mem_cons.mp mem with same | mem
    · cases same
      exact ⟨size, gains.holds⟩
    · obtain ⟨size, holds⟩ := consed.made c i mem
      exact ⟨size, holds.continue gains.continues gains.holds.tiled⟩
  · rcases List.mem_cons.mp mem with same | mem
    · cases same
      exact allows.known e part
    · exact consed.known c i mem e part

theorem Consed.congr {t : Session} (consed : x.Consed) (types : t.types = x.session.types) :
    Consed ⟨t, x.made⟩ :=
  ⟨types ▸ consed.tiled, types ▸ consed.short, fun call id mem => types ▸ consed.made call id mem,
    consed.known⟩

/-- A later state keeps the answers in the table, which goes on. -/
structure Later (x y : TypeState) : Prop where
  consed : y.Consed
  types : x.session.types.Continues y.session.types
  made : ∀ call id, (call, id) ∈ x.made → (call, id) ∈ y.made

theorem Step.later (step : Step x y) (consed : x.Consed) : x.Later y := by
  cases step with
  | @other s t made types => exact ⟨consed.congr types, types ▸ .refl _, fun _ _ mem => mem⟩
  | @call s t made call id allows done =>
    obtain ⟨size, new, run, gains⟩ := consed.run allows
    cases done.symm.trans run
    exact ⟨consed.add allows gains, gains.continues, fun _ _ mem => List.mem_cons_of_mem _ mem⟩
  | @declare c d made tag fields loc id allows done =>
    rcases Checker.declareStructure_types done with ⟨refused, types⟩ | declared
    · rw [if_pos refused]
      exact ⟨consed.congr types, types ▸ .refl _, fun _ _ mem => mem⟩
    · obtain ⟨size, new, made, gains⟩ := TypeTable.gains_struct consed.tiled fun f mem =>
        consed.named (allows.known f.type (List.mem_map_of_mem mem))
      cases declared.symm.trans made
      have new : id ≠ TypeId.undefined := ne_of_gt gains.holds.pos
      rw [if_neg new]
      exact ⟨consed.add allows gains, gains.continues, fun _ _ mem => List.mem_cons_of_mem _ mem⟩

theorem Reaches.later (run : x.Reaches y) (consed : x.Consed) : x.Later y := by
  induction run with
  | refl => exact ⟨consed, .refl _, fun _ _ mem => mem⟩
  | tail _ step ih =>
    have last := step.later ih.consed
    exact ⟨last.consed, ih.types.trans last.types,
      fun call id mem => last.made call id (ih.made call id mem)⟩

/-- **Types are stored once.** However types are made in a session, the table is only appended to;
the components of a type come before it; every later table gives back what a call was given; two
types are equal only if they are the same number, and two calls have the same answer only if they
are the same call. Every question ends with an answer, and so does every call. -/
theorem types_consed (empty : s.session.types = .empty) (none : s.made = []) (before : s.Reaches x)
    (after : x.Reaches y) : x.session.types.cells.toList <+: y.session.types.cells.toList ∧
    (∀ call id, (call, id) ∈ x.made → call.Answered y.session.types id ∧ ∀ e ∈ call.components, e <
      id) ∧ (∀ a b, y.Knows a → y.Knows b → y.session.types.equal a b = .ok (a == b)) ∧
    (∀ c d i j, (c, i) ∈ y.made → (d, j) ∈ y.made → (i = j ↔ c = d)) ∧
    (∀ a, y.Knows a → ∃ text, y.session.typeName a = .ok text) ∧
    ∀ call, y.Allows call → ∃ t id, call.run y.session = .ok (t, id) := by
  have first := before.later (consed_empty empty none)
  have later := after.later first.consed
  have short : (fun _ : Fault => False) .badLength ∨ y.session.types.Short :=
    .inr later.consed.short
  refine ⟨later.types.initial, ?_, ?_, ?_, ?_, ?_⟩
  · intro call id mem
    obtain ⟨size, holds⟩ := later.consed.made call id (later.made call id mem)
    refine ⟨TypeCall.answered_of_holds holds ?_, fun e part => ?_⟩
    · rw [← TypeCall.count_record size]
      exact later.consed.short id _ holds
    · rw [← TypeCall.components_record size] at part
      exact (holds.component part).2
  · intro a b knowsA knowsB
    obtain ⟨same, done, rfl⟩ :=
      (TypeTable.equal_ends short (later.consed.named knowsA) (later.consed.named knowsB)).answer
    exact done
  · intro c d i j memC memD
    obtain ⟨m, first⟩ := later.consed.made c i memC
    obtain ⟨n, second⟩ := later.consed.made d j memD
    constructor
    · rintro rfl
      exact TypeCall.record_inj (first.unique second)
    · rintro rfl
      exact TypeCall.eq_of_holds first second
  · intro a knows
    obtain ⟨text, done, -⟩ :=
      (TypeTable.describe_ends (later.consed.named knows) short y.session.spellingText).answer
    exact ⟨text, done⟩
  · intro call allows
    obtain ⟨size, new, run, -⟩ := later.consed.run allows
    exact ⟨_, _, run⟩

/-- A pointer, and an array of such pointers. -/
theorem types_consed_nested :
    let s := Session.new 0 (.new none false)
    let t := (s.pointerType TypeId.int).1
    let u := (t.arrayType 1).1
    let start : TypeState := ⟨s, []⟩
    let x : TypeState := ⟨t, [(.pointer TypeId.int, 1)]⟩
    let y : TypeState := ⟨u, [(.array 1, 3), (.pointer TypeId.int, 1)]⟩
    start.Reaches x ∧ x.Reaches y ∧ y.session.types.element 1 = .ok TypeId.int ∧
      y.session.types.equal 1 3 = .ok false := by
  intro s t u start x y
  have before : start.Reaches x :=
    .single (.call ⟨fun e mem => .inl (List.mem_singleton.mp mem ▸ by decide), by decide⟩ rfl)
  have after : x.Reaches y :=
    .single (.call ⟨fun e mem =>
      .inr ⟨.pointer TypeId.int, List.mem_singleton.mp mem ▸ List.mem_cons_self⟩, by decide⟩ rfl)
  obtain ⟨-, answers, equal, -⟩ := types_consed (s := start) rfl rfl before after
  have first : y.Knows 1 := .inr ⟨.pointer TypeId.int, by simp [y]⟩
  have second : y.Knows 3 := .inr ⟨.array 1, by simp [y]⟩
  exact ⟨before, after, (answers _ 1 List.mem_cons_self).1.2, equal 1 3 first second⟩

end TypeState

end BilingualC
