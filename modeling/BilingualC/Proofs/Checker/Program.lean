import Mathlib
import BilingualC.Proofs.Arena.Reading
import BilingualC.Proofs.Checker.Declaration
import BilingualC.Proofs.Lowering.Program

/-!
# Rules for functions and programs, checked

Between the parts of a program nothing waits under the root (`Checker.Outer`). A declaration that is
finished becomes a part, and so does a function whose body is finished: all its labels were placed,
its number was not among those of the earlier definitions, and it is counted as defined from then
on.
-/

namespace BilingualC

open Std.Do

set_option mvcgen.warning false

/-! ## Finished parts -/

theorem labelsIn_append (first second : List Rose) :
    labelsIn (first ++ second) = labelsIn first ++ labelsIn second :=
  List.flatMap_append

theorem labelsIn_single (r : Rose) : labelsIn [r] = r.collect .label := List.flatMap_singleton _ _

theorem jumpsIn_single (r : Rose) : jumpsIn [r] = r.collect .jump := List.flatMap_singleton _ _

theorem definitions_append (first second : List Rose) :
    definitions (first ++ second) = definitions first ++ definitions second := by
  rw [definitions, List.filter_append, List.map_append, definitions, definitions]

namespace Session

variable {s t : Session} {parts : List Rose} {r : Rose}

/-- A program with one more declaration. -/
theorem PartsOk.declaration (ok : s.PartsOk parts) (form : Rose.IsDeclaration r)
    (covers : s.Covers r) : s.PartsOk (parts ++ [r]) := by
  have labels : r.collect .label = [] := Rose.collect_declaration form (.inl rfl)
  have jumps : r.collect .jump = [] := Rose.collect_declaration form (.inr rfl)
  have definitions : definitions (parts ++ [r]) = definitions parts := by
    rw [definitions_append, show definitions [r] = [] by simp [BilingualC.definitions, form.kind],
      List.append_nil]
  have each {P : Rose → Prop} (old : ∀ x ∈ parts, P x) (new : P r) : ∀ x ∈ parts ++ [r], P x := by
    intro x mem
    rcases List.mem_append.mp mem with inside | last
    · exact old x inside
    · exact List.mem_singleton.mp last ▸ new
  refine ⟨each ok.form (.inl form), each ok.covers covers, each ok.jumps ?_,
    each ok.spellings ?_, ?_, ?_, ?_⟩
  · rw [jumps]
    simp
  · rw [labels]
    simp
  · rw [labelsIn_append, labelsIn_single, labels, List.append_nil]
    exact ok.labels
  · exact definitions ▸ ok.once
  · exact definitions ▸ ok.defined

/-- What a function that is finished brings along: it jumps to its own labels, which are new, and
was not defined. -/
structure Finishes (s : Session) (parts : List Rose) (id : Int) (r : Rose) : Prop where
  form : ∃ body, Rose.IsFunction r body
  number : r.arg 0 = id
  covers : s.Covers r
  jumps : ∀ i ∈ r.collect .jump, i ∈ r.collect .label
  spellings : ∀ i ∈ r.collect .label, ∀ j ∈ r.collect .label,
    (s.identifier i).spelling = (s.identifier j).spelling → i = j
  labels : (labelsIn parts ++ r.collect .label).Nodup
  fresh : id ∉ definitions parts

/-- A program with one more function, which is counted as defined. -/
theorem PartsOk.function {id : Int} (ok : s.PartsOk parts) (finishes : s.Finishes parts id r)
    (grows : s.Grows t) (tables : s.Tables) (others : ∀ k, k ≠ id → t.identifier k = s.identifier k)
    (this : (t.identifier id).defined = true) : t.PartsOk (parts ++ [r]) := by
  obtain ⟨body, form⟩ := finishes.form
  have definitions : definitions (parts ++ [r]) = definitions parts ++ [id] := by
    rw [definitions_append, ← finishes.number]
    simp [BilingualC.definitions, form.kind]
  have each {P : Rose → Prop} (old : ∀ x ∈ parts, P x) (new : P r) : ∀ x ∈ parts ++ [r], P x := by
    intro x mem
    rcases List.mem_append.mp mem with inside | last
    · exact old x inside
    · exact List.mem_singleton.mp last ▸ new
  have spelling {x : Rose} (covers : s.Covers x) {k : Int} (mem : k ∈ x.collect .label) :
      (t.identifier k).spelling = (s.identifier k).spelling := grows.spelling (covers.label mem).2.1
  constructor
  case form => exact each ok.form (.inr ⟨body, form⟩)
  case covers =>
    refine each ?_ (finishes.covers.grow grows tables)
    exact fun x mem => (ok.covers x mem).grow grows tables
  case jumps => exact each ok.jumps finishes.jumps
  case spellings =>
    apply each
    · intro x mem i first j second same
      rw [spelling (ok.covers x mem) first, spelling (ok.covers x mem) second] at same
      exact ok.spellings x mem i first j second same
    · intro i first j second same
      rw [spelling finishes.covers first, spelling finishes.covers second] at same
      exact finishes.spellings i first j second same
  case labels =>
    rw [labelsIn_append, labelsIn_single]
    exact finishes.labels
  case once =>
    rw [definitions]
    refine List.nodup_append.mpr ⟨ok.once, List.nodup_singleton id, ?_⟩
    intro a mem b last same
    exact finishes.fresh (List.mem_singleton.mp last ▸ same ▸ mem)
  case defined =>
    intro k kind
    rw [definitions, List.mem_append, List.mem_singleton]
    by_cases same : k = id
    · subst same
      exact iff_of_true this (.inr rfl)
    · rw [others k same] at kind ⊢
      exact (ok.defined k kind).trans (by simp [same])

end Session

namespace Checker

open Rose Session

variable {c₀ c₁ c : Checker} {w : World} {parts : List Rose}

/-! ## Between parts -/

/-- Between the parts of a program: nothing waits, and no loop or switch is open. -/
structure Outer (parts : List Rose) (c : Checker) : Prop where
  stands : c.Stands ⟨c, parts⟩ []
  loops : c.loops = 0
  switches : c.switches = 0

/-- A fact about the tables between the parts of a program, the first of which are known, unless an
error was reported. -/
def OutsideWith (parts : List Rose) (P : Session → Prop) (c : Checker) : Prop :=
  c.Dirty ∨ ∃ more, c.Outer (parts ++ more) ∧ P c.session

/-- Steps that leave nothing behind stay between the parts. -/
theorem Leads.outer {P Q : Session → Prop} (leads : c₀.Leads P [] Q [] c)
    (outer : OutsideWith parts P c₀) : OutsideWith parts Q c := by
  obtain dirty | ⟨more, outer, p⟩ := outer
  · exact .inl (leads.dirty dirty)
  · refine (leads ⟨c₀, parts ++ more⟩ [] (.inr ⟨[], outer.stands, .nil, p⟩)).imp_right ?_
    rintro ⟨trees, after, fits, q⟩
    obtain rfl := fits_nil.mp fits
    exact ⟨more, ⟨after.rebase after.loops after.switches, after.keeps.loops.trans outer.loops,
      after.keeps.switches.trans outer.switches⟩, q⟩

/-- A declaration that is finished becomes a part. -/
theorem Stands.finish {d : Rose} (stands : c.Stands w [d]) (form : IsDeclaration d) :
    c.Stands ⟨c, w.parts ++ [d]⟩ [] := by
  have labels : d.collect .label = [] := collect_declaration form (.inl rfl)
  have jumps : d.collect .jump = [] := collect_declaration form (.inr rfl)
  have placed := stands.labels.placed
  rw [labelsIn_single, labels] at placed
  exact { stands with
    holds := by simpa using stands.holds
    covers := by simp
    labels := ⟨stands.labels.spellings, stands.labels.known, placed, by simp [jumpsIn], by
      show (labelsIn (w.parts ++ [d]) ++ c.labelIds).Nodup
      rw [labelsIn_append, labelsIn_single, labels, List.append_nil]
      exact stands.labels.apart⟩
    parts := stands.parts.declaration form (stands.covers d (by simp))
    keeps := .refl c }

/-- A declaration outside of functions. -/
theorem Leads.declared {P Q : Session → Prop} {n : Handle}
    (leads : c₀.Leads P [] Q [⟨n, IsDeclaration⟩] c)
    (outer : OutsideWith parts P c₀) : OutsideWith parts Q c := by
  obtain dirty | ⟨more, outer, p⟩ := outer
  · exact .inl (leads.dirty dirty)
  · refine (leads ⟨c₀, parts ++ more⟩ [] (.inr ⟨[], outer.stands, .nil, p⟩)).imp_right ?_
    rintro ⟨trees, after, fits, q⟩
    obtain ⟨d, rfl, -, form⟩ := fits_one.mp fits
    exact ⟨more ++ [d], ⟨List.append_assoc parts more [d] ▸ after.finish form,
      after.keeps.loops.trans outer.loops, after.keeps.switches.trans outer.switches⟩, q⟩

/-! ## Functions -/

/-- The body of a function can start. -/
structure Inside (parts : List Rose) (id : Int) (c : Checker) : Prop extends c.Outer parts where
  names : NamesFunction id c.session
  fresh : id ∉ definitions parts

/-- A function that is declared and was not defined. -/
theorem not_defined {id : Int} {trees : List Rose}
    (stands : c.Stands w trees) (names : NamesFunction id c.session) :
    (c.session.identifier id).defined = false ↔ id ∉ definitions w.parts := by
  obtain ⟨type, names⟩ := names
  rw [← stands.parts.defined id names.kind, Bool.not_eq_true]

/-- The state in which the parameters of a function are declared. -/
def opened (c : Checker) (id : Int) (resultType : TypeId) : Checker :=
  { c.withSession c.session.enterFunction.1 with function := id, resultType, labels := some #[] }

theorem Outer.opened (outer : c.Outer parts) {id : Int} {resultType : TypeId}
    (names : NamesFunction id c.session) (fresh : (c.session.identifier id).defined = false)
    (result : c.session.enterFunction.1.types.result (c.session.identifier id).type =
      .ok resultType) : (c.opened id resultType).Inside parts id := by
  have updates := outer.stands.tables.updates_enterFunction
  have after := outer.stands.update updates
  have valid : (c.opened id resultType).session.types.Valid resultType :=
    ((outer.stands.tables.entries id).type.continue updates.grows.types).result result
  exact {
    stands := { after with
      result := valid
      labels := ⟨List.nodup_nil, by simp [labelList, Checker.opened], .refl _, by simp [jumpsIn], by
        show (labelsIn parts ++ []).Nodup
        rw [List.append_nil]
        exact after.parts.labels⟩
      keeps := .refl _ }
    loops := outer.loops
    switches := outer.switches
    names := stable_namesFunction id _ _ outer.stands.tables updates.grows names
    fresh := (not_defined outer.stands names).mp fresh }

/-- Steps that leave nothing behind stay before the body. -/
theorem Inside.leads {P Q : Session → Prop} {id : Int} (inside : c₀.Inside parts id)
    (known : P c₀.session) (leads : c₀.Leads P [] Q [] c) : c.Dirty ∨ c.Inside parts id := by
  refine (leads ⟨c₀, parts⟩ [] (.inr ⟨[], inside.stands, .nil, known⟩)).imp_right ?_
  rintro ⟨trees, after, fits, -⟩
  obtain rfl := fits_nil.mp fits
  exact ⟨⟨after.rebase after.loops after.switches, after.keeps.loops.trans inside.loops,
    after.keeps.switches.trans inside.switches⟩,
    stable_namesFunction id _ _ inside.stands.tables after.keeps.grows inside.names, inside.fresh⟩

@[spec] theorem beginFunction_spec (id : Int) (parameters : List Parameter) (loc : Location) :
    ⦃fun c => ⌜c = c₀⌝⦄ beginFunction id parameters loc
    ⦃⇓? _ c => ⌜(c₀.Dirty → c.Dirty) ∧ (∀ parts,
      OutsideWith parts (fun s => NamesFunction id s ∧ ∀ p ∈ parameters, s.Valued p.type) c₀ →
        c.Dirty ∨ ∃ more, c.Inside (parts ++ more) id)⌝⦄ := by
  mvcgen [beginFunction, currentSession]
  all_goals subst_vars
  case vc4 fresh _ _ result _ _ _ later =>
    refine ⟨later.dirty, fun parts => ?_⟩
    rintro (dirty | ⟨more, outer, names, valued⟩)
    · exact .inl (later.dirty dirty)
    · have pos : 0 < id := names.choose_spec.pos
      rw [Bool.and_eq_true, bne_iff_ne, not_and, Bool.not_eq_true] at fresh
      have inside := outer.opened names (fresh (by omega)) result
      have stable : Stable fun s => ∀ p ∈ parameters, s.Valued p.type :=
        .all fun p => stable_valued p.type
      have grows := outer.stands.tables.updates_enterFunction.grows
      exact (inside.leads (stable _ _ outer.stands.tables grows valued) later).imp_right
        fun inside => ⟨more, inside⟩
  all_goals
    have error := Leads.dirty ‹Leads _ _ _ _ _ _› ‹_›
    exact ⟨fun _ => error, fun _ _ => .inl error⟩

/-- All labels were placed, or one was reported. -/
@[spec] theorem reportLabels_spec (labels : List Label) :
    ⦃fun c => ⌜c = c₀⌝⦄ reportLabels labels
    ⦃⇓? _ c => ⌜c = c₀ ∧ (∀ l ∈ labels, l.defined = true) ∨ c.Dirty⌝⦄ := by
  induction labels generalizing c₀ with
  | nil =>
    mvcgen [reportLabels]
    subst_vars
    exact .inl ⟨rfl, by simp⟩
  | cons l rest ih =>
    mvcgen [reportLabels, ih]
    all_goals subst_vars
    case vc1 dirty _ _ =>
      rintro (⟨rfl, -⟩ | error)
      · exact .inr dirty
      · exact .inr error
    case vc2 placed _ _ _ =>
      rw [Bool.not_eq_true', Bool.not_eq_false] at placed
      exact fun later => later.imp_left fun known =>
        ⟨known.1, List.forall_mem_cons.mpr ⟨placed, known.2⟩⟩

/-- The labels of a body whose labels were all placed. -/
theorem LabelsOk.finished {r : Rose} (ok : c.LabelsOk parts [r])
    (all : ∀ l ∈ c.labelList, l.defined = true) : (∀ i ∈ r.collect .jump, i ∈ r.collect .label) ∧
    (∀ i ∈ r.collect .label, ∀ j ∈ r.collect .label,
      (c.session.identifier i).spelling = (c.session.identifier j).spelling → i = j) ∧
    (labelsIn parts ++ r.collect .label).Nodup := by
  have placed : (r.collect .label).Perm c.labelIds := by
    have order := ok.placed
    rwa [labelsIn_single, placedIds, List.filter_eq_self.mpr all] at order
  refine ⟨?_, ?_, ?_⟩
  · intro i mem
    exact placed.mem_iff.mpr (ok.jumps i (by rwa [jumpsIn_single]))
  · intro i first j second same
    obtain ⟨l, known, rfl⟩ := List.mem_map.mp (placed.mem_iff.mp first)
    obtain ⟨k, known', rfl⟩ := List.mem_map.mp (placed.mem_iff.mp second)
    rw [(ok.known l known).2, (ok.known k known').2] at same
    rw [List.inj_on_of_nodup_map ok.spellings known known' same]
  · exact (placed.append_left _).nodup_iff.mpr ok.apart

/-- A node that defines a function. -/
theorem refers_function {s : Session} {r : Rose} (kind : r.kind = .functionDefinition)
    (isFunction : s.IsFunction (r.arg 0)) : s.Refers r := by
  constructor
  case toNodeOk =>
    constructor
    case function => exact fun _ => isFunction
    all_goals
      intro other
      rw [kind] at other
      cases other
  all_goals
    intro other
    cases kind.symm.trans other

theorem NamesFunction.isFunction {s : Session} {id : Int} (names : NamesFunction id s)
    (tables : s.Tables) : s.IsFunction id := by
  obtain ⟨type, names⟩ := names
  obtain ⟨-, low, high⟩ := (tables.entries id).function names.kind
  exact ⟨names.kind, low, high⟩

/-- The state in which the node of a function is built. -/
def closed (c : Checker) (s : Session) : Checker :=
  { c.withSession s with function := 0, labels := none }

/-- A function whose body is finished becomes a part. -/
theorem Inside.finish {b : Checker} {id : Int} {r : Rose} {s : Session} {args : List Int}
    {body n : Handle} (inside : b.Inside parts id) (stands : c₀.Stands ⟨b, parts⟩ [r])
    (form : IsStatement false false r) (named : body = c₀.session.tree.handle r.index)
    (all : ∀ l ∈ c₀.labelList, l.defined = true) (set : c₀.session.setDefined id = .ok s)
    (built : (c₀.closed s).Built .functionDefinition (id :: args) [body] n c) :
    ∃ f, c.Outer (parts ++ [f]) := by
  obtain ⟨tree, grows, tables, others, this⟩ := stands.tables.setDefined_inv set
  have names := stable_namesFunction id _ _ inside.stands.tables stands.keeps.grows inside.names
  have pos : 0 < id := names.choose_spec.pos
  obtain ⟨t, rfl, made⟩ := built
  have built : c₀.Built .functionDefinition (id :: args) [body] n (c₀.withTree t) := by
    rw [show (c₀.closed s).session.tree = c₀.session.tree from tree] at made
    exact ⟨t, rfl, made⟩
  have live : [body].filter (· ≠ .broken) = [r].map fun r => c₀.session.tree.handle r.index := by
    rw [← stands.filter_handles (by simp)]
    exact congrArg (fun m => [m].filter (· ≠ .broken)) named
  have alone : c₀.Stands ⟨b, parts⟩ ([r] ++ []) := stands
  obtain ⟨t', f, same, kind, arg, kids, holds, covers, -, -⟩ := alone.adopt built (.refl _) live
    (by simp) fun node kind args kids => refers_function kind (by
      rw [Rose.arg, args]
      exact names.isFunction stands.tables)
  obtain rfl : t = t' := congrArg (fun c : Checker => c.session.tree) same
  have below {k : Kind} (other : k ≠ .functionDefinition) : f.collect k = r.collect k := by
    rw [collect_other (by rw [kind]; exact other.symm), kids, List.flatMap_singleton]
  obtain ⟨jumps, spellings, labels⟩ := stands.labels.finished all
  have finishes : c₀.session.Finishes parts id f := {
    form := ⟨r, kind, kids, form⟩
    number := by rw [Rose.arg, arg]; rfl
    covers := covers f (by simp)
    jumps := by rwa [below (by decide), below (by decide)]
    spellings := by rwa [below (by decide)]
    labels := by rwa [below (by decide)]
    fresh := inside.fresh }
  have partsOk := stands.parts.function finishes grows stands.tables others (this pos)
  let last := (c₀.closed s).withTree t
  have later : s.Grows last.session := (c₀.closed s).grows_withTree t
  -- The labels of a function are forgotten with its body.
  have noLabels : last.labelList = [] := rfl
  have labels : last.LabelsOk (parts ++ [f]) [] := {
    spellings := List.nodup_nil
    known := by simp [noLabels]
    placed := .refl _
    jumps := by simp [jumpsIn]
    apart := by
      show (labelsIn (parts ++ [f]) ++ []).Nodup
      rw [List.append_nil]
      exact partsOk.labels }
  refine ⟨f, ?stands, stands.keeps.loops.trans inside.loops,
    stands.keeps.switches.trans inside.switches⟩
  exact {
    holds := by rwa [List.reverse_singleton, ← List.append_nil (parts ++ [f])] at holds
    covers := by simp
    tables := (tables.of_same (t := last.session) rfl rfl rfl rfl tables.shown).2
    string := stands.string.continue grows.types
    result := stands.result.continue grows.types
    loops := stands.loops
    switches := stands.switches
    labels
    parts := partsOk.grow later tables fun _ => rfl
    keeps := .refl _ }

/-- Nothing that a finished body needs is refused. -/
theorem Inside.complete {b : Checker} {id : Int} {r : Rose} {body : Handle}
    (inside : b.Inside parts id) (stands : c₀.Stands ⟨b, parts⟩ [r])
    (named : body = c₀.session.tree.handle r.index) :
    (id == 0 || c₀.session.tree.isBroken body || (c₀.session.identifier id).defined) = false := by
  have names := stable_namesFunction id _ _ inside.stands.tables stands.keeps.grows inside.names
  have pos : 0 < id := names.choose_spec.pos
  have whole : c₀.session.tree.isBroken body = false := named ▸ stands.live (by simp)
  rw [whole, (not_defined stands names).mpr inside.fresh, beq_false_of_ne (by omega)]
  rfl

@[spec] theorem functionDefinition_spec (id : Int) (scope : Scope) (body : Handle)
    (loc : Location) : ⦃fun c => ⌜c = c₀⌝⦄ functionDefinition id scope body loc ⦃⇓? _ c =>
    ⌜(c₀.Dirty → c.Dirty) ∧ ∀ b parts r, b.Inside parts id → c₀.Stands ⟨b, parts⟩ [r] →
    c₀.Fits [.statement false false body] [r] → c.Dirty ∨ ∃ f, c.Outer (parts ++ [f])⌝⦄ := by
  mvcgen [functionDefinition, currentSession, isBroken, tree]
  all_goals subst_vars
  case vc1 reported _ exited _ _ failed =>
    have errors := journal_exitFunction exited
    refine ⟨?_, ?_⟩
    · intro dirty
      exact (congrArg Journal.hadError errors).trans
        (reported.elim (fun known => known.1 ▸ dirty) fun dirty => dirty)
    · intro b parts r inside stands fits
      obtain ⟨rfl, -⟩ | dirty := reported
      · have updates := stands.tables.updates_exitFunction exited
        obtain ⟨x, same, named, -⟩ := fits_one.mp fits
        obtain rfl : r = x := by simpa using same
        have complete := inside.complete (stands.update updates)
          (named.trans (congrArg (Arena.handle · r.index) updates.tree.symm))
        exact absurd (failed.symm.trans complete) (by decide)
      · exact .inl ((congrArg Journal.hadError errors).trans dirty)
  case vc2 reported _ exited _ _ set _ _ _ _ _ =>
    rintro ⟨t, rfl, made⟩
    have errors := (journal_setDefined set).trans (journal_exitFunction exited)
    refine ⟨?_, ?_⟩
    · intro dirty
      exact (congrArg Journal.hadError errors).trans
        (reported.elim (fun known => known.1 ▸ dirty) fun dirty => dirty)
    · intro b parts r inside stands fits
      obtain ⟨rfl, all⟩ | dirty := reported
      · have updates := stands.tables.updates_exitFunction exited
        obtain ⟨x, same, named, form⟩ := fits_one.mp fits
        obtain rfl : r = x := by simpa using same
        exact .inr (inside.finish (stands.update updates) form
          (named.trans (congrArg (Arena.handle · r.index) updates.tree.symm)) all set
          ⟨t, rfl, made⟩)
      · exact .inl ((congrArg Journal.hadError errors).trans dirty)

/-! ## The program -/

/-- All functions from a declaration on are defined, or one was reported. -/
@[spec] theorem reportUndefined_spec (entries : List (Identifier × Nat)) :
    ⦃fun c => ⌜c = c₀⌝⦄ reportUndefined entries ⦃⇓? _ c => ⌜c = c₀ ∧
    (∀ e ∈ entries, e.1.kind = .function → e.1.defined = true) ∨ c.Dirty⌝⦄ := by
  induction entries generalizing c₀ with
  | nil =>
    mvcgen [reportUndefined]
    subst_vars
    exact .inl ⟨rfl, by simp⟩
  | cons e rest ih =>
    obtain ⟨entry, id⟩ := e
    mvcgen [reportUndefined, currentSession, ih]
    all_goals subst_vars
    case vc1 dirty _ _ =>
      rintro (⟨rfl, -⟩ | error)
      · exact .inr dirty
      · exact .inr error
    case vc2 defined _ _ _ =>
      have first : entry.kind = .function → entry.defined = true := by simpa using defined
      exact fun later => later.imp_left fun known =>
        ⟨known.1, List.forall_mem_cons.mpr ⟨first, known.2⟩⟩

/-- A program without an error is complete: it has an entry point, and all functions are defined. -/
structure Complete (parts : List Rose) (c : Checker) : Prop extends c.Outer parts where
  main : c.session.main ≠ 0
  defined : ∀ id, (c.session.identifier id).kind = .function →
    (c.session.identifier id).defined = true

/-- Every declaration is among those that are looked through at the end. -/
theorem identifier_mem_entries {s : Session} {id : Int}
    (low : 0 < id) (high : id < s.identifiers.size) :
    (s.identifier id, id.toNat) ∈ s.identifiers.toList.zipIdx.drop 1 := by
  have inside : id.toNat < s.identifiers.size := by omega
  rw [List.mem_iff_getElem]
  refine ⟨id.toNat - 1, by simp; omega, ?_⟩
  have same : 1 + (id.toNat - 1) = id.toNat := by omega
  have there : id.toNat - 1 + 1 = id.toNat := by omega
  simp [Session.identifier_of_range low high, same, there, Array.getD_eq_getD_getElem?,
    Array.getElem?_eq_getElem inside]

@[spec] theorem unit_spec (stop : Location) :
    ⦃fun c => ⌜c = c₀⌝⦄ unit stop
    ⦃⇓? root c => ⌜(c₀.Dirty → c.Dirty) ∧ (∀ parts, OutsideWith parts (fun _ => True) c₀ →
      c.Dirty ∨ ∃ more, root = c.session.tree.root ∧ c.Complete (parts ++ more))⌝⦄ := by
  mvcgen [unit, currentSession, tree]
  all_goals subst_vars
  case vc1 dirty _ _ later =>
    have error := later.elim (fun known => known.1 ▸ dirty) fun error => error
    exact ⟨fun _ => error, fun _ _ => .inl error⟩
  case vc2 main _ c later =>
    refine ⟨fun dirty => later.elim (fun known => known.1 ▸ dirty) fun error => error,
      fun parts => ?_⟩
    rintro (dirty | ⟨more, outer, -⟩)
    · exact .inl (later.elim (fun known => known.1 ▸ dirty) fun error => error)
    · refine later.elim (fun known => ?_) .inl
      obtain ⟨rfl, all⟩ := known
      refine .inr ⟨more, trivial, outer, by simpa using main, fun id isFunction => ?_⟩
      obtain ⟨low, high⟩ := declared_of_kind (s := c.session) (by rw [isFunction]; decide)
      exact all _ (identifier_mem_entries low high) isFunction

/-- The functions that are defined have numbers of their own. -/
theorem Complete.numbers (complete : c.Complete parts) :
    (functionNumbers c.session parts).Nodup := by
  have tables := complete.stands.tables
  have same :
    functionNumbers c.session parts = (definitions parts).map c.session.displacementOf := by
    rw [functionNumbers, definitions, List.map_map]
    rfl
  rw [same]
  refine complete.stands.parts.once.map_on fun i first j second equal => ?_
  have isFunction {k : Int} (mem : k ∈ definitions parts) :
    (c.session.identifier k).kind = .function := by
    obtain ⟨r, found, rfl⟩ := List.mem_map.mp mem
    obtain ⟨part, kind⟩ := List.mem_filter.mp found
    exact ((complete.stands.parts.covers r part).self.function (by simpa using kind)).1
  exact tables.numbers i j (isFunction first) (isFunction second) equal

/-- The tree of a complete program has all that the generator needs. -/
theorem Complete.wellFormed (complete : c.Complete parts) : WellFormed c.session (.unit parts) := by
  have ok := complete.stands.parts
  have tables := complete.stands.tables
  have holds : c.session.tree.Holds (.unit parts) := by simpa using complete.stands.holds
  have kind : (Rose.unit parts).kind = .unit := rfl
  have refers : c.session.Refers (.unit parts) :=
    refers_anonymous kind rfl (by simp [Kind.isExpression])
  exact {
    has := holds.has
    height := holds.height_le_size
    types := tables.types.size
    parts := ok.form
    ok := Covers.accepts (covers_node refers ok.covers)
    labels := fun r mem => (List.nodup_flatMap.mp ok.labels).1 r mem
    jumps := ok.jumps
    numbers := complete.numbers
    defined := fun id isFunction => by
      obtain ⟨r, found, same⟩ :=
        List.mem_map.mp ((ok.defined id isFunction).mp (complete.defined id isFunction))
      exact List.mem_map.mpr ⟨r, found, by rw [same]⟩
    unknown := tables.functionAddress
    main := tables.main complete.main }

end Checker

end BilingualC
