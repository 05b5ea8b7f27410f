import Mathlib
import BilingualC.Proofs.Arena.Carrying
import BilingualC.Proofs.Checker.Conversion
import BilingualC.Proofs.Total.Rules

/-!
# Steps of the checker that come to an end

`Checker.Ends` says how a step of the checker may end: with an answer and a state that have a
property, or with an allowed fault. The state of the checker is `Fine` at any time, also after
errors; what is known of the trees under the root is said beside it. The steps that every rule is
made of are a report, a warning, a new node and the removal of one.
-/

namespace BilingualC

open Guarded

variable {ok : Fault → Prop}

/-! ## Reports -/

namespace Journal

variable {j k : Journal} {loc : Location} {d : Diagnostic}

/-- Whatever is reported can be printed. -/
def Roomy (j : Journal) : Prop :=
  j.silent = true ∨ ∀ file ∈ j.files, (file.content.size : Int) ≤ largestBlock

/-- The reports that a journal has got since an earlier one. -/
structure Adds (j k : Journal) (reports : List Report) : Prop where
  options : k.options = j.options
  silent : k.silent = j.silent
  files : k.files = j.files
  reports : k.reports.toList = j.reports.toList ++ reports

theorem Adds.refl (j : Journal) : j.Adds j [] := ⟨rfl, rfl, rfl, (List.append_nil _).symm⟩

theorem Adds.trans {l : Journal} {first second : List Report} (a : j.Adds k first)
    (b : k.Adds l second) : j.Adds l (first ++ second) :=
  ⟨b.options.trans a.options, b.silent.trans a.silent, b.files.trans a.files,
    by rw [b.reports, a.reports, List.append_assoc]⟩

theorem Adds.roomy {reports : List Report} (adds : j.Adds k reports) (roomy : j.Roomy) :
    k.Roomy := by
  rw [Roomy, adds.silent, adds.files]
  exact roomy

theorem Adds.errorCount {reports : List Report} (adds : j.Adds k reports) :
    k.errorCount = j.errorCount + reports.countP fun r => r.severity == .error := by
  rw [Journal.errorCount, ← Array.countP_toList, adds.reports, List.countP_append,
    Array.countP_toList]
  rfl

theorem mem_of_fileAt {files : Array SourceFile} {offset : Int} {file : SourceFile}
    (found : fileAt? files offset = some file) : file ∈ files := by
  have mem := List.mem_of_find?_eq_some found
  simpa using mem

/-- The marks under a near location of a file fit in a block. -/
theorem markCount_le {pos lineEnd : Nat} (near : loc.Near) (low : pos ≤ lineEnd)
    (high : (lineEnd : Int) ≤ largestBlock) : markCount loc pos lineEnd ≤ largestBlock + 1 := by
  obtain ⟨⟨startLow, startHigh⟩, stopLow, stopHigh⟩ := near
  simp only [largestBlock] at *
  have length : wrap64 (loc.stop - loc.start) = loc.stop - loc.start :=
    wrap64_of_range (by omega) (by omega)
  rw [markCount, length]
  have sum : wrap64 (pos + max (loc.stop - loc.start) 1) = pos + max (loc.stop - loc.start) 1 :=
    wrap64_of_range (by omega) (by omega)
  simp only [sum]
  split <;> omega

theorem rendering_ok (roomy : ∀ file ∈ j.files, (file.content.size : Int) ≤ largestBlock)
    {r : Report} (near : r.loc.Near) (tag : String) : ∃ text, j.rendering r tag = .ok text := by
  cases found : markedLine? j.files r.loc with
  | none =>
    simp only [rendering, found]
    exact ⟨_, rfl⟩
  | some marked =>
    obtain ⟨file, here, rfl⟩ := Option.map_eq_some_iff.mp found
    have size := roomy file (mem_of_fileAt here)
    have whole : file.content.toList.length = file.content.size := Array.length_toList
    set content := file.content.toList
    set pos := min (r.loc.start - file.base).toNat content.length with start
    have after := (List.takeWhile_prefix (p := (· != '\n')) (l := content.drop pos)).length_le
    rw [List.length_drop] at after
    have fits := markCount_le near
      (Nat.le_add_right pos ((content.drop pos).takeWhile (· != '\n')).length) (by omega)
    simp only [rendering, found, MarkedLine.render]
    rw [if_neg (show ¬ (markCount r.loc pos
      (pos + ((content.drop pos).takeWhile (· != '\n')).length) - 1 > largestBlock) by
      omega)]
    exact ⟨_, rfl⟩

theorem rendering_ends (loose : Loose ok) (j : Journal) (r : Report) (tag : String) :
    (j.rendering r tag).Ends ok fun _ => True := by
  cases found : markedLine? j.files r.loc with
  | none =>
    simp only [rendering, found]
    exact trivial
  | some marked =>
    simp only [rendering, found, MarkedLine.render]
    split
    · exact loose
    · exact trivial

/-- A near report is taken in. -/
theorem add_ends (r : Report) (tag : String) (room : Loose ok ∨ (j.Roomy ∧ r.loc.Near)) :
    (j.add r tag).Ends ok fun k => j.Adds k [r] := by
  have taken (text : String) :
    j.Adds { j with reports := j.reports.push r, printed := j.printed ++ text } [r] :=
    ⟨rfl, rfl, rfl, by simp⟩
  unfold Journal.add
  split
  · exact ends_pure (taken _)
  next loud =>
    rcases room with loose | ⟨roomy, near⟩
    · exact (rendering_ends loose j r tag).bind fun text _ => ends_pure (taken text)
    · obtain ⟨text, rendered⟩ := rendering_ok (roomy.resolve_left loud) near tag
      rw [rendered]
      exact ends_pure (taken text)

/-- A near warning is taken in or is switched off. -/
theorem warn_ends (warning : Warning) (d : Diagnostic) (room : Loose ok ∨ (j.Roomy ∧ loc.Near)) :
    (j.warn (some warning) loc d).Ends ok fun k => ∃ reports, j.Adds k reports ∧
    ∀ r ∈ reports, r = ⟨.warning, loc, d⟩ := by
  have added (tag : String) : (j.add ⟨.warning, loc, d⟩ tag).Ends ok fun k =>
      ∃ reports, j.Adds k reports ∧ ∀ r ∈ reports, r = ⟨.warning, loc, d⟩ :=
    (add_ends (r := ⟨.warning, loc, d⟩) tag room).mono fun k adds => ⟨_, adds, by simp⟩
  unfold warn
  split
  · exact added _
  · exact ends_pure ⟨[], .refl j, by simp⟩
  · split
    · exact added _
    · exact ends_pure ⟨[], .refl j, by simp⟩

end Journal

namespace Arena

theorem Has.location {t : Arena} {x : Rose} (has : t.Has x) :
    t.location (t.handle x.index) = .ok x.location := by
  rw [Arena.location, has.argc, Rose.location]
  by_cases short : x.args.length < 2
  · rw [if_pos (by omega), if_pos short]
    rfl
  · have first : ((x.args.length : Int) - 2) = ((x.args.length - 2 : Nat) : Int) := by omega
    have second : ((x.args.length : Int) - 1) = ((x.args.length - 1 : Nat) : Int) := by omega
    rw [if_neg (by omega), if_neg short, first, second, has.arg, has.arg]
    rfl

end Arena

namespace Checker

variable {α β : Type} {m : Check α} {f : α → Check β} {a : α} {c c' c₀ c₁ c₂ : Checker}
    {P Q : α → Checker → Prop} {R : β → Checker → Prop}

/-! ## How steps end -/

/-- A step of the checker ends with an answer and a state that have a property, or with an allowed
fault. -/
def Ends (ok : Fault → Prop) (m : Check α) (c : Checker) (Q : α → Checker → Prop) : Prop :=
  Guarded.Ends ok (m c) fun p => Q p.1 p.2

theorem Ends.pure (good : Q a c) : Ends ok (pure a) c Q := good

theorem Ends.mono (ends : Ends ok m c P) (weaker : ∀ a c, P a c → Q a c) : Ends ok m c Q :=
  Guarded.Ends.mono ends fun p => weaker p.1 p.2

theorem Ends.bind (first : Ends ok m c P) (next : ∀ a c', P a c' → Ends ok (f a) c' R) :
    Ends ok (m >>= f) c R :=
  Guarded.Ends.bind first fun p => next p.1 p.2

/-- A step that gives an answer hands it on. -/
theorem bind_run (run : m c = .ok (a, c')) : (m >>= f) c = f a c' := by
  show (m c >>= fun p => f p.1 p.2) = _
  rw [run]
  rfl

theorem Ends.run (run : m c = .ok (a, c')) (good : Q a c') : Ends ok m c Q := by
  unfold Ends
  rw [run]
  exact good

/-- A step that gives an answer is followed by the next one. -/
theorem Ends.step (run : m c = .ok (a, c')) (next : Ends ok (f a) c' R) :
    Ends ok (m >>= f) c R := by
  unfold Ends
  rw [bind_run run]
  exact next

/-- A step on tables leaves the state alone. -/
theorem Ends.lift {x : Guarded α} {P : α → Prop} (ends : x.Ends ok P)
    (next : ∀ a, P a → Ends ok (f a) c R) : Ends ok ((liftM x : Check α) >>= f) c R := by
  cases x with
  | ok a => exact next a ends
  | error e => exact ends

/-! ## States -/

/-- All records and texts fit in a block of memory. -/
structure Tight (c : Checker) : Prop where
  short : c.session.types.Short
  roomy : c.session.journal.Roomy
  places : ∀ p ∈ c.functionPlaces, p.2.Near
  mentions : ∀ l ∈ c.labelList, l.mention.Near

/-- What is true of the state at any time, whatever was reported. -/
structure Fine (ok : Fault → Prop) (c : Checker) : Prop where
  regular : c.session.Regular
  string : c.session.types.Holds c.stringType (.array TypeId.char)
  result : c.session.types.Named c.resultType
  linked : ok .badIndex ∨ c.session.Linked
  tight : Loose ok ∨ c.Tight

theorem Fine.short (fine : c.Fine ok) : ok .badLength ∨ c.session.types.Short :=
  fine.tight.imp_right Tight.short

/-- The state with another journal. -/
def withJournal (c : Checker) (j : Journal) : Checker :=
  { c with session := { c.session with journal := j } }

theorem Fine.withTree (fine : c.Fine ok) (t : Arena) : (c.withTree t).Fine ok where
  regular := Session.Regular.congr (s := c.session) rfl rfl rfl fine.regular
  string := fine.string
  result := fine.result
  linked := fine.linked.imp_right (Session.Linked.congr (s := c.session) rfl rfl)
  tight := fine.tight.imp_right fun tight =>
    ⟨tight.short, tight.roomy, tight.places, tight.mentions⟩

theorem Fine.withJournal (fine : c.Fine ok) {j : Journal} {reports : List Report}
    (adds : c.session.journal.Adds j reports) : (c.withJournal j).Fine ok where
  regular := Session.Regular.congr (s := c.session) rfl rfl rfl fine.regular
  string := fine.string
  result := fine.result
  linked := fine.linked.imp_right (Session.Linked.congr (s := c.session) rfl rfl)
  tight := fine.tight.imp_right fun tight =>
    ⟨tight.short, adds.roomy tight.roomy, tight.places, tight.mentions⟩

theorem Fine.withSession (fine : c.Fine ok) {s : Session} (advances : c.session.Advances ok s) :
    (c.withSession s).Fine ok where
  regular := advances.regular
  string := fine.string.continue advances.later.grows.types advances.regular.types
  result := fine.result.continue advances.later.grows.types advances.regular.types
  linked := (or_and fine.linked advances.linked).imp_right fun both => both.2 both.1
  tight := (or_and fine.tight advances.short).imp_right fun both => by
    have roomy : (c.withSession s).session.journal.Roomy := by
      rw [show (c.withSession s).session.journal = _ from advances.journal]
      exact both.1.roomy
    exact ⟨both.2 both.1.short, roomy, both.1.places, both.1.mentions⟩

/-- A rule for expressions changes the tree, adds types and reports, and leaves everything else
alone. -/
structure Onward (c c' : Checker) : Prop where
  same : c' = { c with session := { c.session with
    tree := c'.session.tree, journal := c'.session.journal, types := c'.session.types } }
  types : c.session.types.Continues c'.session.types
  reports : ∃ reports, c.session.journal.Adds c'.session.journal reports

theorem Onward.refl (c : Checker) : c.Onward c := ⟨rfl, .refl _, [], .refl _⟩

theorem Onward.trans (first : c₀.Onward c₁) (second : c₁.Onward c₂) : c₀.Onward c₂ where
  same := by rw [second.same, first.same]
  types := first.types.trans second.types
  reports := by
    obtain ⟨a, adds⟩ := first.reports
    obtain ⟨b, more⟩ := second.reports
    exact ⟨a ++ b, adds.trans more⟩

theorem onward_withTree (c : Checker) (t : Arena) : c.Onward (c.withTree t) :=
  ⟨rfl, .refl _, [], .refl _⟩

theorem onward_withJournal {j : Journal} {reports : List Report}
    (adds : c.session.journal.Adds j reports) : c.Onward (c.withJournal j) :=
  ⟨rfl, .refl _, reports, adds⟩

theorem Onward.later (onward : c.Onward c') : c.session.Later c'.session := by
  have same := congrArg Checker.session onward.same
  have identifiers : c'.session.identifiers = c.session.identifiers := by rw [same]
  refine ⟨⟨onward.types, identifiers ▸ le_refl _, fun id _ => ?_, by rw [same]⟩, by rw [same],
    by rw [same]⟩
  rw [Session.identifier_congr identifiers]

/-- The number of errors that were reported. -/
def errors (c : Checker) : Nat := c.session.journal.errorCount

/-! ## Reading -/

section Reading

variable {x : Rose}

@[simp] theorem currentSession_run (c : Checker) : currentSession c = .ok (c.session, c) := rfl
@[simp] theorem tree_run (c : Checker) : tree c = .ok (c.session.tree, c) := rfl
@[simp] theorem types_run (c : Checker) : types c = .ok (c.session.types, c) := rfl
@[simp] theorem setSession_run (s : Session) (c : Checker) :
    setSession s c = .ok ((), c.withSession s) :=
  rfl
@[simp] theorem setTree_run (t : Arena) (c : Checker) : setTree t c = .ok ((), c.withTree t) := rfl
@[simp] theorem isBroken_run (n : Handle) (c : Checker) :
    isBroken n c = .ok (c.session.tree.isBroken n, c) :=
  rfl

theorem kindOf_run (has : c.session.tree.Has x) :
    kindOf (c.session.tree.handle x.index) c = .ok (x.kind, c) := by
  show Except.ok (c.session.tree.kind _, c) = _
  rw [has.kind]

theorem isLiteral_run (has : c.session.tree.Has x) :
    isLiteral (c.session.tree.handle x.index) c = .ok (x.kind == .literal, c) := by
  show Except.ok (c.session.tree.kind _ == .literal, c) = _
  rw [has.kind]

theorem lift_run {x : Guarded α} (done : x = .ok a) : (liftM x : Check α) c = .ok (a, c) := by
  subst done
  rfl

theorem typeOf_run (has : c.session.tree.Has x) :
    typeOf (c.session.tree.handle x.index) c = .ok (x.exprType, c) :=
  lift_run has.exprType

theorem isPlace_run (has : c.session.tree.Has x) :
    isPlace (c.session.tree.handle x.index) c = .ok (x.isPlace, c) :=
  lift_run has.isPlace

theorem payloadOf_run (has : c.session.tree.Has x) :
    payloadOf (c.session.tree.handle x.index) c = .ok (x.arg 2, c) :=
  lift_run has.payload

theorem locationOf_run (has : c.session.tree.Has x) :
    locationOf (c.session.tree.handle x.index) c = .ok (x.location, c) := lift_run has.location

/-- None of some trees that are there is broken. -/
theorem anyBroken_run (xs : List Rose) (has : ∀ x ∈ xs, c.session.tree.Has x) :
    anyBroken (xs.map fun x => c.session.tree.handle x.index) c = .ok (false, c) := by
  have none :
    (xs.map fun x => c.session.tree.handle x.index).any c.session.tree.isBroken = false := by
    rw [List.any_eq_false]
    intro n mem
    obtain ⟨x, inside, rfl⟩ := List.mem_map.mp mem
    simp [(has x inside).isBroken]
  show Except.ok (List.any _ _, c) = _
  rw [none]

end Reading

/-- A named type can be spelled for a message. -/
theorem typeName_ends (fine : c.Fine ok) {type : TypeId} (named : c.session.types.Named type) :
    Ends ok (typeName type) c fun _ c' => c' = c := by
  have described : (c.session.typeName type).Ends ok fun _ => True :=
    TypeTable.describe_ends named fine.short _
  refine .step (currentSession_run c) ?_
  show Guarded.Ends ok ((liftM (c.session.typeName type) : Check String) c) _
  cases done : c.session.typeName type with
  | ok name => exact rfl
  | error e =>
    rw [done] at described
    exact described

/-! ## Reports and warnings -/

/-- What may be reported about a place. -/
theorem Fine.room (fine : c.Fine ok) {loc : Location} (near : Loose ok ∨ loc.Near) :
    Loose ok ∨ (c.session.journal.Roomy ∧ loc.Near) :=
  (or_and fine.tight near).imp_right fun both => ⟨both.1.roomy, both.2⟩

theorem report_ends (fine : c.Fine ok) {loc : Location} (near : Loose ok ∨ loc.Near)
    (d : Diagnostic) : Ends ok (report loc d) c fun _ c' => ∃ j, c' = c.withJournal j ∧
    c.session.journal.Adds j [⟨.error, loc, d⟩] := by
  have added : (c.session.error loc d).Ends ok fun s =>
      ∃ j, s = { c.session with journal := j } ∧ c.session.journal.Adds j [⟨.error, loc, d⟩] :=
    (Journal.add_ends ⟨.error, loc, d⟩ "" (fine.room near)).bind fun j adds =>
      ends_pure ⟨j, rfl, adds⟩
  refine .step (currentSession_run c) (.lift added fun s ⟨j, same, adds⟩ => ?_)
  subst same
  exact .run (setSession_run _ c) ⟨j, rfl, adds⟩

theorem warn_ends (fine : c.Fine ok) {loc : Location} (near : Loose ok ∨ loc.Near) (w : Warning)
    (d : Diagnostic) : Ends ok (warn w loc d) c fun _ c' => ∃ j reports, c' = c.withJournal j ∧
    c.session.journal.Adds j reports ∧ ∀ r ∈ reports, r = ⟨.warning, loc, d⟩ := by
  have warned : (c.session.warn w loc d).Ends ok fun s =>
      ∃ j reports, s = { c.session with journal := j } ∧
      c.session.journal.Adds j reports ∧ ∀ r ∈ reports, r = ⟨.warning, loc, d⟩ :=
    (Journal.warn_ends w d (fine.room near)).bind fun j ⟨reports, adds, all⟩ =>
      ends_pure ⟨j, reports, rfl, adds, all⟩
  refine .step (currentSession_run c) (.lift warned fun s ⟨j, reports, same, adds, all⟩ => ?_)
  subst same
  exact .run (setSession_run _ c) ⟨j, reports, rfl, adds, all⟩

/-- The errors among some reports. -/
theorem errors_withJournal {j : Journal} {reports : List Report}
    (adds : c.session.journal.Adds j reports) :
    (c.withJournal j).errors = c.errors + reports.countP fun r => r.severity == .error :=
  adds.errorCount

/-! ## What a rule gives -/

/-- What a rule gives: an expression and no error, or a broken node and one error. The trees that it
did not take stay where they are. -/
structure Gives (ok : Fault → Prop) (c : Checker) (rest : List Rose) (good : Session → Rose → Prop)
    (n : Handle) (c' : Checker) : Prop where
  fine : c'.Fine ok
  onward : c.Onward c'
  keeps : c.session.tree.Keeps c'.session.tree rest
  outcome :
    (n = .broken ∧ c'.errors = c.errors + 1 ∧ ∃ junk, c'.session.tree.Carries (junk ++ rest)) ∨
    (c'.errors = c.errors ∧ ∃ x, n = c'.session.tree.handle x.index ∧
    c'.session.tree.Carries (x :: rest) ∧ c'.session.types.Operand ok x ∧ good c'.session x)

variable {rest junk : List Rose} {good good' : Session → Rose → Prop} {n : Handle}

theorem Gives.mono (gives : c.Gives ok rest good n c') (weaker : ∀ s x, good s x → good' s x) :
    c.Gives ok rest good' n c' :=
  ⟨gives.fine, gives.onward, gives.keeps,
    gives.outcome.imp_right fun ⟨errors, x, named, carries, operand, is⟩ =>
    ⟨errors, x, named, carries, operand, weaker _ x is⟩⟩

/-- A rule may go on from a state without new errors. -/
theorem Gives.after (onward : c₀.Onward c) (errors : c.errors = c₀.errors)
    (keeps : c₀.session.tree.Keeps c.session.tree rest)
    (gives : c.Gives ok rest good n c') : c₀.Gives ok rest good n c' :=
  ⟨gives.fine, onward.trans gives.onward, fun r mem => (gives.keeps r mem).trans (keeps r mem),
    errors ▸ gives.outcome⟩

theorem refuse_ends (junk : List Rose) (fine : c.Fine ok)
    (carries : c.session.tree.Carries (junk ++ rest)) {loc : Location} (near : Loose ok ∨ loc.Near)
    (d : Diagnostic) : Ends ok (refuse loc d) c (c.Gives ok rest good) :=
  (report_ends fine near d).bind fun _ c' ⟨j, same, adds⟩ => by
    subst same
    exact .pure ⟨fine.withJournal adds, onward_withJournal adds, fun _ _ => rfl,
      .inl ⟨rfl, (errors_withJournal adds).trans rfl, junk, carries⟩⟩

/-! ## New nodes -/

theorem adoptAll_broken {above : Handle} {ns : List Handle}
    (broken : c.session.tree.isBroken n = true) :
    adoptAll above (n :: ns) c = adoptAll above ns c := by
  conv => lhs; rw [adoptAll]
  simp only [isBroken, tree, bind, StateT.bind, Except.bind, get, getThe, MonadStateOf.get,
    StateT.get, Pure.pure, Except.pure, StateT.pure, broken]
  rfl

theorem adoptAll_live {above : Handle} {ns : List Handle} {t : Arena} {refusal : Option Refusal}
    (live : c.session.tree.isBroken n = false)
    (moved : c.session.tree.adopt above n = .ok (t, refusal)) :
    adoptAll above (n :: ns) c = adoptAll above ns (c.withTree t) := by
  conv => lhs; rw [adoptAll]
  simp only [isBroken, tree, takeTree, bind, StateT.bind, Except.bind, get, getThe,
    MonadStateOf.get, StateT.get, Pure.pure, Except.pure, StateT.pure, live,
    Bool.not_false, if_true, modifyGet, MonadStateOf.modifyGet, StateT.modifyGet, liftM,
    monadLift, MonadLift.monadLift, StateT.lift, moved]
  rfl

/-- The trees of the children, in their order, move under a node. Broken handles are passed over. -/
theorem adoptAll_ends {ks : List Rose} {children : List Handle} {u : Rose}
    (carries : c.session.tree.Carries (u :: (ks ++ rest)))
    (named : children.filter (· ≠ .broken) = ks.map fun k => c.session.tree.handle k.index) :
    ∃ t, adoptAll (c.session.tree.handle u.index) children c = .ok ((), c.withTree t) ∧
      t.Carries (u.pushAll ks :: rest) ∧ c.session.tree.Keeps t (u :: rest) := by
  induction children generalizing c ks u with
  | nil =>
    obtain rfl : ks = [] := List.map_eq_nil_iff.mp named.symm
    exact ⟨c.session.tree, rfl, by simpa using carries, .refl _ _⟩
  | cons n children ih =>
    by_cases missing : n = .broken
    · subst missing
      rw [List.filter_cons_of_neg (by simp)] at named
      obtain ⟨t, run, done⟩ := ih carries named
      exact ⟨t, (adoptAll_broken (Arena.isBroken_broken _)).trans run, done⟩
    · rw [List.filter_cons_of_pos (by simpa using missing)] at named
      obtain ⟨k, ks, rfl, rfl, others⟩ := List.map_eq_cons_iff.mp named.symm
      have live := carries.isBroken (r := k) (by simp)
      obtain ⟨t₁, moved, after, kept⟩ := Arena.Carries.adopt carries
      obtain ⟨t, run, done, keeps⟩ := ih (c := c.withTree t₁) (u := u.push k) after (by
        rw [← others]
        exact List.map_congr_left fun r mem => (kept r (by simp [mem])).symm)
      have same : t₁.handle (u.push k).index = c.session.tree.handle u.index := kept u (by simp)
      refine ⟨t, ?_, by simpa using done, fun r mem => ?_⟩
      · rw [adoptAll_live live moved, ← same]
        exact run
      · rcases List.mem_cons.mp mem with rfl | inside
        · exact (keeps (r.push k) List.mem_cons_self).trans same
        · exact (keeps r (List.mem_cons_of_mem _ inside)).trans (kept r (by simp [inside]))

/-- A node is built above some trees. -/
theorem build_ends {ks : List Rose} {children : List Handle}
    (carries : c.session.tree.Carries (ks ++ rest)) (kind : Kind) (loc : Location) (args : List Int)
    (named : children.filter (· ≠ .broken) = ks.map fun k => c.session.tree.handle k.index) :
    ∃ t i, build kind loc args children c = .ok (t.handle i, c.withTree t) ∧
    t.Carries (.node i kind.number (args ++ [loc.start, loc.stop]) ks :: rest) ∧
    c.session.tree.Keeps t rest := by
  obtain ⟨t₁, made, grown, kept⟩ := carries.addNode kind loc args
  set u : Rose := .node c.session.tree.freshIndex kind.number (args ++ [loc.start, loc.stop]) []
  obtain ⟨t, run, done, keeps⟩ := adoptAll_ends (c := c.withTree t₁) (u := u) grown (by
    rw [named]
    exact List.map_congr_left fun r mem => (kept r (by simp [mem])).symm)
  have same : t.handle u.index = t₁.handle u.index := keeps u List.mem_cons_self
  refine ⟨t, u.index, ?_, done, fun r mem =>
    (keeps r (List.mem_cons_of_mem _ mem)).trans (kept r (by simp [mem]))⟩
  rw [same]
  simp only [build, takeTree, setTree, bind, StateT.bind, Except.bind, Pure.pure, Except.pure,
    modifyGet, MonadStateOf.modifyGet, StateT.modifyGet, modify, liftM, monadLift,
    MonadLift.monadLift, StateT.lift, StateT.pure]
  rw [show c.session.tree.addNode c.session.tree.root kind loc args =
    .ok (t₁, t₁.handle u.index) from made]
  simp only [withTree] at run ⊢
  rw [run]

end Checker

end BilingualC
