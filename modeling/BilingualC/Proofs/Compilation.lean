import Mathlib
import BilingualC.Compilation
import BilingualC.Proofs.Arena.Refinement
import BilingualC.Proofs.Grammar.Program
import BilingualC.Proofs.Lowering.Program

/-!
# Compiling sources

Before the first declaration a session has sound tables without functions, and nothing waits
(`Session.Fresh`); scanning the sources and declaring the library keeps that. So the tree of sources
without errors is complete and well-formed, whatever they are (`Compilation.analyze_complete`).
-/

namespace BilingualC

open Checker Session

namespace Session

variable {s t : Session}

/-! ## Fresh sessions -/

/-- A session in which nothing of a program was declared. -/
structure Fresh (s : Session) : Prop where
  tables : s.Tables
  tree : s.tree.Holds (.unit [])
  functions : s.functions = #[]

theorem fresh_new (journal : Journal) : (Session.new Kind.unit.number journal).Fresh := by
  have none (id : Int) : (Session.new Kind.unit.number journal).identifier id = .none := by
    refine identifier_of_out fun ⟨low, high⟩ => ?_
    have single : (Session.new Kind.unit.number journal).identifiers.size = 1 := rfl
    omega
  have visible : (Session.new Kind.unit.number journal).Visible 0 :=
    ⟨Int.one_pos, by rw [none]; decide⟩
  have tables : (Session.new Kind.unit.number journal).Tables := by
    constructor
    case types => exact TypeTable.sound_empty
    case some => exact Nat.one_pos
    case entries =>
      intro id
      rw [none]
      exact ⟨.scalar (by decide), fun _ => rfl, nofun, nofun, nofun, nofun⟩
    case shown =>
      intro e mem
      obtain rfl : e = ⟨"", 0, 0⟩ := by simpa [Session.new, Spellings.empty] using mem
      exact visible
    case hidden =>
      intro e mem
      obtain rfl : e = .none := by simpa [Session.new] using mem
      exact visible
    case numbers =>
      intro i j first
      rw [none] at first
      cases first
    case counted =>
      intro n low
      cases low
    case unknown =>
      intro a mem
      cases Array.not_mem_empty a mem
    case main => exact fun there => absurd rfl there
    case defined =>
      intro id low high
      have outside : id < 1 := high
      omega
  exact ⟨tables, Arena.holds_new _, rfl⟩

theorem Fresh.update (fresh : s.Fresh) (updates : s.Updates t)
    (functions : t.functions = s.functions) : t.Fresh :=
  ⟨updates.tables, updates.tree ▸ fresh.tree, functions.trans fresh.functions⟩

theorem Fresh.addString (fresh : s.Fresh) (text : String) : (s.addString text).1.Fresh := by
  obtain ⟨grows, tables⟩ :=
    fresh.tables.of_same (t := (s.addString text).1) rfl rfl rfl rfl fresh.tables.shown
  exact ⟨tables, fresh.tree, fresh.functions⟩

theorem Fresh.intern (fresh : s.Fresh) (text : String) : (s.intern text).1.Fresh :=
  fresh.update (fresh.tables.updates_intern text) rfl

/-! ## Scanning -/

/-- A property of sessions that new reports, spellings and strings leave alone. -/
structure Standing (P : Session → Prop) : Prop where
  journal : ∀ s j, P s → P { s with journal := j }
  intern : ∀ s text, P s → P (s.intern text).1
  string : ∀ s text, P s → P (s.addString text).1

theorem standing_fresh : Standing Fresh :=
  ⟨fun _ j fresh => fresh.update (fresh.tables.updates_journal j) rfl,
    fun _ text fresh => fresh.intern text, fun _ text fresh => fresh.addString text⟩

namespace Standing

variable {P : Session → Prop} (standing : Standing P)

include standing

theorem takeNotes (holds : P s) {notes : List Note} (done : s.takeNotes notes = .ok t) : P t := by
  induction notes generalizing s with
  | nil =>
    cases done
    exact holds
  | cons note rest ih =>
    rw [Session.takeNotes] at done
    split at done
    all_goals
      obtain ⟨u, taken, later⟩ := Guarded.bind_eq_ok.mp done
      obtain ⟨j, -, same⟩ := Guarded.bind_eq_ok.mp taken
      cases same
      exact ih (standing.journal s j holds) later

theorem lexemeToken (holds : P s) (features : Features) (loc : Location) (lexeme : Lexeme) :
    P (s.lexemeToken features loc lexeme).1 := by
  unfold Session.lexemeToken
  split
  case h_3 text =>
    unfold Session.wordToken
    split
    · exact holds
    · exact standing.intern s text holds
  case h_8 value => exact standing.string s value holds
  all_goals exact holds

theorem takeScans (holds : P s) {features : Features} {scans : List Scan} {tokens : List Token}
    (done : s.takeScans features scans = .ok (t, tokens)) : P t := by
  induction scans generalizing s t tokens with
  | nil =>
    cases done
    exact holds
  | cons scan rest ih =>
    obtain ⟨⟨u, token⟩, taken, done⟩ := Guarded.bind_eq_ok.mp done
    obtain ⟨⟨v, more⟩, later, same⟩ := Guarded.bind_eq_ok.mp done
    cases same
    obtain ⟨noted, notes, same⟩ := Guarded.bind_eq_ok.mp taken
    have scanned := standing.lexemeToken (standing.takeNotes holds notes) features ⟨scan.start,
      scan.stop⟩ scan.lexeme
    rw [Except.ok.inj same] at scanned
    exact ih scanned later

theorem tokenizeEach (holds : P s) {features : Features}
    {sources : List Source} {files : List (List Token)}
    (done : Compilation.tokenizeEach features s sources = .ok (t, files)) : P t := by
  induction sources generalizing s t files with
  | nil =>
    cases done
    exact holds
  | cons source rest ih =>
    obtain ⟨⟨u, tokens⟩, scanned, done⟩ := Guarded.bind_eq_ok.mp done
    obtain ⟨⟨v, more⟩, later, same⟩ := Guarded.bind_eq_ok.mp done
    cases same
    exact ih (standing.takeScans (standing.journal s _ holds) scanned) later

end Standing

/-! ## The library -/

namespace Fresh

/-- The displacement of a declaration that was just taken in may be set. -/
theorem taken_setDisplacement {u : Session} {e : Identifier} {n : Int} (taken : s.Taken u e)
    (other : e.kind ≠ .function) (done : u.setDisplacement s.identifiers.size n = .ok t) :
    s.Taken t { e with displacement := n } := by
  obtain ⟨-, -, rfl⟩ := changeIdentifier_eq_ok done
  refine ⟨taken.tree, taken.types, ?_, taken.new, ?_, fun isFunction => absurd isFunction other,
    taken.previous, taken.shown, taken.main⟩
  · show u.identifiers.setIfInBounds _ _ = _
    rw [taken.identifiers]
    apply Array.ext
    · simp
    · intro i low high
      rw [Array.getElem_setIfInBounds (by simpa using low)]
      by_cases last : i = s.identifiers.size
      · subst last
        simp
      · have old : i < s.identifiers.size := by
          rw [Array.size_push] at high
          omega
        simp [Array.getElem_push, Ne.symm last, old]
  · exact taken.functions

theorem declareBuiltin (fresh : s.Fresh) {b : Builtin} (listed : b.isListed = true) {text : String}
    (done : Checker.declareBuiltin s b text = .ok t) : t.Fresh ∧ s.Grows t := by
  have interned := fresh.intern text
  have known := (fresh.tables.updates_intern text).grows
  unfold Checker.declareBuiltin at done
  dsimp only at done
  split at done
  next =>
    cases done
    exact ⟨interned, known⟩
  next hidden =>
    obtain ⟨out, declared, done⟩ := Guarded.bind_eq_ok.mp done
    cases out with
    | error e =>
      cases done
      exact ⟨interned, known⟩
    | ok out =>
      obtain ⟨u, id⟩ := out
      obtain ⟨rfl, previous, displacement, taken⟩ := declare_inv interned.tables declared
      have set := taken_setDisplacement taken (by simp) done
      have undefined : TypeId.undefined ≤ 0 := by decide
      have updates :=
        interned.tables.updates_taken set ⟨.scalar undefined, by simp, by simp, by simp, fun _ => by
        rw [Builtin.ofNumber_number listed]
        exact listed, by simp⟩ fun typed => absurd rfl typed.2
      exact ⟨interned.update updates (set.functions.trans (if_neg (by simp))),
        known.trans updates.grows⟩

theorem declareBuiltins (fresh : s.Fresh) {builtins : List (Builtin × String)}
    (listed : ∀ b ∈ builtins, b.1.isListed = true)
    (done : Checker.declareBuiltins s builtins = .ok t) : t.Fresh ∧ s.Grows t := by
  induction builtins generalizing s with
  | nil =>
    cases done
    exact ⟨fresh, .refl _⟩
  | cons b rest ih =>
    obtain ⟨u, first, later⟩ := Guarded.bind_eq_ok.mp done
    obtain ⟨next, grows⟩ := fresh.declareBuiltin (listed b List.mem_cons_self) first
    obtain ⟨last, more⟩ := ih next (fun d mem => listed d (List.mem_cons_of_mem b mem)) later
    exact ⟨last, grows.trans more⟩

end Fresh

end Session

namespace Checker

/-- A checker that starts stands before the first part of a program. -/
theorem outer_new {s : Session} {c : Checker} (fresh : s.Fresh) (done : Checker.new s = .ok c) :
    c.Outer [] := by
  obtain ⟨t, declared, same⟩ := Guarded.bind_eq_ok.mp done
  cases same
  have char : TypeId.char ≤ 0 := by decide
  have undefined : TypeId.undefined ≤ 0 := by decide
  have typed := fresh.tables.updates_types (.array (.scalar char : s.types.Valid TypeId.char))
  have string := (TypeTable.added_array fresh.tables.types (.scalar char)).valid
  obtain ⟨library, grows⟩ :=
    (fresh.update typed rfl).declareBuiltins builtinSpellings_listed declared
  have opened := library.tables.updates_enterBlock
  have ready := library.update opened rfl
  have undeclared (id : Int) : (t.enterBlock.1.identifier id).kind ≠ .function := fun kind => by
    obtain ⟨-, low, high⟩ := (ready.tables.entries id).function kind
    rw [ready.functions] at high
    exact absurd (high.trans_le' low) (lt_irrefl 0)
  have parts : t.enterBlock.1.PartsOk [] := {
    form := by simp
    covers := by simp
    jumps := by simp
    spellings := by simp
    labels := List.nodup_nil
    once := List.nodup_nil
    defined := fun id kind => absurd kind (undeclared id) }
  refine ⟨?stands, rfl, rfl⟩
  exact {
    holds := ready.tree
    covers := by simp
    tables := ready.tables
    string := string.continue (grows.trans opened.grows).types
    result := .scalar undefined
    loops := le_refl 0
    switches := le_refl 0
    labels := ⟨List.nodup_nil, by simp [labelList], .refl _, by simp [jumpsIn], List.nodup_nil⟩
    parts
    keeps := .refl _ }

end Checker

namespace Compilation

/-! ## Sources without errors -/

/-- Sources without errors have a complete program. -/
theorem analyze_complete {s t : Session} {tokens : List Token} {root : Handle} (fresh : s.Fresh)
    (done : analyze s tokens = .ok (t, root)) (clean : t.journal.hadError = false) :
    ∃ (c : Checker) (parts : List Rose), c.session = t ∧ root = t.tree.root ∧ c.Complete parts := by
  obtain ⟨c, started, done⟩ := Guarded.bind_eq_ok.mp done
  obtain ⟨⟨c', root⟩, read, same⟩ := Guarded.bind_eq_ok.mp done
  cases same
  have outside : OutsideWith [] (fun _ => True) c := .inr ⟨[], outer_new fresh started, True.intro⟩
  obtain dirty | ⟨parts, top, complete⟩ := Grammar.parse_complete read outside
  · exact absurd (clean.symm.trans dirty) (by decide)
  · exact ⟨c', parts, rfl, top, complete⟩

/-! ## Compilations without errors -/

variable {options : Options} {sources : List Source} {out : Compilation}

/-- A compilation without errors has scanned the sources, read them and generated code. -/
theorem run_stages {P : Session → Prop} (standing : Standing P)
    (new : ∀ journal, P (.new Kind.unit.number journal)) (some : sources ≠ [])
    (done : run options sources = .ok out) (clean : out.session.journal.hadError = false) :
    ∃ (s u t : Session) (tokens : List Token) (root : Handle) (result :
      Except Lowering.GenerationError Image), scan options sources = .ok (s, tokens) ∧
    P s ∧ analyze s tokens = .ok (u, root) ∧ u.journal.hadError = false ∧
    Lowering.generate u root = .ok (t, result) ∧ out = ⟨t, result.mapError .generation⟩ := by
  rw [run, if_neg (by simpa using some)] at done
  obtain ⟨⟨s, tokens⟩, scanned, done⟩ := Guarded.bind_eq_ok.mp done
  obtain ⟨⟨s', files⟩, each, same⟩ := Guarded.bind_eq_ok.mp scanned
  cases same
  obtain ⟨⟨u, root⟩, read, done⟩ := Guarded.bind_eq_ok.mp done
  dsimp only at done
  split at done
  next dirty =>
    cases done
    exact absurd (clean.symm.trans dirty) (by decide)
  next noError =>
    obtain ⟨⟨t, result⟩, made, same⟩ := Guarded.bind_eq_ok.mp done
    exact ⟨s, u, t, _, root, result, scanned, standing.tokenizeEach (new _) each, read,
      by simpa using noError, made, (Except.ok.inj same).symm⟩

end Compilation

end BilingualC
