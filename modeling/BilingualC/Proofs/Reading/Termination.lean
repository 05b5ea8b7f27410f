import Mathlib
import BilingualC.Proofs.Coupling.Statements
import BilingualC.Proofs.Reading.Whole

/-!
# When reading a program comes to an end

There is one place where a program is not read to its end: where the members of a structure start
after a semicolon, and nothing that can start one is there (`Start.isStuck`). The reader does not
pass a token there, it starts the members over, again and again (`members_stuck`). Everywhere else a
rule is applied from within itself only after one more token was passed (`Start.repeats`), and loops
are rules that apply themselves.

To compare a run that is watched with one that is not, the program is read twice from the same state
(`Coupling.again`): up to the first stuck members both runs are in the same state.
-/

namespace BilingualC

open Guarded Grammar

namespace Grammar

/-! ## Stuck members -/

variable {r : Reader} {c : Checker}

/-- The ways in which a reader may end that starts the same members over: its depth is used up, or a
report is too long. -/
abbrev Worn (f : Fault) : Prop := f = .endless ∨ f = .badLength

theorem typeNamed_none (other : startsType c.session r.current = false) :
    Reads Worn (typeNamed? r.current) r c fun out r' c' => out = none ∧ r' = r ∧ c' = c := by
  have away := (Bool.or_eq_false_iff.mp other).2
  unfold typeNamed?
  refine Reads.ite (fun name => ?_) fun _ => reads_pure ⟨rfl, rfl, rfl⟩
  rw [name, Bool.true_and, Bool.and_eq_false_iff] at away
  refine reads_lift ?_
  show (if _ then none else some _) = none ∧ r = r ∧ c = c
  refine ⟨if_pos ?_, rfl, rfl⟩
  simpa [imp_iff_not_or] using away

/-- No type specifier is read where none starts. -/
theorem typeSpecifier_none (off : r.watch = unwatched)
    (other : startsType c.session r.current = false) (depth : Nat) :
    Reads Worn (typeSpecifier depth) r c fun out r' c' => out = none ∧ r' = r ∧ c' = c := by
  cases depth with
  | zero => exact reads_throw (.inl rfl)
  | succ depth =>
    have plain : r.current.kind.isTypeSpecifier = false := (Bool.or_eq_false_iff.mp other).1
    rw [typeSpecifier]
    refine reads_within (.inr (by rw [off]; rfl)) (reads_current ?_)
    have named :=
      (typeNamed_none (r := { r with trail := (.typeSpecifier, r.pos) :: r.trail }) other)
    split
    iterate 7 next word => rw [show r.current.kind = _ from word] at plain; cases plain
    next =>
      refine named.bind ?_
      rintro _ _ _ ⟨rfl, rfl, rfl⟩
      exact reads_pure ⟨rfl, rfl, rfl⟩

/-- Something is reported to be missing; the tables stay as they are. -/
theorem reportMissing_worn (what : String) : Reads Worn (reportMissing what) r c fun _ r' c' =>
    r' = { r with recovering := true } ∧ ∃ j, c' = c.withJournal j := by
  refine reads_get
    (.ite (fun on => reads_pure ⟨by rw [← on], c.session.journal, rfl⟩) fun off => ?_)
  have added : (c.session.error r.current.loc (.expected what)).Ends Worn fun s =>
    ∃ j, s = { c.session with journal := j } :=
    (Journal.add_ends ⟨.error, r.current.loc, .expected what⟩ "" (.inl (.inr rfl))).bind fun j _ =>
      ends_pure ⟨j, rfl⟩
  have reported : Checker.Ends Worn (Checker.report r.current.loc (.expected what)) c fun _ c' =>
    ∃ j, c' = c.withJournal j := by
    refine .step (Checker.currentSession_run c) (.lift added ?_)
    rintro _ ⟨j, rfl⟩
    exact .run (Checker.setSession_run _ c) ⟨j, rfl⟩
  exact reads_check reported fun _ c' same => reads_modify ⟨rfl, same⟩

/-- Members that are stuck start over until their depth is used up. -/
theorem members_stuck (off : r.watch = unwatched) (after : r.previous.kind = .semicolon)
    (inside : r.current.kind ≠ .rightBrace) (more : r.current.kind ≠ .endOfInput)
    (other : startsType c.session r.current = false) (depth : Nat) :
    Reads Worn (members depth) r c fun _ _ _ => False := by
  induction depth generalizing r c with
  | zero => exact reads_throw (.inl rfl)
  | succ depth ih =>
    rw [members]
    refine reads_within (.inr (by rw [off]; rfl)) (reads_is (reads_is ?_))
    rw [if_neg (by simp [inside, more])]
    refine (typeSpecifier_none (r := { r with trail := (.members, r.pos) :: r.trail }) off other
      depth).bind ?_
    rintro _ _ c ⟨rfl, rfl, rfl⟩
    refine (reportMissing_worn _).bind ?_
    rintro _ _ _ ⟨rfl, j, rfl⟩
    -- The token before is a semicolon, so no token is skipped.
    refine Reads.bind (P := fun _ r' c' => r' = { r with
      trail := (.members, r.pos) :: r.trail
      recovering := false } ∧ c' = c.withJournal j) ?_ ?_
    · rw [Reads, Coupling.run_synchronize, if_pos rfl, if_pos after]
      exact ⟨rfl, rfl⟩
    · rintro _ _ _ ⟨rfl, rfl⟩
      exact ih off after inside more other

end Grammar

/-! ## One program read twice -/

namespace Coupling

/-- The same program is read by a reader with some watch and by one that watches for stuck members.
Where the first one does not watch for them, it may be worn out there. The first one may also be
given less depth. -/
def again (shallow : Prop) (watch : Watch)
    (agrees : ∀ start, watch start = start.isStuck ∨ watch = unwatched) : Coupling where
  place := Eq
  left f := shallow ∧ f = .endless
  right _ := False
  both f g := f = g ∨ (Worn f ∧ g = .stopped)
  first := watch
  second := Start.isStuck
  holds held c d := c = d ∧ ∀ p ∈ held, p.1 = p.2
  lost _ := False
  refl _ := rfl
  span first second := by rw [first, second]
  push known := ⟨known.1, List.forall_mem_cons.mpr ⟨rfl, known.2⟩⟩
  drop less known := ⟨known.1, fun p mem => known.2 p (less.subset mem)⟩
  blind := False.elim
  patient _ _ := id
  endless := .inl rfl
  stopped := .inl rfl
  starts := by
    rintro rule pos t u p q trail c d alike before ⟨rfl, -⟩
    have same : Start.isStuck ⟨rule, pos, u, q, trail, c.session⟩ =
      Start.isStuck ⟨rule, pos, t, p, trail, c.session⟩ := by
      simp only [Start.isStuck, startsType, alike.kind, alike.spelling, before.kind]
    rw [same]
    rcases agrees ⟨rule, pos, t, p, trail, c.session⟩ with watched | off
    · exact .inl watched
    · subst off
      cases stuck : Start.isStuck ⟨rule, pos, t, p, trail, c.session⟩ with
      | false => exact .inl rfl
      | true =>
        simp only [Start.isStuck, Bool.and_eq_true, beq_iff_eq, bne_iff_ne,
          Bool.not_eq_true'] at stuck
        obtain ⟨⟨⟨⟨rfl, after⟩, inside⟩, more⟩, other⟩ := stuck
        refine .inr ⟨rfl, rfl, fun depth r _ current previous off => ?_⟩
        subst current previous
        have worn := members_stuck off after inside more other depth
        cases run : members depth r c with
        | ok out =>
          rw [Grammar.Reads, run] at worn
          exact worn.elim
        | error f =>
          rw [Grammar.Reads, run] at worn
          exact ⟨f, rfl, .inr (.inr ⟨worn, rfl⟩)⟩

section Again

variable {shallow : Prop} {watch : Watch}
    {agrees : ∀ start, watch start = start.isStuck ∨ watch = unwatched}

/-- One step taken twice from the same state. -/
theorem steps_again {α : Type} {ins : List (Handle × Handle)} {m n : Check α} {Q : α → α → Claim}
    (same : (∀ p ∈ ins, p.1 = p.2) → m = n) (known : (∀ p ∈ ins, p.1 = p.2) → ∀ a c, Q a a c c) :
    (again shallow watch agrees).Steps ((again shallow watch agrees).holds ins) m n Q := by
  refine ⟨?_, fun _ _ _ _ => id⟩
  rintro c _ ⟨rfl, equal⟩
  rw [← same equal]
  cases m c with
  | ok p => exact .inl (known equal p.1 p.2)
  | error f => exact .inr (.inr (.inl rfl))

variable {ins held : List (Handle × Handle)}

theorem node_again {m n : Check Handle} (same : (∀ p ∈ ins, p.1 = p.2) → m = n) (sub : held ⊆ ins) :
    (again shallow watch agrees).Steps ((again shallow watch agrees).holds ins) m n fun a b =>
      (again shallow watch agrees).holds ((a, b) :: held) :=
  steps_again same fun equal _ _ =>
    ⟨rfl, List.forall_mem_cons.mpr ⟨rfl, fun p mem => equal p (sub mem)⟩⟩

theorem answer_again {α : Type} {m n : Check α} (same : m = n) :
    (again shallow watch agrees).Steps ((again shallow watch agrees).holds held) m n fun a b =>
      (again shallow watch agrees).knows (a = b) held :=
  steps_again (fun _ => same) fun equal _ _ => ⟨rfl, rfl, equal⟩

theorem quiet_again {m n : Check Unit} (same : m = n) :
    (again shallow watch agrees).Steps ((again shallow watch agrees).holds held) m n fun _ _ =>
      (again shallow watch agrees).holds held :=
  steps_again (fun _ => same) fun equal _ _ => ⟨rfl, equal⟩

theorem eq_of_pairs {ns ms : List Handle} (length : ns.length = ms.length)
    (equal : ∀ p ∈ pairs ns ms, p.1 = p.2) : ns = ms := by
  refine List.ext_getElem length fun i low high => ?_
  exact equal (ns[i], ms[i]) (List.mem_reverse.mpr
    (List.mem_iff_getElem.mpr ⟨i, by simpa using ⟨low, high⟩, List.getElem_zip⟩))

theorem eq_of_fields {a b : List Checker.WrittenField}
    (alike : List.Forall₂ (again shallow watch agrees).FieldAlike a b) : a = b := by
  induction alike with
  | nil => rfl
  | @cons f g _ _ first _ ih =>
    obtain ⟨name, type, loc⟩ := first
    cases f
    cases g
    cases name
    cases type
    cases loc
    rw [ih]

theorem eq_of_parameters {a b : List Checker.Parameter}
    (alike : List.Forall₂ (again shallow watch agrees).ParameterAlike a b) : a = b := by
  induction alike with
  | nil => rfl
  | @cons f g _ _ first _ ih =>
    obtain ⟨spelling, type, loc⟩ := first
    cases f
    cases g
    cases spelling
    cases type
    cases loc
    rw [ih]

theorem head_eq {n m : Handle} (equal : ∀ p ∈ (n, m) :: held, p.1 = p.2) : n = m :=
  equal (n, m) List.mem_cons_self

theorem tail_eq {n m : Handle} (equal : ∀ p ∈ (n, m) :: held, p.1 = p.2) : ∀ p ∈ held, p.1 = p.2 :=
  fun p mem => equal p (List.mem_cons_of_mem _ mem)

theorem pairs_eq {ns ms : List Handle} (length : ns.length = ms.length)
    (equal : ∀ p ∈ pairs ns ms ++ held, p.1 = p.2) : ns = ms :=
  eq_of_pairs length fun p mem => equal p (List.mem_append_left _ mem)

theorem again_expressionSteps : (again shallow watch agrees).ExpressionSteps where
  report d place := by cases place; exact quiet_again rfl
  namedType _ := answer_again rfl
  builtin _ := answer_again rfl
  identifier _ place := by cases place; exact node_again (fun _ => rfl) (List.Subset.refl _)
  value _ _ := node_again (fun equal => by rw [head_eq equal]) (List.subset_cons_self _ _)
  constant alike := by
    refine node_again (fun _ => ?_) (List.Subset.refl _)
    simp only [Checker.constant, alike.kind, alike.intValue, alike.floatValue, alike.stringIndex,
      show _ = _ from alike.loc]
  subscript _ _ _ _ opening close := by
    cases opening
    cases close
    exact node_again (fun equal => by rw [head_eq equal, head_eq (tail_eq equal)]) (by simp)
  call _ _ _ _ length opening close := by
    cases opening
    cases close
    exact node_again (fun equal => by rw [head_eq equal, pairs_eq length (tail_eq equal)]) (by simp)
  library _ _ _ length place := by
    cases place
    exact node_again (fun equal => by rw [pairs_eq length equal]) (by simp)
  member _ _ _ _ op place := by
    cases op
    cases place
    exact node_again (fun equal => by rw [head_eq equal]) (by simp)
  unary _ _ _ place := by
    cases place
    exact node_again (fun equal => by rw [head_eq equal]) (by simp)
  binary _ _ _ _ _ place := by
    cases place
    exact node_again (fun equal => by rw [head_eq equal, head_eq (tail_eq equal)]) (by simp)
  ternary _ _ _ _ _ _ place := by
    cases place
    exact node_again (fun equal =>
        by rw [head_eq equal, head_eq (tail_eq equal), head_eq (tail_eq (tail_eq equal))])
        fun p mem => by
      simp [mem]
  initializerList _ _ length opening close := by
    cases opening
    cases close
    exact node_again (fun equal => by rw [pairs_eq length equal]) (by simp)
  condition _ _ := node_again (fun equal => by rw [head_eq equal]) (by simp)

theorem again_declarationSteps : (again shallow watch agrees).DeclarationSteps where
  toExpressionSteps := again_expressionSteps
  makeType _ := answer_again rfl
  structureOf _ place := by cases place; exact answer_again rfl
  declareStructure _ fields place := by
    cases place
    cases eq_of_fields fields
    exact answer_again rfl
  emptyBound place := by cases place; exact node_again (fun _ => rfl) (by simp)
  declareVariable _ _ place := by cases place; exact answer_again rfl
  variableDeclaration _ _ _ _ _ _ length place := by
    cases place
    exact node_again (fun equal => by rw [head_eq equal, pairs_eq length (tail_eq equal)]) (by simp)
  typeDefinition _ _ place := by cases place; exact node_again (fun _ => rfl) (by simp)
  declaration _ _ length place := by
    cases place
    exact node_again (fun equal => by rw [pairs_eq length equal]) (by simp)

theorem again_statementSteps : (again shallow watch agrees).StatementSteps where
  toDeclarationSteps := again_declarationSteps
  null place := by cases place; exact node_again (fun _ => rfl) (by simp)
  ifElse _ _ _ _ _ _ _ place := by
    cases place
    exact node_again (fun equal =>
        by rw [head_eq equal, head_eq (tail_eq equal), head_eq (tail_eq (tail_eq equal))])
        fun p mem => by
      simp [mem]
  whileLoop _ _ _ _ place := by
    cases place
    exact node_again (fun equal => by rw [head_eq equal, head_eq (tail_eq equal)]) (by simp)
  doWhile _ _ _ _ place := by
    cases place
    exact node_again (fun equal => by rw [head_eq equal, head_eq (tail_eq equal)]) (by simp)
  forLoop init init' cond cond' step step' _ _ first second third place := by
    cases place
    refine node_again (fun equal => ?_) fun p mem => by simp [mem]
    obtain ⟨_, _⟩ := init
    obtain ⟨_, _⟩ := init'
    obtain ⟨_, _⟩ := cond
    obtain ⟨_, _⟩ := cond'
    obtain ⟨_, _⟩ := step
    obtain ⟨_, _⟩ := step'
    cases first
    cases second
    cases third
    cases head_eq equal
    cases head_eq (tail_eq equal)
    cases head_eq (tail_eq (tail_eq equal))
    cases head_eq (tail_eq (tail_eq (tail_eq equal)))
    rfl
  enterLoop := quiet_again rfl
  exitLoop := quiet_again rfl
  enterSwitch := quiet_again rfl
  exitSwitch := quiet_again rfl
  switching _ _ _ _ place := by
    cases place
    exact node_again (fun equal => by rw [head_eq equal, head_eq (tail_eq equal)]) (by simp)
  caseLabel _ _ _ _ place := by
    cases place
    exact node_again (fun equal => by rw [head_eq equal, head_eq (tail_eq equal)]) (by simp)
  defaultLabel _ _ place := by
    cases place
    exact node_again (fun equal => by rw [head_eq equal]) (by simp)
  jump _ place := by cases place; exact node_again (fun _ => rfl) (by simp)
  returning _ _ _ place := by
    cases place
    exact node_again (fun equal => by rw [head_eq equal]) (by simp)
  breaking place := by cases place; exact node_again (fun _ => rfl) (by simp)
  continuing place := by cases place; exact node_again (fun _ => rfl) (by simp)
  labelled _ _ _ place := by
    cases place
    exact node_again (fun equal => by rw [head_eq equal]) (by simp)
  openScope := answer_again rfl
  closeScope _ := quiet_again rfl
  block _ _ length place := by
    cases place
    exact node_again (fun equal => by rw [pairs_eq length equal]) (by simp)
  declareFunction _ _ place := by cases place; exact answer_again rfl
  beginFunction _ parameters place := by
    cases place
    cases eq_of_parameters parameters
    exact answer_again rfl
  functionDefinition _ _ _ _ place := by
    cases place
    exact node_again (fun equal => by rw [head_eq equal]) (by simp)
  unit place := by
    cases place
    exact steps_again (fun _ => rfl) fun equal _ _ => ⟨rfl, equal⟩

end Again

end Coupling

/-! ## Programs -/

namespace Grammar

/-- Says whether a rule is applied from within itself although no token was passed since it
started. -/
def Start.repeats (start : Start) : Bool :=
  start.within.any fun e => e.1 == start.rule && decide (start.pos ≤ e.2)

theorem Start.IsFresh.repeats {start : Start} (fresh : start.IsFresh) : start.repeats = false := by
  rw [Start.repeats, List.any_eq_false]
  intro e mem
  rcases fresh e mem with before | ⟨-, rank⟩
  · simp [Nat.not_le.mpr before]
  · have other : e.1 ≠ start.rule := fun same => by simp [same] at rank
    simp [other]

/-- A reader comes to a start that it watches for, if its rules may nest deep enough. -/
def Reaches (c : Checker) (tokens : List Token) (watch : Watch) : Prop :=
  ∃ depth count, programOf depth count (reader tokens watch) c = .error .stopped

section Programs

variable {before : List Rose} {tokens : List Token} {c : Checker} {watch : Watch}
    {depth count d e k l : Nat}

/-- A program is read with any depth; it may come to no end. -/
theorem reads_deep (starts : Starts (fun _ => False) before tokens c)
    (stopped : ∀ start : Start, start.IsFresh ∨ start.isStuck = true → watch start = false)
    (depth count : Nat) :
    Reads (· = .endless) (programOf depth count) (reader tokens watch) c fun _ _ _ => True := by
  have starts : Starts (· = .endless) before tokens c := starts.widen nofun
  have good : (course tokens watch).Good (· = .endless) :=
    good_course starts.offers (.inr stopped) (.inl rfl)
  have left : PartsLeft (· = .endless) False 0 { course tokens watch with before } []
    (reader tokens watch) c :=
    ⟨at_start starts good, nofun⟩
  exact (reads_programOf depth count left (ready_of_fresh (.inl rfl) nofun) (.inl rfl)).mono
    fun _ _ _ _ => trivial

/-- A reader that watches for stuck members reads a whole program or stops. -/
theorem reads_watching (starts : Starts (fun _ => False) before tokens c) :
    Reads (· = .stopped) program (reader tokens Start.isStuck) c fun _ _ _ => True := by
  have starts : Starts (· = .stopped) before tokens c := starts.widen nofun
  have good : (course tokens Start.isStuck).Good (· = .stopped) :=
    good_course starts.offers (.inl rfl) (.inr fun _ stuck => stuck)
  have left : PartsLeft (· = .stopped) False 0 { course tokens Start.isStuck with before } []
    (reader tokens Start.isStuck) c :=
    ⟨at_start starts good, nofun⟩
  refine reads_get ((reads_programOf _ _ left (ready_of_fresh (.inr ?_) nofun) (.inr ?_)).mono
    fun _ _ _ _ => trivial)
  · simp only [depthBound, Rule.rank]
    show 19 + 32 * ((reader tokens Start.isStuck).tokens.size - 0) ≤ _
    omega
  · show (reader tokens Start.isStuck).tokens.size - 0 ≤ _
    omega

/-- The same program read with and without a watch for stuck members. -/
theorem meets_again (tokens : List Token) (c : Checker) (shallow : Prop)
    (agrees : ∀ start, watch start = start.isStuck ∨ watch = unwatched)
    (deep : d = e ∨ (shallow ∧ d ≤ e)) (many : k = l ∨ (shallow ∧ k ≤ l)) :
    (Coupling.again shallow watch agrees).Meets (fun _ => False) (programOf d k
      (reader tokens watch) c) (programOf e l (reader tokens Start.isStuck) c) fun _ _ => True := by
  have beside : (Coupling.again shallow watch agrees).Beside (reader tokens watch)
    (reader tokens Start.isStuck) :=
    ⟨List.forall₂_same.mpr fun t _ => Coupling.alike_refl _ t, rfl, Coupling.alike_refl _ _,
      Coupling.alike_refl _ _, rfl, rfl, rfl, rfl⟩
  have reads : (Coupling.again shallow watch agrees).Reads
    ((Coupling.again shallow watch agrees).holds []) _ _ _ :=
    Coupling.reads_programOf Coupling.again_statementSteps (deep.imp_right fun both =>
      ⟨⟨both.1, rfl⟩, both.2⟩) (many.imp_right fun both => ⟨⟨both.1, rfl⟩, both.2⟩)
  -- Both readers are at the first token, with the same state of the checker.
  exact (reads.meets _ _ c c beside ⟨rfl, nofun⟩).mono fun _ _ _ => trivial

/-- Where a reader can get to stuck members, no depth is enough for one that does not watch for
them. -/
theorem endless_of_reaches (starts : Starts (fun _ => False) before tokens c)
    (reaches : Reaches c tokens Start.isStuck)
    (depth count : Nat) : programOf depth count (reader tokens unwatched) c = .error .endless := by
  obtain ⟨e, l, stops⟩ := reaches
  -- A reader with more depth that watches for stuck members stops as well.
  have deeper :
    programOf (max depth e) (max count l) (reader tokens Start.isStuck) c = .error .stopped := by
    have both := meets_again tokens c True (fun start => Or.inl (Eq.refl start.isStuck))
      (.inr ⟨trivial, le_max_right depth e⟩) (.inr ⟨trivial, le_max_right count l⟩)
    rw [stops] at both
    cases run : programOf (max depth e) (max count l) (reader tokens Start.isStuck) c with
    | ok q =>
      rw [run] at both
      rcases both with ⟨-, other⟩ | lost
      · cases other
      · exact lost.elim
    | error g =>
      rw [run] at both
      rcases both with ⟨-, other⟩ | none | same | ⟨worn, -⟩
      · cases other
      · exact none.elim
      · rw [same]
      · rcases worn with other | other <;> cases other
  have both := meets_again tokens c True (fun _ => Or.inr (Eq.refl unwatched))
    (.inr ⟨trivial, le_max_left depth e⟩) (.inr ⟨trivial, le_max_left count l⟩)
  have ends :
    Reads (· = .endless) (programOf depth count) (reader tokens unwatched) c fun _ _ _ => True :=
    reads_deep starts (fun _ _ => rfl) depth count
  rw [deeper] at both
  cases run : programOf depth count (reader tokens unwatched) c with
  | ok p =>
    rw [run] at both
    exact both.elim
  | error f =>
    rw [Reads, run] at ends
    rw [show f = .endless from ends]

/-- **When reading comes to an end.** A program is read to its end exactly if the reader never comes
to the members of a structure after a semicolon, with a token that is neither a closing brace nor
the end of the input and that starts no type specifier. Otherwise no depth of rules is enough. Apart
from these members no rule is applied from within itself before one more token was passed, however
deep the rules may nest. -/
theorem parse_ends_iff (starts : Starts (fun _ => False) before tokens c) :
    ((∃ out, parse c tokens = .ok out) ↔ ¬ Reaches c tokens Start.isStuck) ∧
    (Reaches c tokens Start.isStuck →
      ∀ depth count, programOf depth count (reader tokens unwatched) c = .error .endless) ∧
    ¬ Reaches c tokens fun start => start.repeats && !start.isStuck := by
  refine ⟨⟨?_, fun never => ?_⟩, endless_of_reaches starts, ?_⟩
  · rintro ⟨out, done⟩ reaches
    have endless : program (reader tokens unwatched) c = .error .endless :=
      endless_of_reaches starts reaches _ _
    have run : parse c tokens = .error .endless := by
      show (program (reader tokens unwatched) c >>= _) = _
      rw [endless]
      rfl
    rw [run] at done
    cases done
  · have watching := reads_watching starts
    have both : (Coupling.again False unwatched fun _ => .inr rfl).Meets (fun _ => False) (program
      (reader tokens unwatched) c) (program (reader tokens Start.isStuck) c) fun _ _ => True :=
      meets_again tokens c False (fun _ => .inr rfl) (.inl rfl) (.inl rfl)
    cases second : program (reader tokens Start.isStuck) c with
    | error g =>
      rw [Reads, second] at watching
      obtain rfl : g = .stopped := watching
      exact absurd ⟨_, _, second⟩ never
    | ok q =>
      rw [second] at both
      cases first : program (reader tokens unwatched) c with
      | error f =>
        rw [first] at both
        rcases both with ⟨none, -⟩ | none
        · exact none.elim
        · exact none.elim
      | ok p =>
        refine ⟨(p.2, p.1.1), ?_⟩
        show (program (reader tokens unwatched) c >>= _) = _
        rw [first]
        rfl
  · rintro ⟨depth, count, stops⟩
    have ends : Reads (· = .endless) (programOf depth count) (reader tokens fun start =>
        start.repeats && !start.isStuck) c fun _ _ _ => True := by
      refine reads_deep starts (fun start known => ?_) depth count
      rcases known with fresh | stuck
      · simp [fresh.repeats]
      · simp [stuck]
    rw [Reads, stops] at ends
    cases ends

theorem starts_new {s : Session} {tokens : List Token}
    (opens : s.Opens) (offers : s.Offers (fun _ => False) tokens) :
    ∃ c, Checker.new s = .ok c ∧ Starts (fun _ => False) [] tokens c := by
  have room := (offers.near.resolve_left id).2.2
  obtain ⟨c, started, begins⟩ :=
    (Checker.new_ends opens.regular (.inr opens.linked) (.inr ⟨opens.short, room⟩)).answer
  exact ⟨c, started, starts_begins opens offers begins⟩

/-- A structure with an empty member: where the second semicolon stands the members are stuck. -/
def emptyMember : List Token :=
  [.bare .structWord ⟨0, 6⟩, .bare .leftBrace ⟨7, 8⟩, .bare .intWord ⟨9, 12⟩,
    .bare .semicolon ⟨13, 14⟩, .bare .semicolon ⟨15, 16⟩, .bare .endOfInput ⟨16, 16⟩]

theorem parse_ends_iff_emptyMember :
    ∃ c, Checker.new (Session.new Kind.unit.number (.new none true)) = .ok c ∧
    Starts (fun _ => False) [] emptyMember c ∧
    ((∃ out, parse c emptyMember = .ok out) ↔ ¬ Reaches c emptyMember Start.isStuck) ∧
    (Reaches c emptyMember Start.isStuck →
      ∀ depth count, programOf depth count (reader emptyMember unwatched) c = .error .endless) ∧
    ¬ Reaches c emptyMember fun start => start.repeats && !start.isStuck := by
  have opens : (Session.new Kind.unit.number (.new none true)).Opens := Session.opens_new _
  have offers :
    (Session.new Kind.unit.number (.new none true)).Offers (fun _ => False) emptyMember := by
    have near : ∀ tok ∈ emptyMember, tok.loc.Near := by
      simp only [emptyMember, Token.bare, List.forall_mem_cons]
      exact ⟨⟨by decide, by decide⟩, ⟨by decide, by decide⟩, ⟨by decide, by decide⟩,
        ⟨by decide, by decide⟩, ⟨by decide, by decide⟩, ⟨by decide, by decide⟩, by simp⟩
    have short : (emptyMember.length + 1 : Int) * 4 ≤ largestBlock := by
      simp [emptyMember, largestBlock]
    exact ⟨.inr (by simp [emptyMember, Token.bare]),
      .inr ⟨near, short, .inr (by simp [Session.new, Journal.new])⟩⟩
  obtain ⟨c, started, starts⟩ := starts_new opens offers
  exact ⟨c, started, starts, parse_ends_iff starts⟩

end Programs

end Grammar

end BilingualC
