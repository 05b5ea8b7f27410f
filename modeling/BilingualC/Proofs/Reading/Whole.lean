import Mathlib
import BilingualC.Proofs.Compilation
import BilingualC.Proofs.Reading.Program

/-!
# Reading whole programs

A session in which nothing was declared is a place to start from (`Session.Opens`), and the tokens
of a program are a course from its first to its last one. So what is known of a reader is known of
every run of `Compilation.analyze`: it ends with a program or in one of the ways that are allowed
for (`Compilation.analyze_ends`), and without an error the expressions of the program follow the
typing rules (`Compilation.analyze_ruled`), and its locations are nested
(`Compilation.analyze_nested`).
-/

namespace BilingualC

open Guarded Rose Grammar

variable {ok : Fault → Prop}

/-! ## Where a program is read -/

namespace Session

variable {s : Session}

/-- A session in which a program can be read: nothing was declared in its tables. -/
structure Opens (s : Session) : Prop extends s.Fresh where
  regular : s.Regular
  linked : s.Linked
  short : s.types.Short

theorem opens_new (journal : Journal) : (Session.new Kind.unit.number journal).Opens :=
  ⟨fresh_new journal, regular_new _ journal, linked_new _ journal, short_new _ journal⟩

theorem Fresh.library (fresh : s.Fresh) : s.Library :=
  fun id isBuiltin => (fresh.tables.entries id).library isBuiltin

/-- Scanning leaves a session in which a program can be read. -/
theorem standing_opens : Standing Opens where
  journal s j opens := ⟨standing_fresh.journal s j opens.toFresh,
    .congr (s := s) rfl rfl rfl opens.regular, .congr (s := s) rfl rfl opens.linked, opens.short⟩
  intern s text opens := by
    have advances : s.Advances (fun _ => False) (s.intern text).1 :=
      opens.regular.advances_intern text
    exact ⟨standing_fresh.intern s text opens.toFresh, advances.regular,
      advances.linked.resolve_left id opens.linked, advances.short.resolve_left id opens.short⟩
  string s text opens := ⟨standing_fresh.string s text opens.toFresh,
    .congr (s := s) rfl rfl rfl opens.regular, .congr (s := s) rfl rfl opens.linked, opens.short⟩

/-- Tokens whose names are stored and whose locations are those of a source that fits in memory. -/
structure Offers (ok : Fault → Prop) (s : Session) (tokens : List Token) : Prop where
  spelled : ok .badIndex ∨ ∀ tok ∈ tokens, tok.kind = .identifier →
    s.spellings.has tok.spelling = true
  near : Loose ok ∨ ((∀ tok ∈ tokens, tok.loc.Near) ∧ (tokens.length + 1 : Int) * 4 ≤ largestBlock ∧
    s.journal.Roomy)

end Session

namespace Grammar

variable {tokens : List Token} {watch : Watch} {s : Session} {c : Checker}

/-- The course of a reader at the first token. -/
def course (tokens : List Token) (watch : Watch) : Course :=
  ⟨(reader tokens watch).tokens, [], watch, []⟩

theorem reader_tokens (tokens : List Token) (watch : Watch) :
    ∃ all last, (reader tokens watch).tokens = (all ++ [last]).toArray ∧ last.kind = .endOfInput ∧
    (tokens = all ++ [last] ∨ (tokens = all ∧ last = .bare .endOfInput .none)) := by
  by_cases ended : (tokens.getLast?.map (·.kind)) == some .endOfInput
  · obtain ⟨last, isLast, kind⟩ := Option.map_eq_some_iff.mp (beq_iff_eq.mp ended)
    obtain ⟨all, rfl⟩ := List.getLast?_eq_some_iff.mp isLast
    refine ⟨all, last, ?_, kind, .inl rfl⟩
    simp only [reader]
    rw [if_pos ended]
  · refine ⟨tokens, .bare .endOfInput .none, ?_, rfl, .inr ⟨rfl, rfl⟩⟩
    simp only [reader]
    rw [if_neg ended]

/-- Every token that is read was given, or it ends the input. -/
theorem mem_course {tok : Token} (mem : tok ∈ (course tokens watch).tokens) : tok ∈ tokens ∨
    tok = .bare .endOfInput .none := by
  rw [course] at mem
  obtain ⟨all, last, same, -, rfl | ⟨rfl, rfl⟩⟩ := reader_tokens tokens watch
  · rw [same] at mem
    exact .inl (by simpa using mem)
  · rw [same] at mem
    simpa using mem

/-- A name among the tokens that are read is one among the tokens that were given. -/
theorem names_course {stop name : Int} (ends : (course tokens watch).names stop name) :
    Session.nameEndsOf tokens stop name := by
  obtain ⟨tok, mem, kind, rest⟩ := ends
  rcases mem_course (Array.mem_toList_iff.mp mem) with given | rfl
  · exact ⟨tok, given, kind, rest⟩
  · cases kind

theorem size_reader (tokens : List Token) (watch : Watch) :
    (reader tokens watch).tokens.size ≤ tokens.length + 1 := by
  obtain ⟨all, last, same, -, rfl | ⟨rfl, rfl⟩⟩ := reader_tokens tokens watch
  · rw [same]
    simp
  · rw [same]
    simp

/-- The ruler of a course has the tokens that were given up to the end of the input. -/
theorem ruler_course (tokens : List Token) (watch : Watch) : (course tokens watch).ruler =
    (tokens.takeWhile fun tok => tok.kind != .endOfInput).map Token.loc := by
  obtain ⟨all, last, same, kind, rfl | ⟨rfl, rfl⟩⟩ := reader_tokens tokens watch
  · rw [Course.ruler, course, same]
  · rw [Course.ruler, course, same, List.takeWhile_append]
    split
    next all =>
      rw [(List.takeWhile_prefix _).eq_of_length all]
      simp [Token.bare]
    next => rfl

theorem good_course (offers : s.Offers ok tokens) (stopped : ok .stopped ∨
      ∀ start : Start, start.IsFresh ∨ start.isStuck = true → watch start = false)
    (endless : ok .endless ∨ ∀ start : Start, start.isStuck = true → watch start = true) :
    (course tokens watch).Good ok where
  ends pos tok read more := by
    obtain ⟨all, last, same, kind, -⟩ := reader_tokens tokens watch
    have read : (all ++ [last])[pos]? = some tok := by
      rw [← List.getElem?_toArray, ← same]
      exact read
    have inside := (List.getElem?_eq_some_iff.mp read).1
    show pos + 1 < (reader tokens watch).tokens.size
    rw [same]
    simp only [List.length_append, List.length_singleton, List.size_toArray] at inside ⊢
    by_contra beyond
    obtain rfl : pos = all.length := by omega
    rw [List.getElem?_concat_length] at read
    exact more (Option.some.inj read ▸ kind)
  near := by
    refine offers.near.imp_right fun near => ⟨fun tok mem => ?_, ?_⟩
    · rcases mem_course mem with given | rfl
      · exact near.1 tok given
      · exact Location.near_none
    · have size := size_reader tokens watch
      have room := near.2.1
      show ((reader tokens watch).tokens.size : Int) * 4 ≤ largestBlock
      omega
  stopped := stopped
  endless := endless

/-- A checker that can read some tokens: it is well-formed, it holds some trees under the root, and
it knows the names. -/
structure Starts (ok : Fault → Prop) (before : List Rose) (tokens : List Token)
    (c : Checker) : Prop where
  fine : c.Fine ok
  library : c.session.Library
  trees : c.session.tree.Carries before
  offers : c.session.Offers ok tokens

/-- A checker that can read with fewer faults can read with more. -/
theorem Starts.widen {ok' : Fault → Prop} {before : List Rose} (starts : Starts ok before tokens c)
    (more : ∀ f, ok f → ok' f) : Starts ok' before tokens c where
  fine := ⟨starts.fine.regular, starts.fine.string, starts.fine.result,
    starts.fine.linked.imp_left (more _), starts.fine.tight.imp_left (more _)⟩
  library := starts.library
  trees := starts.trees
  offers := ⟨starts.offers.spelled.imp_left (more _), starts.offers.near.imp_left (more _)⟩

/-- A reader at the first token. -/
theorem at_start {before : List Rose} (starts : Starts ok before tokens c)
    (good : (course tokens watch).Good ok) :
    At ok { course tokens watch with before } 0 [] (reader tokens watch) c := by
  obtain ⟨all, last, same, -, -⟩ := reader_tokens tokens watch
  have current : (reader tokens watch).tokens[0]? = some (reader tokens watch).current := by
    have head : (reader tokens watch).current =
        (reader tokens watch).tokens.toList.headD (.bare .endOfInput .none) :=
      rfl
    rw [head, same]
    cases all <;> rfl
  have follows : (reader tokens watch).Follows ok { course tokens watch with before } 0 := by
    refine ⟨rfl, rfl, rfl, Nat.zero_le _, current, ?_, ?_, .inr Location.near_none⟩
    · exact fun moved => absurd rfl moved
    · exact fun i _ before => absurd before (Nat.not_lt_zero i)
  constructor
  case course => exact good.behind before
  case reader => exact follows
  case spelled =>
    refine starts.offers.spelled.imp_right fun spelled tok mem name => ?_
    have mem : tok ∈ (course tokens watch).tokens := mem
    rcases mem_course mem with given | rfl
    · exact spelled tok given name
    · cases name
  case builtins => exact starts.library
  case recovers => nofun
  case fine => exact starts.fine
  case waits => exact ⟨[], [], before, .nil, starts.trees, fun _ => ⟨rfl, le_refl 0, nofun⟩⟩

/-- A checker that begins in a session where nothing was declared can read. -/
theorem starts_begins (opens : s.Opens) (offers : s.Offers ok tokens)
    (begins : Checker.Begins ok s c) : Starts ok [] tokens c where
  fine := begins.fine
  library := begins.library opens.library
  trees := begins.tree ▸ opens.tree.carries
  offers :=
    ⟨offers.spelled.imp_right fun spelled tok mem name => begins.later.has (spelled tok mem name),
    offers.near.imp_right fun near => ⟨near.1, near.2.1, begins.journal ▸ near.2.2⟩⟩

/-- A reader at the first token, before anything was declared. -/
theorem partsLeft_start (opens : s.Opens) (offers : s.Offers ok tokens)
    (good : (course tokens watch).Good ok) (begins : Checker.Begins ok s c) (outer : c.Outer []) :
    PartsLeft ok True 0 (course tokens watch) [] (reader tokens watch) c :=
  ⟨at_start (starts_begins opens offers begins) good, fun _ => ⟨rfl, .inr ⟨[], outer, rfl⟩⟩⟩

/-- A program is read from its first token on. -/
theorem reads_program (opens : s.Opens) (offers : s.Offers ok tokens)
    (begins : Checker.Begins ok s c) (outer : c.Outer []) (stopped : ok .stopped ∨
      ∀ start : Start, start.IsFresh ∨ start.isStuck = true → watch start = false)
    (endless : ok .endless ∨ ∀ start : Start, start.isStuck = true → watch start = true) :
    Reads ok program (reader tokens watch) c fun root r' c' => root = c'.session.tree.root ∧
    ∃ ns, PartsLeft ok True 0 (course tokens watch) ns r' c' := by
  have good := good_course offers stopped endless
  refine reads_get (reads_programOf _ _ (partsLeft_start opens offers good begins outer)
    (ready_of_fresh (.inr ?_) nofun) (.inr ?_))
  · simp only [depthBound, Rule.rank]
    show 19 + 32 * ((reader tokens watch).tokens.size - 0) ≤ _
    omega
  · show (reader tokens watch).tokens.size - 0 ≤ _
    omega

end Grammar

/-! ## After the generator -/

namespace Session

variable {s t : Session} {names : NameEnds} {str : TypeId} {x : Rose}

/-- The generator changes nothing that the typing rules look at. -/
theorem Seen.rule (seen : s.Seen t) (rule : s.Rule names str x) : t.Rule names str x := by
  have texts : t.stringAt = s.stringAt := by
    funext i
    rw [stringAt, stringAt, seen.strings]
  simp only [Rule, NameRule, MemberRule, UnaryRule, BinaryRule,
    AssignmentRule, CallRule, TernaryRule, LibraryRule, Meets, ListRule,
    seen.types, seen.identifiers, seen.kind, seen.type, texts] at rule ⊢
  exact rule

end Session

namespace Compilation

variable {s t : Session} {tokens : List Token} {root : Handle} {options : Options}
    {sources : List Source} {out : Compilation}

/-- The only ways in which reading a program does not give one are those that are allowed for. It
may always be that it does not come to an end. -/
theorem analyze_ends (opens : s.Opens) (offers : s.Offers ok tokens) (endless : ok .endless) :
    (analyze s tokens).Ends ok fun out => ∃ c ns r, c.session = out.1 ∧ out.2 = out.1.tree.root ∧
      PartsLeft ok True 0 (course tokens unwatched) ns r c := by
  have starts : (Checker.new s).Ends ok fun c => Checker.Begins ok s c :=
    Checker.new_ends opens.regular (.inr opens.linked) (offers.near.imp_right fun near =>
      ⟨opens.short, near.2.2⟩)
  refine (starts.learn (Q := fun c => Checker.Begins ok s c ∧ c.Outer []) fun c started begins =>
    ⟨begins, Checker.outer_new opens.toFresh started⟩).bind ?_
  rintro c ⟨begins, outer⟩
  have reads : Reads ok program (reader tokens unwatched) c _ :=
    reads_program opens offers begins outer (.inr fun _ _ => rfl) (.inl endless)
  refine Ends.bind (P := fun out => ∃ ns r, out.2 = out.1.session.tree.root ∧
    PartsLeft ok True 0 (course tokens unwatched) ns r out.1) ?_ fun out ⟨ns, r, top, left⟩ =>
    ends_pure ⟨out.1, ns, r, rfl, top, left⟩
  refine Ends.bind reads ?_
  rintro ⟨⟨root, r⟩, c'⟩ ⟨top, ns, left⟩
  exact ends_pure ⟨ns, r, top, left⟩

/-- Without an error the parts under the root are what the generator can lower, and they are in
order, one after the other. -/
theorem analyze_parts (opens : s.Opens) (done : analyze s tokens = .ok (t, root))
    (clean : t.journal.hadError = false) :
    ∃ (parts : List Rose) (str : TypeId), root = t.tree.root ∧ t.tree.Holds (.unit parts) ∧
    WellFormed t (.unit parts) ∧ t.types.Holds str (.array TypeId.char) ∧
    Row (course tokens unwatched).ruler 0 (course tokens unwatched).tokens.size
    (parts.map Rose.location) ∧ ∀ x ∈ parts, t.Ruled (Session.nameEndsOf tokens) str x ∧
    x.Nested (course tokens unwatched).ruler := by
  have ends : (analyze s tokens).Ends (fun _ => True) _ :=
    analyze_ends opens ⟨.inl trivial, .inl trivial⟩ trivial
  obtain ⟨c, whole, same, top, complete⟩ := analyze_complete opens.toFresh done clean
  rw [done] at ends
  obtain ⟨c, ns, r, rfl, -, left⟩ := ends
  have none : c.errors = 0 :=
    not_not.mp fun some => Bool.false_ne_true (clean.symm.trans (Checker.dirty_iff.mpr some))
  obtain ⟨parts, outer, row, order⟩ := left.parts none
  have wf := complete.wellFormed
  rw [same] at wf
  have holds : c.session.tree.Holds (.unit parts) := by simpa using outer.stands.holds
  have one : Rose.unit whole = .unit parts := wf.has.eq holds.has rfl
  have ruled (x : Rose) (mem : x ∈ parts) :
    c.session.Ruled (Session.nameEndsOf tokens) c.stringType x :=
    fun y inside => ((order x mem).ruled y inside).mono fun _ _ => names_course
  exact ⟨parts, c.stringType, top, holds, one ▸ wf, left.held.fine.string, row.widen
    (le_refl 0) left.held.reader.inside.le, fun x mem => ⟨ruled x mem, (order x mem).nested⟩⟩

/-- **Programs are well typed.** After a compilation without errors every expression node of the
tree satisfies the typing rule of its kind with respect to the stored types and categories of its
children. The field that a selection takes is the one that the name at its end spells. -/
theorem run_ruled (some : sources ≠ []) (done : run options sources = .ok out)
    (clean : out.session.journal.hadError = false) :
    ∃ (s : Session) (tokens : List Token) (parts : List Rose) (str : TypeId),
    scan options sources = .ok (s, tokens) ∧
    out.session.tree.Holds (.unit parts) ∧ out.session.types.Holds str (.array TypeId.char) ∧
    ∀ x ∈ (Rose.unit parts).nodes, out.session.Rule (Session.nameEndsOf tokens) str x := by
  obtain ⟨s, u, t, tokens, root, result, scanned, opens, read, noError, made, rfl⟩ :=
    run_stages Session.standing_opens Session.opens_new some done clean
  obtain ⟨parts, str, rfl, holds, wf, string, -, order⟩ := analyze_parts opens read noError
  obtain ⟨t', image, stop, generated, seen, -⟩ := generate_wellFormed wf
  cases made.symm.trans generated
  have ruled : u.Ruled (Session.nameEndsOf tokens) str (.unit parts) :=
    Session.ruled_of_node (Session.rule_of_statement rfl) fun x mem => (order x mem).1
  exact ⟨s, tokens, parts, str, scanned, seen.tree ▸ holds, seen.types ▸ string,
    fun x mem => seen.rule (ruled x mem)⟩

theorem run_ruled_jumping : ∃ out s tokens parts str, run Options.initial jumpingProgram = .ok out ∧
    out.session.journal.hadError = false ∧ scan Options.initial jumpingProgram = .ok (s, tokens) ∧
    out.session.tree.Holds (.unit parts) ∧ out.session.types.Holds str (.array TypeId.char) ∧
    ∀ x ∈ (Rose.unit parts).nodes, out.session.Rule (Session.nameEndsOf tokens) str x := by
  obtain ⟨out, done, clean⟩ := compiles_jumpingProgram
  obtain ⟨s, tokens, parts, str, scanned, holds, string, ruled⟩ :=
    run_ruled (by simp [jumpingProgram]) done clean
  exact ⟨out, s, tokens, parts, str, done, clean, scanned, holds, string, ruled⟩

end Compilation

end BilingualC
