import Mathlib
import BilingualC.Proofs.Lowering.Linking
import BilingualC.Proofs.Reading.Whole

/-!
# The memory of an image

The image of a program without errors is closed code, unit by unit (`Compilation.run_closed`), in
which jumps and calls are linked (`Compilation.run_linked`). That each call node has a call of its
own in the code, and no call stands there besides, needs the typing rules: the library functions
that take names are given names, so nothing that is called is left out of the code.
-/

namespace BilingualC

variable {options : Options} {sources : List Source} {out : Compilation}

/-- In a well typed tree the library functions that take names are given names. -/
theorem Session.Ruled.takesNames {s : Session} {names : Session.NameEnds} {str : TypeId} {x : Rose}
    (ruled : s.Ruled names str x) : x.TakesNames := by
  intro y mem kind taken c child
  have rule := ruled y mem
  unfold Session.Rule at rule
  simp only [kind] at rule
  obtain ⟨-, rule⟩ := rule
  rcases taken with taken | taken
  all_goals
    rw [taken] at rule
    exact (rule.2.2 c child).1

namespace Compilation

/-- A compilation without errors gives an image, and its memory holds the code of the program. -/
theorem run_code (some : sources ≠ []) (done : run options sources = .ok out)
    (clean : out.session.journal.hadError = false) :
    ∃ (c : Checker) (parts : List Rose) (image : Image) (stop : Nat), c.Complete parts ∧
    (∀ r ∈ parts, r.TakesNames) ∧ out.result = .ok image ∧ c.session.Seen out.session ∧
    CodeAt image.memory out.session.links c.session (.unit parts) stop := by
  obtain ⟨s, u, t, tokens, root, result, -, opens, read, noError, made, rfl⟩ :=
    run_stages Session.standing_opens Session.opens_new some done clean
  obtain ⟨c, parts, rfl, rfl, complete⟩ := analyze_complete opens.toFresh read noError
  obtain ⟨ruledParts, str, -, holds, -, -, -, order⟩ := analyze_parts opens read noError
  have one : Rose.unit parts = .unit ruledParts := complete.wellFormed.has.eq holds.has rfl
  obtain rfl : parts = ruledParts := congrArg Rose.children one
  obtain ⟨t', image, stop, generated, seen, code⟩ := generate_wellFormed complete.wellFormed
  cases made.symm.trans generated
  exact ⟨c, parts, image, stop, complete, fun r mem => (order r mem).1.takesNames, rfl, seen, code⟩

/-- **Compiled code is closed.** The memory of the image of every program without errors is closed
code: its instructions do not overlap, control stays among them, calls lead to the starts of
functions, and it ends with a call of the entry point. It consists of the units of the program, one
after the other: each function between its start and its end, and exactly the code of each variable
outside of functions. No jump leaves the unit that contains it. -/
theorem run_closed (some : sources ≠ []) (done : run options sources = .ok out)
    (clean : out.session.journal.hadError = false) :
    ∃ (image : Image) (parts : List Rose) (s : Session) (S : Set Nat) (stop : Nat),
      out.result = .ok image ∧ out.session.tree.Holds (.unit parts) ∧ s.Seen out.session ∧
      ClosedProgram image.memory S s out.session.functionAddress parts stop := by
  obtain ⟨c, parts, image, stop, complete, names, given, seen, code⟩ := run_code some done clean
  have holds : c.session.tree.Holds (.unit parts) := by simpa using complete.stands.holds
  obtain ⟨S, closed⟩ := code.closed complete.wellFormed names
  exact ⟨image, parts, c.session, S, stop, given, seen.tree ▸ holds, seen, closed⟩

theorem run_closed_jumping : ∃ out image parts s S stop, run Options.initial jumpingProgram =
    .ok out ∧ out.result = .ok image ∧ out.session.tree.Holds (.unit parts) ∧ s.Seen out.session ∧
    ClosedProgram image.memory S s out.session.functionAddress parts stop := by
  obtain ⟨out, done, clean⟩ := compiles_jumpingProgram
  obtain ⟨image, parts, s, S, stop, closed⟩ := run_closed (by simp [jumpingProgram]) done clean
  exact ⟨out, image, parts, s, S, stop, done, closed⟩

/-- A program in memory that is linked by the final tables `t`; before code was made the tables were
`s`. The memory is closed code, whose calls are those of the call nodes, one by one, and hold the
final addresses of the functions. The parts are linked, every declared function is defined by one of
them, and the table of functions has one entry for each declared function. The program ends with a
call of the entry point, which is a function. -/
structure LinkedProgram (M : List Int) (S : Set Nat) (s t : Session) (parts : List Rose)
    (stop : Nat) : Prop where
  tree : t.tree.Holds (.unit parts)
  seen : s.Seen t
  closed : ClosedProgram M S s t.functionAddress parts stop
  linked : LinkedParts M s t parts Image.codeStart stop
  defined : ∀ id, (s.identifier id).kind = .function →
    ∃! r, r ∈ parts ∧ r.kind = .functionDefinition ∧ r.arg 0 = id
  numbered : ∀ id, (s.identifier id).kind = .function → 0 ≤ s.displacementOf id ∧
    s.displacementOf id < t.functions.size
  table : ∀ n < t.functions.size, ∃! id, (s.identifier id).kind = .function ∧
    s.displacementOf id = n
  main : (s.identifier s.main).kind = .function
  last : CellsAt M stop [Operation.code .callStart, Operation.code .callTarget,
    t.functionAddress (s.displacementOf s.main), Operation.code .stop]

/-- **Linking is exact.** In the memory of the image of every program without errors each jump to a
label holds the address where the code of the statement with that label starts within the code of
the function, which is the final displacement of the label. Each call node has a call of its own,
and there are no other calls besides the last one; it holds the final address of the function, which
is where the code of its definition starts. -/
theorem run_linked (some : sources ≠ []) (done : run options sources = .ok out)
    (clean : out.session.journal.hadError = false) :
    ∃ (image : Image) (parts : List Rose) (s : Session) (S : Set Nat) (stop : Nat),
      out.result = .ok image ∧ LinkedProgram image.memory S s out.session parts stop := by
  obtain ⟨c, parts, image, stop, complete, names, given, seen, code⟩ := run_code some done clean
  have holds : c.session.tree.Holds (.unit parts) := by simpa using complete.stands.holds
  have ok := complete.stands.parts
  have tables := complete.stands.tables
  obtain ⟨S, closed⟩ := code.closed complete.wellFormed names
  refine ⟨image, parts, c.session, S, stop, given, ?_⟩
  exact {
    tree := seen.tree ▸ holds
    seen := seen
    closed := closed
    linked := linked_parts code.parts ok.labels ok.jumps ok.spellings
    defined := fun id isFunction => by
      obtain ⟨r, found, same⟩ :=
        List.mem_map.mp ((ok.defined id isFunction).mp (complete.defined id isFunction))
      obtain ⟨part, kind⟩ := List.mem_filter.mp found
      refine ⟨r, ⟨part, by simpa using kind, same⟩, ?_⟩
      rintro x ⟨other, isDefinition, number⟩
      exact List.inj_on_of_nodup_map ok.once
        (List.mem_filter.mpr ⟨other, by simpa using isDefinition⟩) found (number.trans same.symm)
    numbered := fun id isFunction => by
      obtain ⟨-, low, high⟩ := (tables.entries id).function isFunction
      exact ⟨low, seen.functions ▸ high⟩
    table := fun n inside => by
      obtain ⟨id, isFunction, number⟩ := tables.counted n (seen.functions ▸ inside)
      refine ⟨id, ⟨isFunction, number⟩, ?_⟩
      rintro k ⟨other, same⟩
      exact tables.numbers k id other isFunction (same.trans number.symm)
    main := tables.main complete.main
    last := code.last }

theorem run_linked_jumping : ∃ out image parts s S stop, run Options.initial jumpingProgram =
    .ok out ∧ out.result = .ok image ∧ LinkedProgram image.memory S s out.session parts stop := by
  obtain ⟨out, done, clean⟩ := compiles_jumpingProgram
  obtain ⟨image, parts, s, S, stop, linked⟩ := run_linked (by simp [jumpingProgram]) done clean
  exact ⟨out, image, parts, s, S, stop, done, linked⟩

end Compilation

end BilingualC
