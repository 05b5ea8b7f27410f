import Mathlib
import BilingualC.Proofs.Grammar.Program
import BilingualC.Proofs.Reading.Statements

/-!
# Reading programs

A function leaves its definition, or nothing if it is only declared; the declarations of a program
leave their nodes in a row. The program ends because every declaration passes a token.
-/

namespace BilingualC

open Guarded Pending

variable {ok : Fault → Prop}

namespace Checker

theorem dirty_iff {c : Checker} : c.Dirty ↔ c.errors ≠ 0 := by
  rw [Dirty, Journal.hadError, errors, Journal.errorCount, ← Nat.pos_iff_ne_zero,
    Array.countP_pos_iff, Array.any_eq_true']

end Checker

namespace Stocks

/-- Nodes with nothing between them have the locations of their trees. -/
theorem each_locations {c : Checker} {expression : Bool} {ns : List Handle}
    {xs : List Rose} {ls : List Location} (none : c.errors = 0)
    (stocks : Stocks ok c (each expression ns) xs ls) : ls = xs.map Rose.location := by
  have nodes : ∀ item ∈ each expression ns, item.handle? ≠ Option.none := by
    intro item mem
    simp only [each, List.mem_reverse, List.mem_map] at mem
    obtain ⟨n, -, rfl⟩ := mem
    exact Option.some_ne_none n
  generalize each expression ns = items at stocks nodes
  induction stocks with
  | nil => rfl
  | token _ _ => exact absurd rfl (nodes _ List.mem_cons_self)
  | known _ _ _ _ => exact absurd rfl (nodes _ List.mem_cons_self)
  | broken error _ _ => exact absurd none error
  | tree _ _ _ ih =>
    rw [List.map_cons, ← ih fun item mem => nodes item (List.mem_cons_of_mem _ mem)]

end Stocks

namespace At

variable {σ : Course} {low : Nat} {items : List Pending} {r : Reader} {c : Checker} {id : Int}

/-- Nothing is left of a refused declaration. -/
theorem dropRefused (held : At ok σ low (Pending.refused id ++ items) r c) :
    At ok σ low items r c := by
  unfold Pending.refused at held
  split at held
  · exact held.marked.1
  · exact held

end At

namespace Grammar

variable {σ : Course} {low depth : Nat} {items : List Pending} {r : Reader} {c : Checker}

/-- What a part of a program leaves: a node, or nothing. -/
def PartLeft (ok : Fault → Prop) (items : List Pending) (low : Nat) (σ : Course) (_ : Unit)
    (r : Reader) (c : Checker) : Prop :=
  ∃ part : Option Handle, At ok σ low (each false part.toList ++ items) r c

theorem PartLeft.leave {rule : Rule} {pos : Nat} (good : σ.Good ok) (le : low ≤ pos) {u : Unit}
    (left : PartLeft ok items pos (σ.enter rule pos) u r c) :
    PartLeft ok items low σ u { r with trail := σ.trail } c := by
  obtain ⟨part, held⟩ := left
  exact ⟨part, (held.leave good).lower le⟩

theorem partLeft_none (held : At ok σ low items r c) : PartLeft ok items low σ () r c :=
  ⟨none, held⟩

theorem partLeft_some {n : Handle} (held : At ok σ low (.node n :: items) r c) :
    PartLeft ok items low σ () r c :=
  ⟨some n, held⟩

theorem PartLeft.lower {p : Nat} (left : PartLeft ok items low σ () r c) (le : p ≤ low) :
    PartLeft ok items p σ () r c := by
  obtain ⟨part, held⟩ := left
  exact ⟨part, held.lower le⟩

/-- The name and the parenthesis of a function that is ahead. -/
theorem functionFollows_inv {tokens : List Token}
    {tok : Token} (follows : functionFollows tokens = true)
    (first : tokens.head? = some tok) (other : tok.kind ≠ .star) :
    tok.kind = .identifier ∧ ∃ next, tokens[1]? = some next ∧ next.kind = .leftParen := by
  cases tokens with
  | nil => cases first
  | cons a rest =>
    cases first
    rw [functionFollows, if_neg (by simpa using other)] at follows
    simp only [Bool.and_eq_true, beq_iff_eq] at follows
    refine ⟨follows.1, ?_⟩
    cases rest with
    | nil => cases follows.2
    | cons b more => exact ⟨b, rfl, Option.some.inj follows.2⟩

/-- A function behind its parameters: it is only declared, or its body follows. -/
theorem reads_restOfFunction {parameters : List Checker.Parameter}
    {type : TypeId} {name : Token} {start : Location}
    (held : At ok σ low (.known (Session.Receives ok parameters) :: .token start :: items) r c)
    (named : c.session.types.Named type)
    (nears : ∀ p ∈ parameters, Loose ok ∨ p.loc.Near) (near : Loose ok ∨ name.loc.Near)
    (stored : ok .badIndex ∨ c.session.spellings.has name.spelling = true)
    (ready : MayStart ok σ .blockBody low depth) : Reads ok (do
        let id ← Checker.declareFunction name.spelling type name.loc
        if ← accept .semicolon then return
        if !(← check .leftBrace) then
          reportMissing "\x7b"
          return
        let scope ← Checker.beginFunction id parameters name.loc
        let body ← blockBody depth
        let _ ← Checker.functionDefinition id scope body (← spanFrom start))
      r c (PartLeft ok items low σ) := by
  refine reads_check (held.declareFunction named near stored) fun id c₁ held => ?_
  have entry := held.fact List.mem_cons_self
  have held := (held.pop rfl).dropRefused
  refine held.reads_accept (by decide) (fun r₂ _ _ _ held => reads_pure (partLeft_none ?_)) fun _ =>
    reads_is (.ite (fun _ => ?_) fun brace => ?_)
  · exact (((held.pop rfl).pop rfl).pop rfl).lower (Nat.le_succ _)
  · exact held.reads_reportMissing fun j held error =>
      reads_pure (partLeft_none (At.abandon [_, _] held error))
  · have opening : r.current.kind = .leftBrace := by simpa using brace
    have received : Session.Receives ok parameters c₁.session := held.fact List.mem_cons_self
    have held := ((held.pop rfl).know (Session.lasting_hasEntry id) entry).know
      (Session.lasting_receives parameters) received
    refine reads_check (held.beginFunction id nears near) fun scope c₂ held => ?_
    refine Reads.bind ((statementLeads ok depth).blockBody held ready opening)
      fun body r₂ c₃ held => reads_spanFrom ?_
    exact reads_check (held.functionDefinition scope) fun _ c₄ ⟨n, held⟩ =>
      reads_pure (partLeft_some held)

theorem reads_function (depth : Nat) (result : TypeId) (start : Location)
    (held : At ok σ low (.known (fun s => s.types.Named result) :: .token start :: items) r c)
    (ready : MayStart ok σ .function low depth)
    (ahead : functionFollows (σ.tokens.toList.drop r.pos) = true) (other : r.current.kind ≠ .star) :
    Reads ok (function depth result start) r c (PartLeft ok items low σ) := by
  refine reads_body (PartLeft ok items) held ready ?inner fun _ r' c' left =>
    left.leave held.course held.reader.low
  intro r₁ pos current inside allowed
  refine reads_current ?_
  have on (rule : Rule) := allowed.on (Nat.le_succ _) inside.inside rule
  have near := inside.near
  have mem := inside.current_mem
  rw [← pos] at ahead
  -- looking ahead has found a name and a parenthesis, so reading them cannot fail
  obtain ⟨name, next, second, opening⟩ := functionFollows_inv ahead
    (by rw [List.head?_drop, Array.getElem?_toList]; exact inside.reader.current) (current ▸ other)
  refine inside.reads_advance (by simp [name]) fun r₂ pos₂ _ held => ?_
  have paren : r₂.current = next := by
    rw [List.getElem?_drop, Array.getElem?_toList] at second
    have here := held.reader.current
    rw [pos₂] at here
    exact Option.some.inj (here.symm.trans second)
  refine held.reads_advance (by simp [paren, opening]) fun r₃ _ _ held => ?_
  refine Reads.bind (reads_parameters ((held.pop rfl).pop rfl) ((on _).raise (Nat.le_succ _))) ?_
  rintro parameters r₄ c₄ ⟨nears, held⟩
  have count : Loose ok ∨
    ((TypeRecord.function result (parameters.map (·.type))).count : Int) ≤ largestBlock := by
    have inside := held.inside
    refine held.course.near.imp_right fun near => ?_
    have size := near.2
    simp only [TypeRecord.count, List.length_map]
    omega
  refine held.reads_want (by decide) fun r₅ c₅ held _ => ?_
  have held := held.pop rfl
  have received : Session.Receives ok parameters c₅.session := held.fact List.mem_cons_self
  have resultNamed : c₅.session.types.Named result :=
    held.fact (List.mem_cons_of_mem _ List.mem_cons_self)
  have types : ∀ type ∈ parameters.map (·.type), c₅.session.types.Named type := by
    rintro _ mem
    obtain ⟨p, inside, rfl⟩ := List.mem_map.mp mem
    exact (received p inside).1
  have typed := (At.forget [_] held rfl).gain (TypeTable.gains_function resultNamed types) count
  refine reads_check
    (Checker.Ends.run (Q := fun s c' => s = c₅.session ∧ c' = c₅) rfl ⟨rfl, rfl⟩) ?_
  rintro _ c₆ ⟨rfl, rfl⟩
  have made : c₆.session.functionType result (parameters.map (·.type)) =
    ({ c₆.session with types := (c₆.session.types.function result (parameters.map (·.type))).1 },
      (c₆.session.types.function result (parameters.map (·.type))).2) := rfl
  rw [made]
  have rest := reads_restOfFunction (typed.pop rfl) (typed.fact List.mem_cons_self) nears near
    (typed.stored _ mem name) ((on .blockBody).raise (by omega))
  exact rest.mono fun _ r c left => left.lower (by omega)

/-- A declaration outside of functions passes no token only where none starts. -/
theorem reads_externalDeclaration (depth : Nat) (held : At ok σ low items r c)
    (ready : MayStart ok σ .externalDeclaration low depth) :
    Reads ok (externalDeclaration depth) r c (PartLeft ok items low σ) := by
  refine reads_body (PartLeft ok items) held ready ?inner fun _ r' c' left =>
    left.leave held.course held.reader.low
  intro r₁ pos _ inside allowed
  refine reads_current ?_
  have on (rule : Rule) := allowed.on (Nat.le_succ _) inside.inside rule
  refine reads_is (.ite (fun _ => ?_) fun _ => ?_)
  · refine Reads.bind (leads_declaration depth inside (allowed.down (Nat.le_succ _) (by decide)))
      fun n r₂ c₂ held => ?_
    exact reads_pure (partLeft_some held)
  refine Reads.bind ((specifierReads ok depth).typeSpecifier inside
    (allowed.down (Nat.le_succ _) (by decide))) fun out r₂ c₂ specified => ?_
  cases out with
  | none =>
    rw [← bind_pure (reportMissing "declaration")]
    exact specified.1.reads_reportMissing fun j held error => reads_pure (partLeft_none held)
  | some base =>
    have held : At ok (σ.enter .externalDeclaration r₁.pos) (r₁.pos + 1)
      (.known (fun s => s.types.Named base) :: .token r₁.current.loc :: items) r₂ c₂ := specified
    refine reads_get (.ite (fun ahead => ?_) fun _ => ?_)
    · rw [held.reader.tokens] at ahead
      refine Reads.bind (reads_stars held (on _)) ?_
      rintro type r₃ c₃ ⟨held, passes⟩
      obtain ⟨follows, other⟩ := passes ahead
      exact (reads_function depth type _ held (on _) follows other).mono fun _ r c left =>
        left.lower (Nat.le_succ _)
    · refine Reads.bind (leads_restOfDeclaration depth base _ held (on _)) fun n r₃ c₃ held => ?_
      exact reads_pure (partLeft_some (held.lower (Nat.le_succ _)))

/-- The nodes that wait between two parts of a program. If nothing was under the root before, they
are those of the parts, in the order in which these stand under the root. -/
structure PartsLeft (ok : Fault → Prop) (alone : Prop) (low : Nat) (σ : Course) (ns : List Handle)
    (r : Reader) (c : Checker) : Prop where
  held : At ok σ low (each false ns) r c
  order : alone → σ.before = [] ∧
    (c.Dirty ∨ ∃ parts, c.Outer parts ∧ parts.map Rose.index = ns.map Handle.index)

namespace PartsLeft

variable {alone : Prop} {ns : List Handle} {r' : Reader} {c' : Checker}

/-- Without an error the parts under the root lie in a row and are in order. -/
theorem parts (left : PartsLeft ok True low σ ns r c) (none : c.errors = 0) :
    ∃ parts, c.Outer parts ∧ Row σ.ruler 0 r.pos (parts.map Rose.location) ∧
    ∀ x ∈ parts, c.InOrder ok σ.ruler σ.names x := by
  obtain ⟨xs, ls, junk, stocks, carries, clean⟩ := left.held.waits
  obtain ⟨same, row, order⟩ := clean none
  obtain ⟨nothing, known⟩ := left.order trivial
  obtain rfl : junk = [] := same.trans nothing
  obtain ⟨parts, outer, same⟩ := known.resolve_left fun dirty => Checker.dirty_iff.1 dirty none
  have holds : c.session.tree.Holds (.unit parts) := by simpa using outer.stands.holds
  have indices : parts.map Rose.index = xs.reverse.map Rose.index := by
    rw [same, stocks.each_inv none, Checker.handles, List.map_map]
    rfl
  have all : parts = xs.reverse := by
    have length : parts.length = xs.reverse.length := by simpa using congrArg List.length indices
    refine List.ext_getElem length fun i low high => ?_
    have there : xs.reverse[i] ∈ xs := List.mem_reverse.mp (List.getElem_mem high)
    have here := List.getElem_of_eq indices (by simpa using low)
    rw [List.getElem_map, List.getElem_map] at here
    exact (holds.has.child (List.getElem_mem low)).eq
      (carries.has (List.mem_append_left _ there)) here
  refine ⟨parts, outer, ?_, fun x mem => order x (by simpa [all] using mem)⟩
  rwa [all, List.map_reverse, ← stocks.each_locations none]

/-- A step that adds a node at most adds a part for it. -/
theorem step {part : Option Handle} {p : Nat} (left : PartsLeft ok alone low σ ns r c)
    (held : At ok σ p (each false (ns ++ part.toList)) r' c') (dirty : c.Dirty → c'.Dirty)
    (adds : ∀ parts, c.Outer parts → Checker.OutsideWith parts (fun _ => True) c') :
    PartsLeft ok alone p σ (ns ++ part.toList) r' c' := by
  refine ⟨held, fun known => ?_⟩
  obtain ⟨nothing, order⟩ := left.order known
  refine ⟨nothing, ?_⟩
  by_cases error : c'.Dirty
  · exact .inl error
  obtain ⟨parts, outer, same⟩ := order.resolve_left fun before => error (dirty before)
  obtain ⟨more, outer', -⟩ := (adds parts outer).resolve_left error
  refine .inr ⟨parts ++ more, outer', ?_⟩
  have none : c'.errors = 0 := not_not.mp fun some => error (Checker.dirty_iff.2 some)
  obtain ⟨xs, ls, junk, stocks, carries, clean⟩ := held.waits
  obtain rfl : junk = [] := (clean none).1.trans nothing
  have holds : c'.session.tree.Holds (.unit (parts ++ more)) := by simpa using outer'.stands.holds
  have perm := carries.perm_of_holds holds
  have indices : (ns ++ part.toList).map Handle.index = xs.reverse.map Rose.index := by
    rw [stocks.each_inv none, Checker.handles, List.map_map]
    rfl
  have new : (more.map Rose.index).Perm (part.toList.map Handle.index) := by
    refine (List.perm_append_left_iff (parts.map Rose.index)).mp ?_
    rw [← List.map_append, same, ← List.map_append, indices, List.map_reverse]
    simpa using (perm.map Rose.index).trans (List.reverse_perm _).symm
  rw [List.map_append, List.map_append, same]
  congr 1
  cases part with
  | none => simpa using new
  | some n => simpa using new

end PartsLeft

/-- The declarations of a program, each of which passes a token. -/
theorem reads_externalDeclarations {alone : Prop} (depth count : Nat)
    {ns : List Handle} (left : PartsLeft ok alone low σ ns r c)
    (ready : MayStart ok σ .externalDeclarations low (depth + 1))
    (enough : ok .endless ∨ σ.tokens.size - low ≤ count) :
    Reads ok (externalDeclarations depth count) r c fun _ r' c' =>
    ∃ ns, PartsLeft ok alone low σ ns r' c' := by
  induction count generalizing σ low r c ns with
  | zero =>
    have inside := left.held.inside
    exact reads_throw (enough.resolve_right fun enough => by omega)
  | succ count ih =>
    have held := left.held
    have behind := held.reader.low
    refine reads_body (fun low σ _ r' c' => ∃ ns, PartsLeft ok alone low σ ns r' c') held
      ready ?inner ?leave
    case leave =>
      rintro _ r' c' ⟨ns, left⟩
      exact ⟨ns, (left.held.leave held.course).lower held.reader.low, left.order⟩
    intro r₁ pos _ inside allowed
    refine reads_is (.ite (fun _ => reads_pure ⟨ns, inside, left.order⟩) fun more =>
      reads_position ?_)
    -- What was read of the declaration, and where its part stands.
    have one : Reads ok (externalDeclaration depth) r₁ c fun _ r' c' =>
        ∃ ns, PartsLeft ok alone r₁.pos (σ.enter .externalDeclarations r₁.pos) ns r' c' := by
      refine Guarded.Ends.learn
        (reads_externalDeclaration depth inside (allowed.down (le_refl _) (by decide))) ?_
      rintro ⟨⟨_, r'⟩, c'⟩ run ⟨part, held⟩
      obtain ⟨-, dirty, adds⟩ := does_externalDeclaration depth r₁ c () r' c' run fun on =>
        Checker.dirty_iff.2 (inside.recovers on)
      have before : PartsLeft ok alone r₁.pos (σ.enter .externalDeclarations r₁.pos) ns r₁ c :=
        ⟨inside, left.order⟩
      refine ⟨ns ++ part.toList, before.step (by simpa [each] using held) dirty ?_⟩
      intro parts outer
      exact adds ⟨c, parts⟩ [] (.inr ⟨[], by simpa using outer, trivial⟩)
    refine Reads.bind one ?_
    rintro _ r₂ c₂ ⟨ms, left⟩
    refine left.held.reads_synchronize (allowed.down (le_refl _) (by decide)) fun r₃ held _ => ?_
    refine held.reads_ensureProgress inside.reader.current (by simpa using more) fun r₄ held => ?_
    refine (ih ⟨held, left.order⟩ (allowed.on (Nat.le_succ _) inside.inside _)
      (enough.imp_right fun enough => ?_)).mono ?_
    · change σ.tokens.size - (r₁.pos + 1) ≤ count
      omega
    · rintro _ r₅ c₅ ⟨ms, left⟩
      exact ⟨ms, left.held.lower (Nat.le_succ _), left.order⟩

/-- Without an error the parts of a program stand under the root of its tree, one after the
other. -/
theorem reads_programOf {alone : Prop} (depth count : Nat) (left : PartsLeft ok alone low σ [] r c)
    (ready : MayStart ok σ .externalDeclarations low (depth + 1))
    (enough : ok .endless ∨ σ.tokens.size - low ≤ count) :
    Reads ok (programOf depth count) r c fun root r' c' =>
      root = c'.session.tree.root ∧ ∃ ns, PartsLeft ok alone low σ ns r' c' := by
  refine Reads.bind (reads_externalDeclarations depth count left ready enough) ?_
  rintro _ r₁ c₁ ⟨ns, left⟩
  refine reads_current (reads_lift ?_)
  refine Guarded.Ends.learn (left.held.unit left.held.near) ?_
  rintro ⟨root, c₂⟩ run ⟨top, held⟩
  obtain ⟨dirty, adds⟩ := Checker.of_run (Checker.unit_spec r₁.current.loc) run
  refine ⟨top, ns, ?_⟩
  have held : At ok σ low (each false (ns ++ (none : Option Handle).toList)) r₁ c₂ := by
    simpa using held
  have last := left.step held dirty fun parts outer =>
    (adds parts (.inr ⟨[], by simpa using outer, trivial⟩)).imp_right fun ⟨more, _, complete⟩ =>
    ⟨more, complete.toOuter, trivial⟩
  simpa using last

end Grammar

end BilingualC
