import Mathlib
import BilingualC.Checker.Statement
import BilingualC.Proofs.Reading.Operands

/-!
# Statements above what waits

Each rule for statements with the items that it takes. A statement goes from its first token to the
token before the reader. What is between them, the expressions and the statements in it, becomes its
children.
-/

namespace BilingualC

open Guarded Rose Grammar Pending Checker

variable {ok : Fault → Prop}

namespace Pending

/-- A node that is there if it was written. -/
def written (expression isWritten : Bool) (n : Handle) : List Pending :=
  if isWritten then [.tree expression n] else []

/-- The node of a clause that was not written is the broken one. -/
theorem filter_written {expression isWritten : Bool}
    {n : Handle} (none : isWritten = false → n = .broken) :
    [n].filter (· ≠ .broken) = (handles (written expression isWritten n)).filter (· ≠ .broken) := by
  cases isWritten with
  | true => rfl
  | false =>
    rw [none rfl]
    rfl

end Pending

namespace At

variable {σ : Course} {low : Nat} {items : List Pending} {r : Reader} {c : Checker}
    {cond yes no body value : Handle} {start loc : Location}

/-! ## Scopes and nesting -/

/-- The state may change where no table and no tree is concerned. -/
theorem nest (held : At ok σ low items r c) (loops switches : Int) :
    At ok σ low items r { c with loops, switches } :=
  held.step ⟨held.fine.regular, held.fine.string, held.fine.result, held.fine.linked,
    held.fine.tight.imp_right fun tight =>
    ⟨tight.short, tight.roomy, tight.places, tight.mentions⟩⟩ rfl (.refl _) rfl (le_refl _) id

/-- The tables advance. -/
theorem advances {s : Session} (held : At ok σ low items r c) (advances : c.session.Advances ok s)
    (library : c.session.Library → s.Library) : At ok σ low items r (c.withSession s) :=
  held.step (held.fine.withSession advances) advances.tree advances.later rfl
    (le_of_eq (congrArg Journal.errorCount advances.journal.symm)) library

theorem openScope (held : At ok σ low items r c) :
    Checker.Ends ok Checker.openScope c fun _ c' => At ok σ low items r c' :=
  .run (a := (c.session.enterBlock).2) rfl
    (held.advances held.fine.regular.advances_enterBlock (.congr rfl))

theorem closeScope (held : At ok σ low items r c) (scope : Scope) :
    Checker.Ends ok (Checker.closeScope scope) c fun _ c' => At ok σ low items r c' := by
  refine .step (currentSession_run c) (.lift
    (held.fine.regular.exitBlock_ends held.fine.linked scope) fun s ⟨advances, same, _⟩ => ?_)
  exact .run (setSession_run s c) (held.advances advances (.congr same))

/-! ## Simple statements -/

theorem block {ns : List Handle} (held : At ok σ low (each false ns ++ .token start :: items) r c) :
    Checker.Ends ok (Checker.block ns (Location.span start r.previous.loc)) c fun n c' =>
    At ok σ low (.node n :: items) r c' :=
  compound _ _ (each false ns) held rfl rfl [] (by rw [Pending.handles_each])

theorem null (held : At ok σ low (.token loc :: items) r c) :
    Checker.Ends ok (Checker.null loc) c fun n c' => At ok σ low (.node n :: items) r c' := by
  refine build [.token loc] held rfl rfl [] rfl loc fun _ => covers_of_ends fun xs ls stocks => ?_
  simp only [Stocks.token_iff, Stocks.nil_iff] at stocks
  obtain ⟨_, rfl, rfl, rfl⟩ := stocks
  exact ⟨loc, loc, rfl, rfl, rfl⟩

theorem condition (held : At ok σ low (.value cond :: items) r c) :
    Checker.Ends ok (Checker.condition cond) c fun n c' =>
    At ok σ low (.value n :: items) r c' := by
  refine .step (isBroken_run cond c) ?_
  split
  next => exact .pure held
  next live =>
    obtain ⟨x, rfl, has, operand⟩ := held.operand List.mem_cons_self (by simpa using live)
    have near := operand.node.near
    refine .step (types_run c) (.step (typeOf_run has) ?_)
    split
    next => exact .step (locationOf_run has) (refuse [_] held near _ true)
    next =>
      refine .step (kindOf_run has) ?_
      split
      next =>
        exact .step (locationOf_run has) (.bind (held.warn near _ _) fun _ _ held => .pure held)
      next => exact .pure held

theorem ifElse {hasElse : Bool} (held : At ok σ low
      (written false hasElse no ++ .node yes :: .node cond :: .token start :: items) r c)
    (none : hasElse = false → no = .broken) : Checker.Ends ok
    (Checker.ifElse cond yes no hasElse (Location.span start r.previous.loc)) c fun n c' =>
      At ok σ low (.node n :: items) r c' := by
  have held : At ok σ low ((written false hasElse no ++ [Pending.node yes, .node cond]) ++
      .token start :: items) r c := by
    simpa using held
  have all : At ok σ low ((written false hasElse no ++ [Pending.node yes, .node cond, .token start])
      ++ items) r c := by
    simpa using held
  have built := compound .ifElse [cond, yes, no] _ held rfl rfl [flagWord hasElse] (by
    rw [handles_append, List.filter_append, ← filter_written none]
    exact List.filter_append (p := (· ≠ .broken)) [cond, yes] [no])
  refine unlessAnyBroken _ all (by simp [Pending.handles, handle?]) ?_
  · cases hasElse with
    | true => exact unlessBroken _ all (by simp [Pending.handles, handle?, written]) fun _ => built
    | false => exact built

theorem whileLoop (held : At ok σ low (.node body :: .node cond :: .token start :: items) r c) :
    Checker.Ends ok (Checker.whileLoop cond body (Location.span start r.previous.loc)) c fun n c' =>
    At ok σ low (.node n :: items) r c' :=
  unlessAnyBroken [.node body, .node cond, .token start] held (by simp [Pending.handles, handle?])
    (compound _ _ [.node body, .node cond] held rfl rfl [] rfl)

theorem doWhile (held : At ok σ low (.node cond :: .node body :: .token start :: items) r c) :
    Checker.Ends ok (Checker.doWhile body cond (Location.span start r.previous.loc)) c fun n c' =>
    At ok σ low (.node n :: items) r c' :=
  unlessAnyBroken [.node cond, .node body, .token start] held (by simp [Pending.handles, handle?])
    (compound _ _ [.node cond, .node body] held rfl rfl [] rfl)

theorem unlessBrokenClause {clause : Clause} {m : Check Handle}
    (more : List Pending) (held : At ok σ low (more ++ items) r c)
    (rule : Checker.Ends ok m c fun n c' => At ok σ low (.node n :: items) r c')
    (inside : clause.written = true → clause.node ∈ Pending.handles more) :
    Checker.Ends ok (do if ← isBrokenClause clause then return .broken else m) c fun n c' =>
    At ok σ low (.node n :: items) r c' := by
  have asks :
    isBrokenClause clause c = .ok (clause.written && c.session.tree.isBroken clause.node, c) := by
    unfold isBrokenClause
    cases clause.written <;> rfl
  refine .step asks ?_
  cases on : clause.written with
  | true =>
    have demands := unlessBroken more held (inside on) fun _ => rule
    exact demands
  | false => exact rule

/-- The loop with its clauses; one that was not written is the broken node. -/
theorem forLoop {init cond step : Clause} (held : At ok σ low
      (.node body :: (written false step.written step.node ++ (written false cond.written cond.node
      ++ (written false init.written init.node ++ .token start :: items)))) r c)
    (noInit : init.written = false → init.node = .broken)
    (noCond : cond.written = false → cond.node = .broken)
    (noStep : step.written = false → step.node = .broken) : Checker.Ends ok
    (Checker.forLoop init cond step body (Location.span start r.previous.loc)) c fun n c' =>
      At ok σ low (.node n :: items) r c' := by
  set clauses := Pending.node body :: (written false step.written step.node ++
    (written false cond.written cond.node ++ written false init.written init.node)) with same
  have inner : At ok σ low (clauses ++ .token start :: items) r c := by simpa [same] using held
  have all : At ok σ low ((clauses ++ [Pending.token start]) ++ items) r c := by
    simpa [same] using held
  have built := compound .forLoop [init.node, cond.node, step.node, body] clauses inner rfl rfl
    [flagWord init.written, flagWord cond.written, flagWord step.written] (by
      rw [same, handles_tree, handles_append, handles_append]
      simp only [List.filter_append, ← filter_written noInit, ← filter_written noCond,
        ← filter_written noStep]
      simp only [← List.filter_append]
      rfl)
  refine unlessBroken _ all (by simp [same, handles_append, handles_tree]) fun _ => ?_
  refine unlessBrokenClause _ all (unlessBrokenClause _ all
    (unlessBrokenClause _ all built fun on => ?_) fun on => ?_) fun on => ?_
  all_goals simp [same, written, on, Pending.handles, handle?]

/-! ## Switches -/

theorem near_span (held : At ok σ low items r c) (near : Loose ok ∨ start.Near) :
    Loose ok ∨ (Location.span start r.previous.loc).Near :=
  (or_and near held.reader.behind).imp_right fun both => both.1.span both.2

theorem switching (held : At ok σ low (.node body :: .value cond :: .token start :: items) r c) :
    Checker.Ends ok (Checker.switching cond body (Location.span start r.previous.loc)) c fun n c' =>
    At ok σ low (.node n :: items) r c' := by
  have built := compound .switching [cond, body] [.node body, .value cond] held rfl rfl [] rfl
  refine unlessBroken [.node body, .value cond, .token start] held
    (by simp [Pending.handles, handle?]) fun live => ?_
  obtain ⟨x, rfl, has, operand⟩ := held.operand (by simp) live
  refine .step (typeOf_run has) ?_
  split
  next => exact .step (locationOf_run has) (refuse [_, _, _] held operand.node.near _ false)
  next =>
    exact unlessBroken [.node body, .value _, .token start] held
      (by simp [Pending.handles, handle?]) fun _ => built

theorem caseLabel (held : At ok σ low (.node body :: .value value :: .token start :: items) r c)
    (near : Loose ok ∨ start.Near) :
    Checker.Ends ok (Checker.caseLabel value body (Location.span start r.previous.loc)) c
    fun n c' => At ok σ low (.node n :: items) r c' := by
  have built := compound .caseLabel [value, body] [.node body, .value value] held rfl rfl [] rfl
  refine .step (a := c) rfl ?_
  split
  next => exact refuse [_, _, _] held (held.near_span near) _ false
  next =>
    refine unlessBroken [.node body, .value value,
      .token start] held (by simp [Pending.handles, handle?]) fun live => ?_
    obtain ⟨x, rfl, has, operand⟩ := held.operand (by simp) live
    refine .step (typeOf_run has) ?_
    split
    next => exact .step (locationOf_run has) (refuse [_, _, _] held operand.node.near _ false)
    next =>
      refine .step (isLiteral_run has) ?_
      split
      next => exact .step (locationOf_run has) (refuse [_, _, _] held operand.node.near _ false)
      next =>
        exact unlessBroken [.node body, .value _,
          .token start] held (by simp [Pending.handles, handle?]) fun _ => built

theorem defaultLabel (held : At ok σ low (.node body :: .token start :: items) r c)
    (near : Loose ok ∨ start.Near) :
    Checker.Ends ok (Checker.defaultLabel body (Location.span start r.previous.loc)) c fun n c' =>
    At ok σ low (.node n :: items) r c' := by
  have built := compound .defaultLabel [body] [.node body] held rfl rfl [] rfl
  refine .step (a := c) rfl ?_
  split
  next => exact refuse [_, _] held (held.near_span near) _ false
  next =>
    exact unlessBroken [.node body, .token start] held (by simp [Pending.handles, handle?]) fun _ =>
      built

/-! ## Jumps -/

theorem breaking (held : At ok σ low (.token start :: items) r c) (near : Loose ok ∨ start.Near) :
    Checker.Ends ok (Checker.breaking (Location.span start r.previous.loc)) c fun n c' =>
    At ok σ low (.node n :: items) r c' := by
  refine .step (a := c) rfl ?_
  split
  next => exact refuse [_] held (held.near_span near) _ false
  next => exact compound _ _ [] held rfl rfl [] rfl

theorem continuing (held : At ok σ low (.token start :: items) r c) (near : Loose ok ∨ start.Near) :
    Checker.Ends ok (Checker.continuing (Location.span start r.previous.loc)) c fun n c' =>
    At ok σ low (.node n :: items) r c' := by
  refine .step (a := c) rfl ?_
  split
  next => exact refuse [_] held (held.near_span near) _ false
  next => exact compound _ _ [] held rfl rfl [] rfl

/-- An expression is converted, or it cannot be and the report of this leaves a broken node. -/
theorem convert {want : TypeId} (held : At ok σ low (.value value :: items) r c)
    (named : c.session.types.Named want) (live : c.session.tree.isBroken value = false) :
    Checker.Ends ok (Checker.convert want value) c fun out c' =>
    (out.2 = none ∧ At ok σ low (.value out.1 :: items) r c') ∨
    (out.2 ≠ none ∧ ∃ loc, locationOf out.1 c' = .ok (loc, c') ∧
      ∀ d, Checker.Ends ok (Checker.report loc d) c' fun _ c' =>
        At ok σ low (.value .broken :: items) r c' ∧ c'.errors ≠ 0) := by
  obtain ⟨xs, ls, rest, p, q, stocks, carries, clean, close⟩ := replace [] [.value value] held
  obtain ⟨x, rfl, rfl, rfl, operand⟩ : ∃ x, xs = [x] ∧ ls = [x.location] ∧
      value = c.session.tree.handle x.index ∧ c.session.types.Operand ok x := by
    cases stocks with
    | broken error below =>
      rw [Arena.isBroken_broken] at live
      cases live
    | tree named operand below =>
      cases below
      exact ⟨_, rfl, rfl, named, operand rfl⟩
  refine (Checker.convert_ends held.fine named carries operand).mono ?_
  rintro ⟨n, problem⟩ _ ⟨t, x', rfl, swaps, operand', -, good⟩
  have moves := (Checker.onward_withTree c t).moves swaps.keeps
  have fine := held.fine.withTree t
  cases problem with
  | none =>
    obtain ⟨-, ruled, inPlace⟩ := good rfl
    refine .inl ⟨rfl, close _ true n fine moves
      (.inr ⟨x', swaps.handle, swaps.carries, fun _ => operand', fun none => ?_⟩)⟩
    obtain ⟨row, -, order⟩ := clean none
    have inOrder := order x (List.mem_singleton_self x)
    exact ⟨⟨operand'.tame, ruled _ _ inOrder.ruled, inPlace.nested _ inOrder.nested⟩,
      by simpa [inPlace.location] using row⟩
  | some d =>
    have has := swaps.carries.has List.mem_cons_self
    refine .inr ⟨nofun, x'.location, ?_, fun d => ?_⟩
    · rw [swaps.handle]
      exact locationOf_run (c := c.withTree t) has
    refine (Checker.report_ends fine operand'.node.near d).mono fun _ c' ⟨j, same, adds⟩ => ?_
    subst same
    have error : ((c.withTree t).withJournal j).errors ≠ 0 := by
      rw [Checker.errors_withJournal adds]
      simp
    have reports : (c.withTree t).Moves rest ((c.withTree t).withJournal j) :=
      (Checker.onward_withJournal adds).moves fun _ _ => rfl
    exact ⟨close _ true .broken (fine.withJournal adds) (moves.trans reports)
      (.inl ⟨rfl, error, [x'], swaps.carries⟩), error⟩

theorem returning {hasValue : Bool}
    (held : At ok σ low (written true hasValue value ++ .token start :: items) r c)
    (near : Loose ok ∨ start.Near) :
    Checker.Ends ok (Checker.returning value hasValue (Location.span start r.previous.loc)) c
    fun n c' => At ok σ low (.node n :: items) r c' := by
  cases hasValue with
  | false =>
    refine .step (a := c) rfl ?_
    dsimp only
    split
    next => exact compound _ _ [] held rfl rfl [] rfl
    next => exact refuse [_] held (held.near_span near) _ false
  | true =>
    refine .step (a := c) rfl ?_
    dsimp only
    split
    next => exact refuse [_, _] held (held.near_span near) _ false
    next =>
      refine unlessBroken [.value value, .token start] held
        (by simp [Pending.handles, handle?]) fun live => ?_
      refine (convert held held.fine.result live).bind ?_
      rintro ⟨n, problem⟩ c' (⟨rfl, held⟩ | ⟨some, loc, located, reports⟩)
      · exact compound _ _ [.value n] held rfl rfl [] rfl
      · obtain ⟨d, rfl⟩ := Option.ne_none_iff_exists'.mp some
        refine .step located ((reports d).bind ?_)
        rintro _ c' ⟨held, error⟩
        exact .pure (giveUp [] [_, _] held error)

/-! ## Labels -/

/-- A declaration is taken in or refused. -/
theorem declare (kind : IdentKind) {spelling : Int} {type : TypeId} (held : At ok σ low items r c)
    (named : c.session.types.Named type) (listed : ∀ n, kind ≠ .unlisted n)
    (other : kind ≠ .builtin) (known : ok .badIndex ∨ c.session.spellings.has spelling = true) :
    Checker.Ends ok (Checker.declare spelling kind type) c fun out c' =>
    At ok σ low items r c' ∧ (∃ s, c' = c.withSession s) ∧
    ∀ id, out = .ok id → 0 < id ∧ id < c'.session.identifiers.size := by
  refine .step (currentSession_run c)
    (.lift (held.fine.regular.declare_ends named listed known) fun answer taken => ?_)
  cases answer with
  | error e => exact .pure ⟨held, ⟨c.session, rfl⟩, nofun⟩
  | ok out =>
    obtain ⟨s, id⟩ := out
    obtain ⟨advances, entered⟩ := taken s id rfl
    refine .step (setSession_run s c)
      (.pure ⟨held.advances advances (.enters held.fine.regular entered other), ⟨s, rfl⟩, ?_⟩)
    rintro _ ⟨⟩
    obtain ⟨previous, displacement, identifiers⟩ := entered.entry
    have some := held.fine.regular.some
    have fresh := entered.fresh
    refine ⟨by omega, ?_⟩
    rw [show (c.withSession s).session.identifiers = _ from identifiers, Array.size_push]
    omega

/-- The labels may change if they are mentioned at near places. -/
theorem withLabels (held : At ok σ low items r c) (labels : Option (Array Label)) (near : Loose ok ∨
      ((∀ l ∈ c.labelList, l.mention.Near) → ∀ l ∈ (labels.getD #[]).toList, l.mention.Near)) :
    At ok σ low items r { c with labels } :=
  held.step ⟨held.fine.regular, held.fine.string, held.fine.result, held.fine.linked,
    (or_and held.fine.tight near).imp_right fun both =>
    ⟨both.1.short, both.1.roomy, both.1.places, both.2 both.1.mentions⟩⟩ rfl (.refl _) rfl
      (le_refl _) id

theorem labelOf {labels : Array Label} {spelling : Int}
    (held : At ok σ low items r c) (present : c.labels = some labels)
    (known : ok .badIndex ∨ c.session.spellings.has spelling = true) (near : Loose ok ∨ loc.Near) :
    Checker.Ends ok (Checker.labelOf labels spelling loc) c fun _ c' => At ok σ low items r c' := by
  unfold Checker.labelOf
  split
  next => exact .pure held
  next =>
    refine (declare .label held held.fine.regular.types.undefined nofun nofun known).bind ?_
    rintro answer _ ⟨held, ⟨s, rfl⟩, -⟩
    refine .step (currentSession_run _) (.step (a := ()) rfl
      (.pure (held.withLabels _ (near.imp_right fun near mentions l mem => ?_))))
    rw [Option.getD_some, Array.toList_push, List.mem_append, List.mem_singleton] at mem
    rcases mem with old | rfl
    · refine mentions l ?_
      rw [labelList, show (c.withSession s).labels = some labels from present]
      exact old
    · exact near

theorem jump {spelling : Int} (held : At ok σ low (.token start :: items) r c)
    (near : Loose ok ∨ start.Near)
    (known : ok .badIndex ∨ c.session.spellings.has spelling = true) :
    Checker.Ends ok (Checker.jump spelling (Location.span start r.previous.loc)) c fun n c' =>
    At ok σ low (.node n :: items) r c' := by
  refine .step (a := c) rfl ?_
  split
  next => exact .step (currentSession_run c) (refuse [_] held (held.near_span near) _ false)
  next labels present =>
    exact (held.labelOf present known (held.near_span near)).bind fun label c' held =>
      compound _ _ [] held rfl rfl _ rfl

theorem labelled {spelling : Int} (held : At ok σ low (.node body :: .token start :: items) r c)
    (near : Loose ok ∨ start.Near)
    (known : ok .badIndex ∨ c.session.spellings.has spelling = true) :
    Checker.Ends ok (Checker.labelled spelling body (Location.span start r.previous.loc)) c
    fun n c' => At ok σ low (.node n :: items) r c' := by
  refine .step (a := c) rfl ?_
  split
  next => exact .pure (forget [_] held rfl)
  next labels present =>
    refine (held.labelOf present known (held.near_span near)).bind fun label c' held => ?_
    split
    next => exact refuse [_, _] held (held.near_span near) _ false
    next =>
      have placed :
          At ok σ low (.node body :: .token start :: items) r { c' with
            labels := c'.labels.map (·.map fun l =>
              if l.spelling == spelling then { l with defined := true } else l) } := by
        refine held.withLabels _ (.inr fun mentions l mem => ?_)
        rw [labelList] at mentions
        cases all : c'.labels with
        | none => simp [all] at mem
        | some ls =>
          simp only [all, Option.map_some, Option.getD_some, Array.toList_map, List.mem_map]
            at mem mentions
          obtain ⟨old, inside, rfl⟩ := mem
          have near := mentions old inside
          split <;> exact near
      refine .step (a := ()) rfl ?_
      exact unlessBroken [.node body, .token start] placed
        (by simp [Pending.handles, handle?]) fun _ => compound _ _ [.node body] placed rfl rfl _ rfl

end At

end BilingualC
