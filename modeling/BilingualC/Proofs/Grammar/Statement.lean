import Mathlib
import BilingualC.Proofs.Checker.Statement
import BilingualC.Proofs.Grammar.Declaration

/-!
# What grammar rules of statements do

A rule of statements leaves one statement on top of the trees that wait, which may break, continue
and have cases as far as the loops and switches around it allow it (`Grammar.StatementRules`).
-/

namespace BilingualC

namespace Grammar

open Checker Rose Session

/-! ## Nesting -/

/-- A statement waits that is possible in the loops and switches around it. -/
abbrev Claim.statement (n : Handle) : Claim :=
  .nested (fun _ => True) fun w => [.statement w.inLoop w.inSwitch n]

theorem stateOf_true {c : Checker} {w : World} {slots : List Slot} :
    c.StateOf (fun _ => True) w slots ↔ c.State w slots :=
  or_congr_right (exists_congr fun _ => by rw [and_true])

/-- A step without a fact is an effect in every world. -/
theorem Does.run_effectIn {α : Type} {m : Parse α}
    {ins : World → List Slot} {outs : α → World → List Slot}
    (does : Does (.nested (fun _ => True) ins) m fun a => .nested (fun _ => True) (outs a))
    {r r' : Reader} {c c' : Checker} {a : α}
    (run : m r c = .ok ((a, r'), c')) (recovers : r.recovering = true → c.Dirty) (w : World) :
    c.EffectIn w (ins w) (outs a w) c' :=
  fun base state =>
    stateOf_true.1 ((does r c a r' c' run recovers).2.2 w base (stateOf_true.2 state))

theorem Does.loop {m : Parse Handle} (body : Does (.slots []) m .statement) :
    Does (.slots []) (do
      liftM enterLoop
      let b ← m
      liftM exitLoop
      return b) fun n => .nested (fun _ => True) fun w => [.statement true w.inSwitch n] := by
  intro r c a r' c' run recovers
  obtain ⟨_, _, c₁, entered, run⟩ := run_bind.mp run
  cases entered
  obtain ⟨b, r₂, c₂, inside, run⟩ := run_bind.mp run
  cases run
  obtain ⟨recovers', dirty, -⟩ := body _ _ _ _ _ inside recovers
  exact ⟨recovers', dirty, fun w base state =>
    stateOf_true.2
      (EffectIn.loop (fun w => body.run_effectIn inside recovers w) base (stateOf_true.1 state))⟩

theorem Does.switch {m : Parse Handle} (body : Does (.slots []) m .statement) :
    Does (.slots []) (do
      liftM enterSwitch
      let b ← m
      liftM exitSwitch
      return b) fun n => .nested (fun _ => True) fun w => [.statement w.inLoop true n] := by
  intro r c a r' c' run recovers
  obtain ⟨_, _, c₁, entered, run⟩ := run_bind.mp run
  cases entered
  obtain ⟨b, r₂, c₂, inside, run⟩ := run_bind.mp run
  cases run
  obtain ⟨recovers', dirty, -⟩ := body _ _ _ _ _ inside recovers
  exact ⟨recovers', dirty, fun w base state =>
    stateOf_true.2
      (EffectIn.switch (fun w => body.run_effectIn inside recovers w) base (stateOf_true.1 state))⟩

/-! ## Statements -/

/-- What the rules of statements do when they may nest so deep. -/
structure StatementRules (depth : Nat) : Prop where
  statement : Does (.slots []) (statement depth) .statement
  loopBody : Does (.slots []) (loopBody depth) fun n => .nested (fun _ => True) fun w =>
    [.statement true w.inSwitch n]
  forStatement : ∀ start, Does (.slots []) (forStatement depth start) .statement
  firstClause : Does (.slots []) (firstClause depth) fun part =>
    .known (fun _ => part.Marked) (part.slots IsClause)
  scopedBlock : Does (.slots []) (scopedBlock depth) .statement
  blockBody : Does (.slots []) (blockBody depth) .statement
  blockItems : Does (.slots []) (blockItems depth) fun ns =>
    .nested (fun _ => True) fun w => Slot.each (IsStatement w.inLoop w.inSwitch) ns

theorem does_startsDeclaration : Does (.slots []) startsDeclaration fun _ => .slots [] :=
  .bind .current fun tok => .ite (fun _ => .pure rfl) fun _ => .bind (does_typeNamed tok) fun _ =>
    Does.forget (.pure rfl)

theorem does_ensureProgress {pre : Claim} (before : Nat) :
    Does pre (ensureProgress before) fun _ => pre :=
  .bind .position fun _ => .ite (fun _ => .advance) fun _ => .pure rfl

/-- A declaration is a statement. -/
theorem does_declared (depth : Nat) : Does (.slots []) (declaration depth) .statement :=
  (does_declaration depth).weaken fun _ _ => .cons ⟨rfl, fun _ => .declaration⟩ .nil

/-- An expression is a statement. -/
theorem does_expressed (depth : Nat) : Does (.slots []) (expression depth) .statement :=
  (expressionRules depth).expression.weaken fun _ _ => .cons ⟨rfl, fun _ => .expr⟩ .nil

/-- An optional part of a statement, and the rest of it. -/
theorem does_optional {α : Type} {pre : Claim} {post : α → Claim} {some none : Parse α}
    {rest : Handle → Parse α} {written : Bool} (mid : Bool → Handle → Claim)
    (same : pre = mid false .broken) (absent : none = Pure.pure .broken >>= rest)
    (next : ∀ n, Clause.Marked ⟨n, written⟩ → Does (mid written n) (rest n) post)
    (present : (∀ n, Does (mid true n) (rest n) post) → Does pre some post) :
    Does pre (if written = true then some else none) post := by
  refine .ite (fun yes => present fun n => ?_) fun no => ?_
  · subst yes
    exact next n (by simp [Clause.Marked])
  · rw [Bool.not_eq_true] at no
    subst no absent
    exact .pass (same ▸ next .broken fun _ => rfl)

namespace StatementRules

variable {depth : Nat} (rules : StatementRules depth)

include rules

theorem loopBody_succ : Does (.slots []) (Grammar.loopBody (depth + 1)) fun n =>
    .nested (fun _ => True) fun w => [.statement true w.inSwitch n] :=
      .within _ (.loop rules.statement)

omit rules in
theorem firstClause_succ : Does (.slots []) (Grammar.firstClause (depth + 1)) fun part =>
    .known (fun _ => part.Marked) (part.slots IsClause) := by
  have written (n : Handle) :
    Does (.slots [⟨n, IsClause⟩]) (Pure.pure (⟨n, true⟩ : Clause)) fun part =>
      .known (fun _ => part.Marked) (part.slots IsClause) :=
    Does.given (P := fun _ => Clause.Marked ⟨n, true⟩) (.pure rfl) (by simp [Clause.Marked])
  refine .within _ (.bind (.accept _) fun _ => .ite (fun _ => ?_) fun _ =>
    .bind does_startsDeclaration fun _ => .ite (fun _ => ?_) fun _ => ?_)
  · exact Does.given (P := fun _ => Clause.Marked ⟨.broken, false⟩) (.pure rfl) fun _ _ _ _ => rfl
  · have first : Does (.slots []) (declaration depth) fun n => .slots [⟨n, IsClause⟩] :=
      (does_declaration depth).weaken fun _ _ => .cons ⟨rfl, fun _ => .inl⟩ .nil
    exact .bind first fun n => written n
  · have first : Does (.slots []) (expression depth) fun n => .slots [⟨n, IsClause⟩] :=
      (expressionRules depth).expression.weaken fun _ _ => .cons ⟨rfl, fun _ => .inr⟩ .nil
    exact .bind first fun n => .bind (.want _ _) fun _ => written n

omit rules in
theorem forLoop {init cond step : Clause} (second : cond.Marked)
    (third : step.Marked) (body : Handle) (loc : Location) :
    Does (.nested (fun _ => init.Marked) fun w => loopSlots w init cond step body)
    (liftM (Checker.forLoop init cond step body loc)) .statement := by
  refine .lift (fun run => (of_run (forLoop_spec init cond step body loc) run).1)
    fun run w base known => ?_
  obtain ⟨dirty, effect⟩ := of_run (forLoop_spec init cond step body loc) run
  obtain error | ⟨trees, stands, fits, first⟩ := known
  · exact .inl (dirty error)
  · exact stateOf_true.2 (effect first second third w base (.inr ⟨trees, stands, fits⟩))

/-- The end of a `for` statement, whose clauses wait. -/
theorem forTail (start : Location) (scope : Scope) {init cond step : Clause}
    (second : cond.Marked) (third : step.Marked) : Does (.known (fun _ => init.Marked)
      (step.slots IsExpr ++ cond.slots IsExpr ++ init.slots IsClause)) (do
        want .rightParen ")"
        let body ← Grammar.loopBody depth
        let node ← Checker.forLoop init cond step body (← spanFrom start)
        liftM (closeScope scope)
        return node) .statement := by
  have body := (rules.loopBody.below fun _ =>
    step.slots IsExpr ++ cond.slots IsExpr ++ init.slots IsClause).under (p := init.Marked)
  refine .bind (.want _ _) fun _ => .bind body fun body => .bind (.spanFrom _) fun loc => ?_
  refine .bind (forLoop second third body loc) fun n => ?_
  have closed : Does (.slots []) (liftM (closeScope scope)) fun _ => .slots [] :=
    .effect fun run => (of_run (closeScope_spec scope) run :)
  exact .bind (closed.below fun w => [.statement w.inLoop w.inSwitch n]) fun _ => .pure rfl

theorem forStatement_succ (start : Location) :
    Does (.slots []) (Grammar.forStatement (depth + 1) start) .statement := by
  refine .within _ (.bind (.want _ _) fun _ =>
    .bind (.effect fun run => (of_run openScope_spec run :)) fun scope => ?_)
  refine .bind rules.firstClause fun init => .bind (.check _) fun missing => ?_
  have checked (below : List Slot) (n : Handle) :
      Does (.known (fun _ => init.Marked) (.expr n :: below)) (liftM (condition n)) fun n =>
      .known (fun _ => init.Marked) (.expr n :: below) :=
    (Does.effect fun run => (of_run (condition_spec n) run :)).carry (stable_const _) below
  have read (below : List Slot) :
    Does (.known (fun _ => init.Marked) below) (expression depth) fun n =>
      .known (fun _ => init.Marked) (.expr n :: below) :=
        (expressionRules depth).expression.carry (stable_const _) below
  let clause (below : List Slot) (written : Bool) (n : Handle) : Claim :=
    .known (fun _ => init.Marked) (Clause.slots IsExpr ⟨n, written⟩ ++ below)
  refine does_optional (clause (init.slots IsClause)) rfl rfl (fun cond second => ?_) fun next =>
    .bind (read _) fun n => .bind (checked _ n) next
  refine .bind (.want _ _) fun _ => .bind (.check _) fun missing => ?_
  refine does_optional (clause (Clause.slots IsExpr ⟨cond, _⟩ ++ init.slots IsClause)) rfl rfl
    (fun step third => ?_) fun next => .bind (read _) next
  dsimp only [clause]
  rw [← List.append_assoc]
  exact rules.forTail start scope second third

theorem scopedBlock_succ : Does (.slots []) (Grammar.scopedBlock (depth + 1)) .statement := by
  refine .within _ (.bind (.effect fun run => (of_run openScope_spec run :)) fun scope =>
    .bind rules.blockBody fun n => ?_)
  have closed : Does (.slots []) (liftM (closeScope scope)) fun _ => .slots [] :=
    .effect fun run => (of_run (closeScope_spec scope) run :)
  exact .bind (closed.below fun w => [.statement w.inLoop w.inSwitch n]) fun _ => .pure rfl

theorem blockBody_succ : Does (.slots []) (Grammar.blockBody (depth + 1)) .statement := by
  refine .within _ (.bind .current fun start => .bind (.want _ _) fun _ =>
    .bind rules.blockItems fun statements => ?_)
  refine .bind (.want _ _) fun _ => .bind (.spanFrom _) fun loc => ?_
  exact .effectIn fun run => (of_run (block_spec statements loc) run :)

theorem blockItems_succ : Does (.slots []) (Grammar.blockItems (depth + 1)) fun ns =>
    .nested (fun _ => True) fun w => Slot.each (IsStatement w.inLoop w.inSwitch) ns := by
  have tail (before : Nat) (first : Handle) : Does (.statement first)
      (do
        synchronize
        ensureProgress before
        return first :: (← Grammar.blockItems depth)) fun ns =>
      .nested (fun _ => True) fun w => Slot.each (IsStatement w.inLoop w.inSwitch) ns := by
    refine .bind .synchronize fun _ => .bind (does_ensureProgress before) fun _ => ?_
    refine .bind (rules.blockItems.below fun w =>
      [.statement w.inLoop w.inSwitch first]) fun rest => .pure ?_
    simp only [Slot.each_cons]
    rfl
  refine .within _ (.bind (.check _) fun _ => .bind (.check _) fun _ =>
    .ite (fun _ => .pure rfl) fun _ => ?_)
  refine .bind .position fun before => .bind does_startsDeclaration fun _ =>
    .ite (fun _ => ?_) fun _ => ?_
  · exact .bind (does_declared depth) (tail before)
  · exact .bind rules.statement (tail before)

/-- A conditional statement after its keyword. -/
theorem ifElse (start : Location) : Does (.slots [])
    (do
      let cond ← controlExpression depth
      let yes ← Grammar.statement depth
      let hasElse ← Grammar.accept .elseWord
      let no ← if hasElse then Grammar.statement depth else Pure.pure Handle.broken
      Checker.ifElse cond yes no hasElse (← Grammar.spanFrom start)) .statement := by
  refine .bind (does_controlExpression depth) fun cond =>
    .bind (rules.statement.below fun _ => [.expr cond]) fun yes => ?_
  refine .bind (.accept _) fun hasElse => ?_
  let branches (hasElse : Bool) (no : Handle) : Claim := .nested (fun _ => True) fun w =>
    Clause.slots (IsStatement w.inLoop w.inSwitch) ⟨no, hasElse⟩ ++
      [.statement w.inLoop w.inSwitch yes, .expr cond]
  refine does_optional branches rfl rfl (fun no marked => .bind (.spanFrom _) fun loc =>
    ?_) fun next =>
    .bind (rules.statement.below fun w => [.statement w.inLoop w.inSwitch yes, .expr cond]) next
  exact .effectIn fun run => (of_run (ifElse_spec cond yes no hasElse loc) run marked :)

/-- A switch after its controlling expression. -/
theorem switching (start : Location) (cond : Handle) : Does (.slots [.expr cond])
    (do
      liftM enterSwitch
      let body ← Grammar.statement depth
      liftM exitSwitch
      Checker.switching cond body (← Grammar.spanFrom start)) .statement := by
  have inside : Does (.slots [.expr cond])
      ((do
        liftM enterSwitch
        let body ← Grammar.statement depth
        liftM exitSwitch
        return body) >>= fun body => (do Checker.switching cond body (← Grammar.spanFrom start)))
          .statement := by
    refine .bind ((Does.switch rules.statement).below fun _ => [.expr cond]) fun body =>
      .bind (.spanFrom _) fun loc => ?_
    exact .effectIn fun run => (of_run (switching_spec cond body loc) run :)
  simpa only [bind_assoc, pure_bind] using inside

omit rules in
/-- A return statement after its keyword. -/
theorem returning (start : Location) (missing : Bool) : Does (.slots [])
    (do
      let hasValue := !missing
      let value ← if hasValue then Grammar.expression depth else Pure.pure Handle.broken
      Grammar.want .semicolon ";"
      Checker.returning value hasValue (← Grammar.spanFrom start)) .statement := by
  refine does_optional (fun hasValue n => .slots (Clause.slots IsExpr ⟨n, hasValue⟩)) rfl rfl
    (fun value marked => ?_) fun next =>
    .bind (expressionRules depth).expression next
  refine .bind (.want _ _) fun _ => .bind (.spanFrom _) fun loc => ?_
  exact .effectIn fun run => (of_run (returning_spec value _ loc) run :)

theorem statement_succ : Does (.slots []) (Grammar.statement (depth + 1)) .statement := by
  refine .within _ (.bind .current fun tok => ?_)
  split
  next => exact rules.scopedBlock
  next => exact .bind .advance fun _ => .effectIn fun run => (of_run (null_spec _) run :)
  next => exact .bind .advance fun _ => rules.ifElse tok.loc
  next =>
    refine .bind .advance fun _ => .bind (does_controlExpression depth) fun cond => ?_
    refine .bind (rules.loopBody.below fun _ => [.expr cond]) fun body =>
      .bind (.spanFrom _) fun loc => ?_
    exact .effectIn fun run => (of_run (whileLoop_spec cond body loc) run :)
  next =>
    refine .bind .advance fun _ => .bind rules.loopBody fun body => .bind (.want _ _) fun _ => ?_
    refine .bind ((does_controlExpression depth).below fun w =>
      [.statement true w.inSwitch body]) fun cond => ?_
    refine .bind (.want _ _) fun _ => .bind (.spanFrom _) fun loc => ?_
    exact .effectIn fun run => (of_run (doWhile_spec body cond loc) run :)
  next => exact .bind .advance fun _ => rules.forStatement tok.loc
  next =>
    refine .bind .advance fun _ => .bind (.want _ _) fun _ =>
      .bind (expressionRules depth).expression fun cond => ?_
    exact .bind (.want _ _) fun _ => rules.switching tok.loc cond
  next =>
    refine .bind .advance fun _ => .bind (expressionRules depth).conditionalExpression fun value =>
      .bind (.want _ _) fun _ => ?_
    refine .bind (rules.statement.below fun _ => [.expr value]) fun body =>
      .bind (.spanFrom _) fun loc => ?_
    exact .effectIn fun run => (of_run (caseLabel_spec value body loc) run :)
  next =>
    refine .bind .advance fun _ => .bind (.want _ _) fun _ => .bind rules.statement fun body =>
      .bind (.spanFrom _) fun loc => ?_
    exact .effectIn fun run => (of_run (defaultLabel_spec body loc) run :)
  next =>
    refine .bind .advance fun _ => .bind .current fun name =>
      .expectElse _ _ (.bind (.want _ _) fun _ => .bind (.spanFrom _) fun loc => ?_)
    exact .effectIn fun run => (of_run (jump_spec name.spelling loc) run :)
  next => exact .bind .advance fun _ => .bind (.check _) fun missing => returning tok.loc missing
  next =>
    refine .bind .advance fun _ => .bind (.want _ _) fun _ => .bind (.spanFrom _) fun loc => ?_
    exact .effectIn fun run => (of_run (breaking_spec loc) run :)
  next =>
    refine .bind .advance fun _ => .bind (.want _ _) fun _ => .bind (.spanFrom _) fun loc => ?_
    exact .effectIn fun run => (of_run (continuing_spec loc) run :)
  next =>
    refine .bind .peek fun after => .ite (fun _ => ?_) fun _ => ?_
    · refine .bind .advance fun _ => .bind .advance fun _ => .bind rules.statement fun body =>
        .bind (.spanFrom _) fun loc => ?_
      exact .effectIn fun run => (of_run (labelled_spec tok.spelling body loc) run :)
    · exact .bind (does_expressed depth) fun value => .bind (.want _ _) fun _ => .pure rfl

end StatementRules

/-- The rules of statements, however deep they nest. -/
theorem statementRules (depth : Nat) : StatementRules depth := by
  induction depth with
  | zero => constructor <;> intros <;> exact .throw _
  | succ depth rules =>
    exact {
      statement := rules.statement_succ
      loopBody := rules.loopBody_succ
      forStatement := rules.forStatement_succ
      firstClause := StatementRules.firstClause_succ
      scopedBlock := rules.scopedBlock_succ
      blockBody := rules.blockBody_succ
      blockItems := rules.blockItems_succ }

end Grammar

end BilingualC
