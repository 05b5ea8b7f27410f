import Mathlib
import BilingualC.Proofs.Reading.Variables

/-!
# Reading statements

A statement leaves its node behind its first token, and so does a block, which starts with a brace
wherever it is read. The parts of a block go on in any case: where a declaration or a statement
passed no token, one is passed after it.
-/

namespace BilingualC

open Guarded Pending

variable {β : Type} {ok : Fault → Prop}

namespace At

variable {σ : Course} {low depth : Nat} {items : List Pending} {r : Reader} {c : Checker}
    {R : β → Reader → Checker → Prop}

open Grammar

/-- A reader finds out whether a declaration starts here. -/
theorem reads_startsDeclaration {f : Bool → Parse β}
    (held : At ok σ low items r c) (next : ∀ starts, Reads ok (f starts) r c R) :
    Reads ok (Grammar.startsDeclaration >>= f) r c R := by
  have run : (Grammar.startsDeclaration >>= f) = Grammar.current >>= fun tok =>
      if (tok.kind.isTypeSpecifier || tok.kind == .typedefWord) = true then f true
      else Grammar.typeNamed? tok >>= fun named => f named.isSome := by
    unfold Grammar.startsDeclaration
    simp only [bind_assoc]
    refine congrArg _ (funext fun tok => ?_)
    split <;> simp
  rw [run]
  exact reads_current (.ite (fun _ => next true) fun _ => held.reads_typeNamed _ fun out _ _ =>
    next out.isSome)

/-- The token behind the current one is the current one after a step. -/
theorem peek_kind (held : At ok σ low items r c) (more : r.current.kind ≠ .endOfInput) :
    r.tokens.getD (r.pos + 1) (r.tokens.back?.getD r.current) = r.advanced.current := by
  obtain ⟨tok, read, same⟩ := held.reader.advanced_eq held.course more
  rw [same, held.reader.tokens, Array.getD_eq_getD_getElem?, read]
  rfl

end At

namespace Grammar

variable {σ : Course} {low depth : Nat} {items : List Pending} {r : Reader} {c : Checker}

/-- The first clause of a loop is a node if it is written. -/
theorem reads_firstClause (held : At ok σ low items r c)
    (ready : MayStart ok σ .firstClause low depth) :
    Reads ok (firstClause depth) r c fun clause r' c' =>
    (clause.written = false → clause.node = .broken) ∧
    At ok σ low (written false clause.written clause.node ++ items) r' c' := by
  cases depth with
  | zero => exact reads_throw (ready.endless held.inside)
  | succ depth =>
    refine reads_body (fun low σ (clause : Checker.Clause) r' c' =>
      (clause.written = false → clause.node = .broken) ∧
      At ok σ low (written false clause.written clause.node ++ items) r' c') held
      ready ?inner fun clause r' c' after =>
      ⟨after.1, (after.2.leave held.course).lower held.reader.low⟩
    intro r₁ pos _ inside allowed
    refine inside.reads_accept (by decide) (fun r₂ _ _ _ held =>
      reads_pure ⟨fun _ => rfl, (held.pop rfl).lower (Nat.le_succ _)⟩) fun _ => ?_
    refine inside.reads_startsDeclaration fun starts => .ite (fun _ => ?_) fun _ => ?_
    · exact Reads.bind (leads_declaration depth inside (allowed.down (le_refl _) (by decide)))
        fun n r c held => reads_pure ⟨nofun, held⟩
    · refine Reads.bind ((expressionLeads ok depth).expression inside
        (allowed.down (le_refl _) (by decide))) fun n r c held => ?_
      exact held.reads_want (by decide) fun r c held _ => reads_pure ⟨nofun, (held.pop rfl).weaken⟩

/-- What the rules of statements leave when they may nest so deep. Blocks start with a brace. -/
structure StatementLeads (ok : Fault → Prop) (depth : Nat) : Prop where
  statement : Rule.statement.Leads ok depth (statement depth) [] fun n => [.node n]
  loopBody : Rule.loopBody.Leads ok depth (loopBody depth) [] fun n => [.node n]
  forStatement : ∀ start, Rule.forStatement.Leads ok depth (forStatement depth start)
    [.token start] fun n => [.node n]
  scopedBlock : ∀ ⦃σ low items r c⦄, At ok σ low items r c →
    MayStart ok σ .scopedBlock low depth → r.current.kind = .leftBrace →
    Reads ok (scopedBlock depth) r c fun n r' c' => At ok σ low (.node n :: items) r' c'
  blockBody : ∀ ⦃σ low items r c⦄, At ok σ low items r c →
    MayStart ok σ .blockBody low depth → r.current.kind = .leftBrace →
    Reads ok (blockBody depth) r c fun n r' c' => At ok σ low (.node n :: items) r' c'
  blockItems : Rule.blockItems.Leads ok depth (blockItems depth) [] fun ns => each false ns

namespace StatementLeads

variable (leads : StatementLeads ok depth)

include leads

theorem loopBody_succ :
    Rule.loopBody.Leads ok (depth + 1) (Grammar.loopBody (depth + 1)) [] fun n => [.node n] := by
  refine leads_within fun σ items r c held allowed => ?_
  refine reads_check (.run (Q := fun _ c' => At ok _ r.pos items r c') (a := ()) rfl
    (held.nest (c.loops + 1) c.switches)) fun _ c₁ held => ?_
  refine Reads.bind (leads.statement held (allowed.down (le_refl _) (by decide)))
    fun body r₂ c₂ held => ?_
  exact reads_check (.run (Q := fun _ c' => At ok _ r.pos (.node body :: items) r₂ c') (a := ()) rfl
    (held.nest (c₂.loops - 1) c₂.switches)) fun _ c₃ held => reads_pure held

theorem forStatement_succ (start : Location) : Rule.forStatement.Leads ok (depth + 1)
    (Grammar.forStatement (depth + 1) start) [.token start] fun n => [.node n] := by
  refine leads_within fun σ items r c held allowed =>
    held.reads_want (by decide) fun r₁ c₁ held _ => ?_
  have ready {rule : Rule} (lower : rule.rank < Rule.forStatement.rank) :=
    allowed.down (le_refl _) lower
  refine reads_check ((held.pop rfl).openScope) fun scope c₂ held => ?_
  refine Reads.bind (reads_firstClause held (ready (by decide))) ?_
  rintro init r₃ c₃ ⟨noInit, held⟩
  refine reads_is ?_
  -- The condition and the step, which need not be written.
  refine Reads.optional (P := fun cond r' c' =>
    ((!(r₃.current.kind == .semicolon)) = false → cond = .broken) ∧
    At ok (σ.enter .forStatement r.pos) r.pos (written false (!(r₃.current.kind == .semicolon)) cond
    ++ (written false init.written init.node ++ .token start :: items)) r' c') (fun on next => ?_)
    (fun off => ?_) ?_
  · refine Reads.bind ((expressionLeads ok depth).expression held (ready (by decide)))
      fun n r c held => ?_
    refine reads_check held.condition fun n c held =>
      next n r c ⟨fun no => absurd (on.symm.trans no) (by decide), ?_⟩
    rw [on]
    exact held.weaken
  · exact ⟨fun _ => rfl, by rw [off]; exact held⟩
  rintro cond r₄ c₄ ⟨noCond, held⟩
  refine held.reads_want (by decide) fun r₅ c₅ held _ => reads_is ?_
  refine Reads.optional (P := fun step r' c' =>
    ((!(r₅.current.kind == .rightParen)) = false → step = .broken) ∧
    At ok (σ.enter .forStatement r.pos) r.pos (written false (!(r₅.current.kind == .rightParen))
    step ++ (written false (!(r₃.current.kind == .semicolon)) cond ++
    (written false init.written init.node ++ .token start :: items))) r' c') (fun on next => ?_)
    (fun off => ?_) ?_
  · refine Reads.bind ((expressionLeads ok depth).expression (held.pop rfl) (ready (by decide)))
      fun n r c held => ?_
    refine next n r c ⟨fun no => absurd (on.symm.trans no) (by decide), ?_⟩
    rw [on]
    exact held.weaken
  · exact ⟨fun _ => rfl, by rw [off]; exact held.pop rfl⟩
  rintro step r₆ c₆ ⟨noStep, held⟩
  refine held.reads_want (by decide) fun r₇ c₇ held _ => ?_
  refine Reads.bind (leads.loopBody (held.pop rfl) (ready (by decide))) fun body r₈ c₈ held =>
    reads_spanFrom ?_
  refine reads_check (@At.forLoop _ _ _ _ _ _ _ _ init ⟨cond, _⟩ ⟨step,
    _⟩ held noInit noCond noStep) fun n c₉ held => ?_
  exact reads_check (held.closeScope scope) fun _ c held => reads_pure held

theorem scopedBlock_succ ⦃σ low items r c⦄ (held : At ok σ low items r c)
    (ready : MayStart ok σ .scopedBlock low (depth + 1)) (opening : r.current.kind = .leftBrace) :
    Reads ok (Grammar.scopedBlock (depth + 1)) r c fun n r' c' =>
    At ok σ low (.node n :: items) r' c' := by
  refine reads_body (fun low σ n r' c' => At ok σ low (.node n :: items) r' c') held
    ready ?inner fun n r' c' after => (after.leave held.course).lower held.reader.low
  intro r₁ pos current inside allowed
  refine reads_check inside.openScope fun scope c₁ held => ?_
  refine Reads.bind (leads.blockBody held (allowed.down (le_refl _) (by decide)) (current
    ▸ opening)) fun n r₂ c₂ held => ?_
  exact reads_check (held.closeScope scope) fun _ c held => reads_pure held

theorem blockBody_succ ⦃σ low items r c⦄ (held : At ok σ low items r c)
    (ready : MayStart ok σ .blockBody low (depth + 1)) (opening : r.current.kind = .leftBrace) :
    Reads ok (Grammar.blockBody (depth + 1)) r c fun n r' c' =>
    At ok σ low (.node n :: items) r' c' := by
  refine reads_body (fun low σ n r' c' => At ok σ low (.node n :: items) r' c') held
    ready ?inner fun n r' c' after => (after.leave held.course).lower held.reader.low
  intro r₁ pos current inside allowed
  have on (rule : Rule) := allowed.on (le_refl _) inside.inside rule
  refine reads_current (inside.reads_want (by decide) fun r₂ c₂ _ passed => ?_)
  refine Reads.bind (leads.blockItems (passed (current ▸ opening)) (on _)) fun ns r₃ c₃ held => ?_
  refine held.reads_want (by decide) fun r₄ c₄ held _ => reads_spanFrom (reads_lift ?_)
  exact (held.pop rfl).block.mono fun n c held => held.lower (Nat.le_succ _)

theorem blockItems_succ : Rule.blockItems.Leads ok (depth + 1) (Grammar.blockItems (depth + 1))
    [] fun ns => each false ns := by
  refine leads_within fun σ items r c held allowed =>
    reads_is (reads_is (.ite (fun _ => reads_pure held) fun more => reads_position ?_))
  have on (rule : Rule) := allowed.on (le_refl _) held.inside rule
  have here := held.reader.current
  simp only [Bool.or_eq_true, beq_iff_eq, not_or] at more
  -- What comes behind a part of the block.
  have rest {r' : Reader} {c' : Checker} (first : Handle)
      (held : At ok (σ.enter .blockItems r.pos) r.pos (.node first :: items) r' c') : Reads ok (do
          synchronize
          ensureProgress r.pos
          return first :: (← Grammar.blockItems depth))
        r' c' fun ns r'' c'' =>
          At ok (σ.enter .blockItems r.pos) r.pos (each false ns ++ items) r'' c'' := by
    refine held.reads_synchronize (allowed.down (le_refl _) (by decide)) fun r₂ held _ => ?_
    refine held.reads_ensureProgress here more.2 fun r₃ held => ?_
    refine Reads.bind (leads.blockItems held (on _)) fun rest r₄ c₄ held => reads_pure ?_
    rw [each_cons]
    exact held.lower (Nat.le_succ _)
  refine held.reads_startsDeclaration fun starts => .ite (fun _ => ?_) fun _ => ?_
  · exact Reads.bind (leads_declaration depth held (allowed.down (le_refl _) (by decide)))
      fun first r c held => rest first held
  · exact Reads.bind (leads.statement held (allowed.down (le_refl _) (by decide)))
      fun first r c held => rest first held

theorem statement_succ :
    Rule.statement.Leads ok (depth + 1) (Grammar.statement (depth + 1)) [] fun n => [.node n] := by
  refine leads_within fun σ items r c held allowed => reads_current ?_
  have near := held.near
  have on (rule : Rule) := allowed.on (le_refl _) held.inside rule
  -- A statement ends behind the place where it started.
  have ends {m : Check Handle} {r' : Reader} {c' : Checker} (leaves : Checker.Ends ok m c'
      fun n c'' => At ok (σ.enter .statement r.pos) (r.pos + 1) (.node n :: items) r' c'') :
      Reads ok (liftM m) r' c' fun n r'' c'' =>
      At ok (σ.enter .statement r.pos) r.pos (.node n :: items) r'' c'' :=
    reads_lift (leaves.mono fun n c held => held.lower (Nat.le_succ _))
  split
  next kind => exact leads.scopedBlock held (allowed.down (le_refl _) (by decide)) kind
  next kind => exact held.reads_advance (by simp [kind]) fun r₁ _ _ held => ends held.null
  next kind =>
    refine held.reads_advance (by simp [kind]) fun r₁ _ _ held => ?_
    refine Reads.bind (leads_controlExpression ok depth held (on _)) fun cond r₂ c₂ held => ?_
    refine Reads.bind (leads.statement held.weaken (on _)) fun yes r₃ c₃ held => ?_
    refine held.reads_accept (by decide) (fun r₄ _ _ _ held => ?_) fun _ => ?_
    · refine Reads.optional (P := fun no r' c' => At ok _ (r.pos + 1) (.node no :: _) r' c')
        (fun _ next => ?_) nofun fun no r₅ c₅ held => reads_spanFrom (ends (At.ifElse held nofun))
      exact Reads.bind (leads.statement ((held.pop rfl).lower (Nat.le_succ _)) (on _)) next
    · refine Reads.optional (P := fun no r' c' => no = .broken ∧
        At ok _ (r.pos + 1) _ r' c') nofun (fun _ => ⟨rfl, held⟩) fun no r₅ c₅ known =>
        reads_spanFrom (ends (At.ifElse known.2 fun _ => known.1))
  next kind =>
    refine held.reads_advance (by simp [kind]) fun r₁ _ _ held => ?_
    refine Reads.bind (leads_controlExpression ok depth held (on _)) fun cond r₂ c₂ held => ?_
    refine Reads.bind (leads.loopBody held.weaken (on _)) fun body r₃ c₃ held => ?_
    exact reads_spanFrom (ends held.whileLoop)
  next kind =>
    refine held.reads_advance (by simp [kind]) fun r₁ _ _ held => ?_
    refine Reads.bind (leads.loopBody held (on _)) fun body r₂ c₂ held => ?_
    refine held.reads_want (by decide) fun r₃ c₃ held _ => ?_
    refine Reads.bind (leads_controlExpression ok depth (held.pop rfl) (on _))
      fun cond r₄ c₄ held => ?_
    refine held.reads_want (by decide) fun r₅ c₅ held _ => reads_spanFrom (ends ?_)
    exact (held.pop rfl).weaken.doWhile
  next kind =>
    refine held.reads_advance (by simp [kind]) fun r₁ _ _ held => ?_
    exact (leads.forStatement r.current.loc held (on _)).mono fun n r c held =>
      held.lower (Nat.le_succ _)
  next kind =>
    refine held.reads_advance (by simp [kind]) fun r₁ _ _ held =>
      held.reads_want (by decide) fun r₂ c₂ held _ => ?_
    refine Reads.bind ((expressionLeads ok depth).expression (held.pop rfl) (on _))
      fun cond r₃ c₃ held => ?_
    refine held.reads_want (by decide) fun r₄ c₄ held _ => ?_
    have entered := (held.pop rfl).nest c₄.loops (c₄.switches + 1)
    refine reads_check (.run (Q := fun _ c' => At ok _ (r.pos + 1) (.value cond ::
      .token r.current.loc :: items) r₄ c') (a := ()) rfl entered) fun _ c₅ held => ?_
    refine Reads.bind (leads.statement held (on _)) fun body r₆ c₆ held => ?_
    refine reads_check (.run (Q := fun _ c' =>
      At ok _ (r.pos + 1) (.node body :: .value cond :: .token r.current.loc :: items) r₆ c')
      (a := ()) rfl (held.nest c₆.loops (c₆.switches - 1))) fun _ c₇ held => ?_
    exact reads_spanFrom (ends held.switching)
  next kind =>
    refine held.reads_advance (by simp [kind]) fun r₁ _ _ held => ?_
    refine Reads.bind ((expressionLeads ok depth).conditionalExpression held (on _))
      fun value r₂ c₂ held => ?_
    refine held.reads_want (by decide) fun r₃ c₃ held _ => ?_
    refine Reads.bind (leads.statement (held.pop rfl) (on _)) fun body r₄ c₄ held => ?_
    exact reads_spanFrom (ends (held.caseLabel near))
  next kind =>
    refine held.reads_advance (by simp [kind]) fun r₁ _ _ held =>
      held.reads_want (by decide) fun r₂ c₂ held _ => ?_
    refine Reads.bind (leads.statement (held.pop rfl) (on _)) fun body r₃ c₃ held => ?_
    exact reads_spanFrom (ends (held.defaultLabel near))
  next kind =>
    refine held.reads_advance (by simp [kind]) fun r₁ _ _ held => reads_current ?_
    have mem := held.current_mem
    refine held.reads_expect (by decide) (fun r₂ name _ held => ?_) fun r₂ c₂ held error =>
      reads_pure ((At.giveUp [] [_] held error).lower (Nat.le_succ _))
    refine (held.pop rfl).reads_want (by decide) fun r₃ c₃ held _ => reads_spanFrom (ends ?_)
    exact ((held.pop rfl).jump near (held.stored _ mem name)).mono fun n c held =>
      held.lower (Nat.le_succ _)
  next kind =>
    refine held.reads_advance (by simp [kind]) fun r₁ _ _ held => reads_is ?_
    refine Reads.optional (P := fun value r' c' => At ok (σ.enter .statement r.pos) (r.pos + 1)
      (written true (!(r₁.current.kind == .semicolon)) value ++ .token r.current.loc :: items)
      r' c') (fun on' next => ?_) (fun off => ?_) fun value r₂ c₂ held => ?_
    · refine Reads.bind ((expressionLeads ok depth).expression held (on _)) fun n r c held =>
        next n r c ?_
      rw [on']
      exact held
    · rw [off]
      exact held
    · refine held.reads_want (by decide) fun r₃ c₃ held _ => ?_
      exact reads_spanFrom (ends ((held.pop rfl).returning near))
  next kind =>
    refine held.reads_advance (by simp [kind]) fun r₁ _ _ held =>
      held.reads_want (by decide) fun r₂ c₂ held _ => ?_
    exact reads_spanFrom (ends ((held.pop rfl).breaking near))
  next kind =>
    refine held.reads_advance (by simp [kind]) fun r₁ _ _ held =>
      held.reads_want (by decide) fun r₂ c₂ held _ => ?_
    exact reads_spanFrom (ends ((held.pop rfl).continuing near))
  next =>
    refine reads_peek (.ite (fun label => ?_) fun _ => ?_)
    · simp only [Bool.and_eq_true, beq_iff_eq] at label
      have more : r.current.kind ≠ .endOfInput := by simp [label.1]
      have stored {r' : Reader} {c' : Checker} {p : Nat} {more : List Pending}
        (later : At ok (σ.enter .statement r.pos) p more r' c') :=
        later.stored r.current held.current_mem label.1
      rw [held.peek_kind more] at label
      have passed := held.advance more
      refine Reads.bind (P := fun _ r' c' => r' = r.advanced ∧ c' = c) (reads_modify ⟨rfl, rfl⟩) ?_
      rintro _ _ _ ⟨rfl, rfl⟩
      refine passed.reads_advance (by simp [label.2]) fun r₂ _ _ held => ?_
      refine Reads.bind (leads.statement ((held.pop rfl).lower (Nat.le_succ _)) (on _))
        fun body r₃ c₃ held => ?_
      exact reads_spanFrom (ends (held.labelled near (stored held)))
    · refine Reads.bind ((expressionLeads ok depth).expression held
        (allowed.down (le_refl _) (by decide))) fun value r₁ c₁ held => ?_
      exact held.reads_want (by decide) fun r₂ c₂ held _ => reads_pure (held.pop rfl).weaken

end StatementLeads

/-- The rules of statements, however deep they nest. -/
theorem statementLeads (ok : Fault → Prop) (depth : Nat) : StatementLeads ok depth := by
  induction depth with
  | zero =>
    exact {
      statement := leads_endless rfl
      loopBody := leads_endless rfl
      forStatement := fun _ => leads_endless rfl
      scopedBlock := fun _ _ _ _ _ held ready _ => reads_throw (ready.endless held.inside)
      blockBody := fun _ _ _ _ _ held ready _ => reads_throw (ready.endless held.inside)
      blockItems := leads_endless rfl }
  | succ depth leads =>
    exact {
      statement := leads.statement_succ
      loopBody := leads.loopBody_succ
      forStatement := leads.forStatement_succ
      scopedBlock := leads.scopedBlock_succ
      blockBody := leads.blockBody_succ
      blockItems := leads.blockItems_succ }

end Grammar

end BilingualC
