import Mathlib
import BilingualC.Proofs.Grammar.Expression
import BilingualC.Proofs.Reading.Clauses
import BilingualC.Proofs.Reading.Steps

/-!
# Reading expressions

Every rule of expressions leaves one expression on the stack (`Grammar.ExpressionLeads`): it goes on
while there is depth, which is enough for the tokens that are left, and the operators, brackets and
names that it passes lie around the operands that it takes.
-/

namespace BilingualC

open Guarded Pending

variable {ok : Fault → Prop}

namespace Grammar

/-- What the rules of expressions leave when they may nest so deep. -/
structure ExpressionLeads (ok : Fault → Prop) (depth : Nat) : Prop where
  expression : Rule.expression.Leads ok depth (expression depth) [] fun n => [.value n]
  expressionTail : ∀ left, Rule.expressionTail.Leads ok depth (expressionTail depth left)
    [.value left] fun n => [.value n]
  assignmentExpression :
    Rule.assignmentExpression.Leads ok depth (assignmentExpression depth) [] fun n => [.value n]
  conditionalExpression :
    Rule.conditionalExpression.Leads ok depth (conditionalExpression depth) [] fun n => [.value n]
  binaryExpression : ∀ least, Rule.binaryExpression.Leads ok depth (binaryExpression depth least)
    [] fun n => [.value n]
  binaryTail : ∀ least left, Rule.binaryTail.Leads ok depth (binaryTail depth least left)
    [.value left] fun n => [.value n]
  unaryExpression :
    Rule.unaryExpression.Leads ok depth (unaryExpression depth) [] fun n => [.value n]
  postfixExpression :
    Rule.postfixExpression.Leads ok depth (postfixExpression depth) [] fun n => [.value n]
  postfixTail : ∀ operand, Rule.postfixTail.Leads ok depth (postfixTail depth operand)
    [.value operand] fun n => [.value n]
  primaryExpression :
    Rule.primaryExpression.Leads ok depth (primaryExpression depth) [] fun n => [.value n]
  arguments : Rule.arguments.Leads ok depth (arguments depth) [] fun ns => each true ns
  argumentList : Rule.argumentList.Leads ok depth (argumentList depth) [] fun ns => each true ns

/-- A token that stands for something does not end the input. -/
theorem more_of_binaryOp {kind : TokenKind} {out : BinaryOp × Nat}
    (found : binaryOp? kind = some out) : kind ≠ .endOfInput := by
  rintro rfl
  cases found

theorem more_of_assignOp {kind : TokenKind} {op : BinaryOp} (found : assignOp? kind = some op) :
    kind ≠ .endOfInput := by
  rintro rfl
  cases found

theorem more_of_unaryOp {kind : TokenKind} {op : UnaryOp} (found : unaryOp? kind = some op) :
    kind ≠ .endOfInput := by
  rintro rfl
  cases found

/-- The operators in front of an operand. -/
theorem isPostfix_of_unaryOp {kind : TokenKind} {op : UnaryOp} (found : unaryOp? kind = some op) :
    op.isPostfix = false := by
  cases kind <;> simp only [unaryOp?, Option.some.injEq, reduceCtorEq] at found <;>
    subst found <;> rfl

namespace ExpressionLeads

variable {depth : Nat} (leads : ExpressionLeads ok depth)

include leads

theorem expression_succ : Rule.expression.Leads ok (depth + 1) (Grammar.expression (depth + 1))
    [] fun n => [.value n] := by
  refine leads_within fun σ items r c held allowed => ?_
  refine Reads.bind (leads.assignmentExpression held (allowed.down (le_refl _) (by decide)))
    fun left r c held => ?_
  exact leads.expressionTail left held (allowed.down (le_refl _) (by decide))

theorem expressionTail_succ (left : Handle) : Rule.expressionTail.Leads ok (depth + 1)
    (Grammar.expressionTail (depth + 1) left) [.value left] fun n => [.value n] := by
  refine leads_within fun σ items r c held allowed => ?_
  have near := held.near
  have ready (rule : Rule) := allowed.on (le_refl _) held.inside rule
  refine reads_current (held.reads_accept (by decide) (fun r _ _ _ held => ?_) fun _ =>
    reads_pure held)
  refine Reads.bind (leads.assignmentExpression held (ready _)) fun right r c held => ?_
  refine reads_check (held.binary nofun near) fun n c held => ?_
  exact (leads.expressionTail n held (ready _)).mono fun _ _ _ held => held.lower (Nat.le_succ _)

theorem assignmentExpression_succ : Rule.assignmentExpression.Leads ok (depth + 1)
    (Grammar.assignmentExpression (depth + 1)) [] fun n => [.value n] := by
  refine leads_within fun σ items r c held allowed => ?_
  have ready (rule : Rule) := allowed.on (le_refl _) held.inside rule
  refine Reads.bind (leads.conditionalExpression held (allowed.down (le_refl _) (by decide)))
    fun left r c held => ?_
  refine reads_current ?_
  split
  next => exact reads_pure held
  next op found =>
    have near := held.near
    refine held.reads_advance (more_of_assignOp found) fun r _ _ held => ?_
    refine Reads.bind (leads.assignmentExpression held (ready _)) fun right r c held =>
      reads_lift ?_
    exact (held.binary (assignOp_listed found) near).mono fun _ _ held => held.lower (Nat.le_succ _)

theorem conditionalExpression_succ : Rule.conditionalExpression.Leads ok (depth + 1)
    (Grammar.conditionalExpression (depth + 1)) [] fun n => [.value n] := by
  refine leads_within fun σ items r c held allowed => ?_
  have ready (rule : Rule) := allowed.on (le_refl _) held.inside rule
  refine Reads.bind (leads.binaryExpression 0 held (allowed.down (le_refl _) (by decide)))
    fun cond r c held => ?_
  have near := held.near
  refine reads_current (held.reads_accept (by decide) (fun r _ _ _ held => ?_) fun _ =>
    reads_pure held)
  refine Reads.bind (leads.expression held (ready _)) fun yes r c held => ?_
  refine held.reads_want (by decide) fun r c held _ => ?_
  refine Reads.bind (leads.conditionalExpression held (ready _)) fun no r c held => reads_lift ?_
  exact (held.ternary near).mono fun _ _ held => held.lower (Nat.le_succ _)

theorem binaryExpression_succ (least : Nat) : Rule.binaryExpression.Leads ok (depth + 1)
    (Grammar.binaryExpression (depth + 1) least) [] fun n => [.value n] := by
  refine leads_within fun σ items r c held allowed => ?_
  refine Reads.bind (leads.unaryExpression held (allowed.down (le_refl _) (by decide)))
    fun left r c held => ?_
  exact leads.binaryTail least left held (allowed.down (le_refl _) (by decide))

theorem binaryTail_succ (least : Nat) (left : Handle) : Rule.binaryTail.Leads ok (depth + 1)
    (Grammar.binaryTail (depth + 1) least left) [.value left] fun n => [.value n] := by
  refine leads_within fun σ items r c held allowed => reads_current ?_
  have near := held.near
  have ready (rule : Rule) := allowed.on (le_refl _) held.inside rule
  split
  next => exact reads_pure held
  next op precedence found =>
    refine .ite (fun _ => reads_pure held) fun _ =>
      held.reads_advance (more_of_binaryOp found) fun r _ _ held => ?_
    refine Reads.bind (leads.binaryExpression _ held (ready _)) fun right r c held => ?_
    refine reads_check (held.binary (binaryOp_listed found) near) fun n c held => ?_
    exact (leads.binaryTail least n held (ready _)).mono fun _ _ _ held =>
      held.lower (Nat.le_succ _)

theorem unaryExpression_succ :
    Rule.unaryExpression.Leads ok (depth + 1) (Grammar.unaryExpression (depth + 1)) [] fun n =>
    [.value n] := by
  refine leads_within fun σ items r c held allowed => reads_current ?_
  have near := held.near
  have ready (rule : Rule) := allowed.on (le_refl _) held.inside rule
  split
  next op found =>
    refine held.reads_advance (more_of_unaryOp found) fun r _ _ held => ?_
    refine Reads.bind (leads.unaryExpression held (ready _)) fun operand r c held => reads_lift ?_
    exact (held.before (unaryOp_listed found) (isPostfix_of_unaryOp found) near).mono
      fun _ _ held => held.lower (Nat.le_succ _)
  next =>
    refine held.reads_accept (by decide) (fun r _ _ _ held => ?_) fun _ => ?_
    · exact (leads.unaryExpression (held.pop rfl) (ready _)).mono fun _ _ _ held =>
        held.lower (Nat.le_succ _)
    · exact leads.postfixExpression held (allowed.down (le_refl _) (by decide))

theorem postfixExpression_succ :
    Rule.postfixExpression.Leads ok (depth + 1) (Grammar.postfixExpression (depth + 1)) [] fun n =>
    [.value n] := by
  refine leads_within fun σ items r c held allowed => ?_
  refine Reads.bind (leads.primaryExpression held (allowed.down (le_refl _) (by decide)))
    fun operand r c held => ?_
  exact leads.postfixTail operand held (allowed.down (le_refl _) (by decide))

theorem postfixTail_succ (operand : Handle) : Rule.postfixTail.Leads ok (depth + 1)
    (Grammar.postfixTail (depth + 1) operand) [.value operand] fun n => [.value n] := by
  refine leads_within fun σ items r c held allowed => reads_current ?_
  have near := held.near
  have ready (rule : Rule) := allowed.on (le_refl _) held.inside rule
  have tail {n : Handle} {r' : Reader} {c' : Checker}
      (held : At ok (σ.enter .postfixTail r.pos) (r.pos + 1) (.value n :: items) r' c') :
      Reads ok (Grammar.postfixTail depth n) r' c' fun n r' c' =>
      At ok (σ.enter .postfixTail r.pos) r.pos (.value n :: items) r' c' :=
    (leads.postfixTail n held (ready _)).mono fun _ _ _ held => held.lower (Nat.le_succ _)
  -- The selection of a field after its operator.
  have selected (more : r.current.kind ≠ .endOfInput) (arrow : Bool) : Reads ok
      (do
        Grammar.advance
        let name ← current
        if !(← expect .identifier "member name") then return .broken
        Grammar.postfixTail depth
          (← Checker.member operand name.spelling arrow r.current.loc name.loc))
      r c fun n r' c' => At ok (σ.enter .postfixTail r.pos) r.pos (.value n :: items) r' c' := by
    refine held.reads_advance more fun r₁ _ _ held => reads_current ?_
    have nameNear := held.near
    have ends := held.names_current
    refine held.reads_expect (by decide) (fun r₂ kind _ held => ?_) fun r₂ c₂ held error =>
      reads_pure ?_
    · exact reads_check (held.lower (Nat.le_succ _) |>.member _ arrow (ends kind)
        (or_and near nameNear)) fun n c held =>
        tail held
    · exact (At.giveUp [] [_, _] held error).lower (Nat.le_succ _)
  split
  next kind =>
    refine held.reads_advance (by simp [kind]) fun r _ _ held => ?_
    refine Reads.bind (leads.expression held (ready _)) fun index r c held => reads_current ?_
    have closingNear := held.near
    refine held.reads_want (by decide) fun r c held _ => ?_
    exact reads_check (held.subscript (or_and near closingNear)) fun n c held => tail held
  next kind => exact selected (by simp [kind]) (r.current.kind == .arrow)
  next kind => exact selected (by simp [kind]) (r.current.kind == .arrow)
  next kind =>
    refine held.reads_advance (by simp [kind]) fun r _ _ held => ?_
    exact reads_check (held.behind nofun rfl near) fun n c held => tail held
  next kind =>
    refine held.reads_advance (by simp [kind]) fun r _ _ held => ?_
    exact reads_check (held.behind nofun rfl near) fun n c held => tail held
  next => exact reads_pure held

theorem primaryExpression_succ :
    Rule.primaryExpression.Leads ok (depth + 1) (Grammar.primaryExpression (depth + 1)) [] fun n =>
    [.value n] := by
  refine leads_within fun σ items r c held allowed => reads_current ?_
  have near := held.near
  have ready (rule : Rule) := allowed.on (le_refl _) held.inside rule
  -- the three kinds of constants are read alike
  have constant (more : r.current.kind ≠ .endOfInput) : Reads ok
      (do
        Grammar.advance
        Checker.constant r.current)
      r c fun n r' c' =>
        At ok (σ.enter .primaryExpression r.pos) r.pos (.value n :: items) r' c' := by
    refine held.reads_advance more fun r _ _ held => reads_lift ?_
    exact (held.constant near).mono fun _ _ held => held.lower (Nat.le_succ _)
  split
  next kind => exact constant (by simp [kind])
  next kind => exact constant (by simp [kind])
  next kind => exact constant (by simp [kind])
  next kind => exact constant (by simp [kind])
  next kind =>
    refine held.reads_advance (by simp [kind]) fun r₁ _ _ held =>
      reads_is (.ite (fun _ => ?_) fun call => ?_)
    · refine reads_check (held.identifier [] _ near) fun n c held => reads_lift ?_
      exact held.value.mono fun _ _ held => held.lower (Nat.le_succ _)
    -- the arguments are read before it is decided if the name is one of the library
    · have openingNear := held.near
      have opening : r₁.current.kind = .leftParen := by simpa using call
      refine reads_current (held.reads_advance (by simp [opening]) fun r₂ _ _ held => ?_)
      refine Reads.bind (leads.arguments (held.lower (Nat.le_succ _)) (ready _))
        fun args r₃ c₃ held => reads_current ?_
      have closingNear := held.near
      refine held.reads_want (by decide) fun r₄ c₄ held _ =>
        reads_check (held.builtin _) fun b c' ⟨same, listed⟩ => ?_
      subst same
      cases b with
      | some b =>
        exact reads_lift ((held.library (listed b rfl) (or_and near closingNear)).mono
          fun _ _ held => held.lower (Nat.le_succ _))
      | none =>
        have above : At ok (σ.enter .primaryExpression r.pos) (r.pos + 1)
            ((.token r₃.current.loc :: (each true args ++ [Pending.token r₁.current.loc])) ++
            (.token r.current.loc :: items)) r₄ c' := by
          simpa using held
        refine reads_check (above.identifier _ _ near) fun callee c held => reads_lift ?_
        have held : At ok (σ.enter .primaryExpression r.pos) (r.pos + 1) (.token r₃.current.loc ::
            (each true args ++ .token r₁.current.loc :: .value callee :: items)) r₄ c := by
          simpa using held
        exact (held.call (or_and openingNear closingNear)).mono fun _ _ held =>
          held.lower (Nat.le_succ _)
  next kind =>
    refine held.reads_advance (by simp [kind]) fun r _ _ held => ?_
    refine Reads.bind (leads.expression held (ready _)) fun inner r c held => ?_
    refine held.reads_want (by decide) fun r c held _ => reads_pure ?_
    exact (At.forget [_] (held.pop rfl) rfl).lower (Nat.le_succ _)
  next =>
    exact held.reads_reportMissing fun j held error => reads_pure (At.giveUp [] [] held error)

theorem arguments_succ : Rule.arguments.Leads ok (depth + 1) (Grammar.arguments (depth + 1))
    [] fun ns => each true ns := by
  refine leads_within fun σ items r c held allowed =>
    reads_is (.ite (fun _ => reads_pure held) fun _ => ?_)
  exact leads.argumentList held (allowed.down (le_refl _) (by decide))

theorem argumentList_succ : Rule.argumentList.Leads ok (depth + 1)
    (Grammar.argumentList (depth + 1)) [] fun ns => each true ns := by
  refine leads_within fun σ items r c held allowed => ?_
  have ready (rule : Rule) := allowed.on (le_refl _) held.inside rule
  refine Reads.bind (leads.assignmentExpression held (allowed.down (le_refl _) (by decide)))
    fun first r c held => ?_
  refine held.reads_accept (by decide) (fun r _ _ _ held => ?_) fun _ => reads_pure held
  refine Reads.bind (leads.argumentList (held.pop rfl) (ready _)) fun rest r c held => reads_pure ?_
  rw [each_cons]
  exact held.lower (Nat.le_succ _)

end ExpressionLeads

/-- The rules of expressions, however deep they nest. -/
theorem expressionLeads (ok : Fault → Prop) (depth : Nat) : ExpressionLeads ok depth := by
  induction depth with
  | zero => constructor <;> intros <;> exact leads_endless rfl
  | succ depth leads =>
    exact {
      expression := leads.expression_succ
      expressionTail := leads.expressionTail_succ
      assignmentExpression := leads.assignmentExpression_succ
      conditionalExpression := leads.conditionalExpression_succ
      binaryExpression := leads.binaryExpression_succ
      binaryTail := leads.binaryTail_succ
      unaryExpression := leads.unaryExpression_succ
      postfixExpression := leads.postfixExpression_succ
      postfixTail := leads.postfixTail_succ
      primaryExpression := leads.primaryExpression_succ
      arguments := leads.arguments_succ
      argumentList := leads.argumentList_succ }

theorem leads_controlExpression (ok : Fault → Prop) (depth : Nat) :
    Rule.controlExpression.Leads ok depth (controlExpression depth) [] fun n => [.value n] := by
  refine leads_within fun σ items r c held allowed =>
    held.reads_want (by decide) fun r c held _ => ?_
  have ready : MayStart ok _ .expression _ _ := allowed.down (Nat.le_succ _) (by decide)
  refine Reads.bind ((expressionLeads ok depth).expression (held.pop rfl) ready) fun n r c held =>
    ?_
  refine reads_check held.condition fun cond c held =>
    held.reads_want (by decide) fun r c held _ => ?_
  exact reads_pure (held.pop rfl)

/-! ## Initializers -/

/-- What the rules of initializers leave when they may nest so deep. -/
structure InitializerLeads (ok : Fault → Prop) (depth : Nat) : Prop where
  initializer : Rule.initializer.Leads ok depth (initializer depth) [] fun n => [.value n]
  initializerElements :
    Rule.initializerElements.Leads ok depth (initializerElements depth) [] fun ns => each true ns

theorem initializerLeads (ok : Fault → Prop) (depth : Nat) : InitializerLeads ok depth := by
  induction depth with
  | zero => constructor <;> exact leads_endless rfl
  | succ depth leads =>
    constructor
    · refine leads_within fun σ items r c held allowed =>
        reads_is (.ite (fun _ => ?_) fun opened => ?_)
      · exact (expressionLeads ok depth).assignmentExpression held
          (allowed.down (le_refl _) (by decide))
      have near := held.near
      have opening : r.current.kind = .leftBrace := by simpa using opened
      have ready (rule : Rule) := allowed.on (le_refl _) held.inside rule
      refine reads_current (held.reads_advance (by simp [opening]) fun r₁ _ _ held => ?_)
      refine Reads.bind (leads.initializerElements held (ready _)) fun elements r c held =>
        reads_current ?_
      have closingNear := held.near
      refine held.reads_want (by decide) fun r c held _ => reads_lift ?_
      exact (held.list (or_and near closingNear)).mono fun _ _ held => held.lower (Nat.le_succ _)
    · refine leads_within fun σ items r c held allowed =>
        reads_is (reads_is (.ite (fun _ => reads_pure held) fun _ => ?_))
      have ready (rule : Rule) := allowed.on (le_refl _) held.inside rule
      refine Reads.bind (leads.initializer held (allowed.down (le_refl _) (by decide)))
        fun first r c held => ?_
      refine held.reads_accept (by decide) (fun r _ _ _ held => ?_) fun _ => reads_pure held
      refine Reads.bind (leads.initializerElements (held.pop rfl) (ready _)) fun rest r c held =>
        reads_pure ?_
      rw [each_cons]
      exact held.lower (Nat.le_succ _)

end Grammar

end BilingualC
