import Mathlib
import BilingualC.Proofs.Checker.Declaration
import BilingualC.Proofs.Checker.Library
import BilingualC.Proofs.Grammar.Claims

/-!
# What grammar rules of expressions do

Every rule of expressions leaves one expression on top of the trees that wait, or takes the operand
that it is given and leaves one in its place (`Grammar.ExpressionRules`).
-/

namespace BilingualC

namespace Grammar

open Checker Rose

/-- What the rules of expressions do when they may nest so deep. -/
structure ExpressionRules (depth : Nat) : Prop where
  expression : Does (.slots []) (expression depth) fun n => .slots [.expr n]
  expressionTail : ∀ left, Does (.slots [.expr left]) (expressionTail depth left) fun n =>
    .slots [.expr n]
  assignmentExpression : Does (.slots []) (assignmentExpression depth) fun n => .slots [.expr n]
  conditionalExpression : Does (.slots []) (conditionalExpression depth) fun n => .slots [.expr n]
  binaryExpression : ∀ least, Does (.slots []) (binaryExpression depth least) fun n =>
    .slots [.expr n]
  binaryTail : ∀ least left, Does (.slots [.expr left]) (binaryTail depth least left) fun n =>
    .slots [.expr n]
  unaryExpression : Does (.slots []) (unaryExpression depth) fun n => .slots [.expr n]
  postfixExpression : Does (.slots []) (postfixExpression depth) fun n => .slots [.expr n]
  postfixTail : ∀ operand, Does (.slots [.expr operand]) (postfixTail depth operand) fun n =>
    .slots [.expr n]
  primaryExpression : Does (.slots []) (primaryExpression depth) fun n => .slots [.expr n]
  arguments : Does (.slots []) (arguments depth) fun ns => .slots (exprs ns)
  argumentList : Does (.slots []) (argumentList depth) fun ns => .slots (exprs ns)

/-- The operators that tokens stand for are listed. -/
theorem binaryOp_listed {kind : TokenKind} {op : BinaryOp} {precedence : Nat}
    (found : binaryOp? kind = some (op, precedence)) (m : Int) : op ≠ .unlisted m := by
  rintro rfl
  cases kind <;> simp [binaryOp?] at found

theorem assignOp_listed {kind : TokenKind} {op : BinaryOp} (found : assignOp? kind = some op)
    (m : Int) : op ≠ .unlisted m := by
  rintro rfl
  cases kind <;> simp [assignOp?] at found

theorem unaryOp_listed {kind : TokenKind} {op : UnaryOp} (found : unaryOp? kind = some op)
    (m : Int) : op ≠ .unlisted m := by
  rintro rfl
  cases kind <;> simp [unaryOp?] at found

namespace ExpressionRules

variable {depth : Nat} (rules : ExpressionRules depth)

theorem binary {op : BinaryOp} (listed : ∀ m, op ≠ .unlisted m) (l r : Handle) (loc : Location) :
    Does (.slots [.expr r, .expr l]) (liftM (Checker.binary op l r loc)) fun n =>
    .slots [.expr n] :=
  .effect fun run => of_run (binary_spec op l r loc) run listed

theorem unary {op : UnaryOp} (listed : ∀ m, op ≠ .unlisted m) (n : Handle) (loc : Location) :
    Does (.slots [.expr n]) (liftM (Checker.unary op n loc)) fun n => .slots [.expr n] :=
  .effect fun run => of_run (unary_spec op n loc) run listed

/-- A library function that is found is listed. -/
theorem builtin (slots : List Slot) (spelling : Int) :
    Does (.slots slots) (liftM (Checker.builtin? spelling)) fun b =>
    .known (fun _ => ∀ x ∈ b, x.isListed = true) slots := by
  refine .leads fun run => ?_
  obtain ⟨rfl, listed⟩ := of_run (builtin_spec spelling) run
  exact .learn fun w trees stands _ b found => listed b found stands.tables

include rules

theorem expression_succ : Does (.slots []) (Grammar.expression (depth + 1)) fun n =>
    .slots [.expr n] :=
  .within _ (.bind rules.assignmentExpression rules.expressionTail)

theorem expressionTail_succ (left : Handle) :
    Does (.slots [.expr left]) (Grammar.expressionTail (depth + 1) left) fun n =>
    .slots [.expr n] := by
  refine .within _ (.bind .current fun tok => .bind (.accept _) fun found =>
    .ite (fun _ => .pure rfl) fun _ => ?_)
  refine .bind (rules.assignmentExpression.below fun _ => [.expr left]) fun right => ?_
  exact .bind (binary (by simp) left right _) rules.expressionTail

theorem assignmentExpression_succ :
    Does (.slots []) (Grammar.assignmentExpression (depth + 1)) fun n => .slots [.expr n] := by
  refine .within _ (.bind rules.conditionalExpression fun left => .bind .current fun tok => ?_)
  split
  next => exact .pure rfl
  next op found =>
    refine .bind .advance fun _ =>
      .bind (rules.assignmentExpression.below fun _ => [.expr left]) fun right => ?_
    exact binary (assignOp_listed found) left right _

theorem conditionalExpression_succ :
    Does (.slots []) (Grammar.conditionalExpression (depth + 1)) fun n => .slots [.expr n] := by
  refine .within _ (.bind (rules.binaryExpression 0) fun cond => .bind .current fun tok =>
    .bind (.accept _) fun found =>
    .ite (fun _ => .pure rfl) fun _ => ?_)
  refine .bind (rules.expression.below fun _ => [.expr cond]) fun yes =>
    .bind (.want _ _) fun _ => ?_
  refine .bind (rules.conditionalExpression.below fun _ => [.expr yes, .expr cond]) fun no => ?_
  exact .effect fun run => (of_run (ternary_spec cond yes no _) run :)

theorem binaryExpression_succ (least : Nat) :
    Does (.slots []) (Grammar.binaryExpression (depth + 1) least) fun n => .slots [.expr n] :=
  .within _ (.bind rules.unaryExpression (rules.binaryTail least))

theorem binaryTail_succ (least : Nat) (left : Handle) :
    Does (.slots [.expr left]) (Grammar.binaryTail (depth + 1) least left) fun n =>
    .slots [.expr n] := by
  refine .within _ (.bind .current fun tok => ?_)
  split
  next => exact .pure rfl
  next op precedence found =>
    refine .ite (fun _ => .pure rfl) fun _ => .bind .advance fun _ => ?_
    refine .bind ((rules.binaryExpression _).below fun _ => [.expr left]) fun right => ?_
    exact .bind (binary (binaryOp_listed found) left right _) (rules.binaryTail least)

theorem unaryExpression_succ : Does (.slots []) (Grammar.unaryExpression (depth + 1)) fun n =>
    .slots [.expr n] := by
  refine .within _ (.bind .current fun tok => ?_)
  split
  next op found =>
    exact .bind .advance fun _ => .bind rules.unaryExpression fun operand =>
      unary (unaryOp_listed found) operand _
  next =>
    exact .bind (.accept _) fun plus => .ite (fun _ => rules.unaryExpression) fun _ =>
      rules.postfixExpression

theorem postfixExpression_succ : Does (.slots []) (Grammar.postfixExpression (depth + 1)) fun n =>
    .slots [.expr n] :=
  .within _ (.bind rules.primaryExpression rules.postfixTail)

theorem postfixTail_succ (operand : Handle) :
    Does (.slots [.expr operand]) (Grammar.postfixTail (depth + 1) operand) fun n =>
    .slots [.expr n] := by
  have selected (tok name : Token) : Does (.slots [.expr operand])
      (do
        let selected ← Checker.member operand name.spelling (tok.kind == .arrow) tok.loc name.loc
        Grammar.postfixTail depth selected) fun n => .slots [.expr n] :=
    .bind (.effect fun run => (of_run (member_spec operand _ _ _ _) run :)) rules.postfixTail
  refine .within _ (.bind .current fun tok => ?_)
  split
  next =>
    refine .bind .advance fun _ =>
      .bind (rules.expression.below fun _ => [.expr operand]) fun index => ?_
    refine .bind .current fun closing => .bind (.want _ _) fun _ => ?_
    exact .bind (.effect fun run =>
      (of_run (subscript_spec operand index _ _) run :)) rules.postfixTail
  next =>
    exact .bind .advance fun _ => .bind .current fun name => .expectElse _ _ (selected tok name)
  next =>
    exact .bind .advance fun _ => .bind .current fun name => .expectElse _ _ (selected tok name)
  next => exact .bind .advance fun _ => .bind (unary (by simp) operand _) rules.postfixTail
  next => exact .bind .advance fun _ => .bind (unary (by simp) operand _) rules.postfixTail
  next => exact .pure rfl

theorem primaryExpression_succ : Does (.slots []) (Grammar.primaryExpression (depth + 1)) fun n =>
    .slots [.expr n] := by
  have constant (tok : Token) : Does (.slots []) (do Grammar.advance; Checker.constant tok) fun n =>
    .slots [.expr n] :=
    .bind .advance fun _ => .effect fun run => (of_run (constant_spec tok) run :)
  refine .within _ (.bind .current fun tok => ?_)
  split
  next => exact constant tok
  next => exact constant tok
  next => exact constant tok
  next => exact constant tok
  next =>
    refine .bind .advance fun _ => .bind (.check _) fun call => .ite (fun _ => ?_) fun _ => ?_
    · exact .bind (.effect fun run =>
        (of_run (identifier_spec tok.spelling tok.loc) run :)) fun n =>
        .effect fun run => (of_run (value_spec n) run :)
    · refine .bind .current fun opening => .bind .advance fun _ =>
        .bind rules.arguments fun args => ?_
      refine .bind .current fun closing => .bind (.want _ _) fun _ =>
        .bind (builtin (exprs args) tok.spelling) fun b => ?_
      cases b with
      | some b =>
        refine .leads fun run => ?_
        obtain ⟨dirty, effect⟩ := of_run (library_spec b args _) run
        exact .of_effect dirty fun _ listed => effect (listed b rfl)
      | none =>
        have name :
          Does (.slots (exprs args)) (liftM (Checker.identifier tok.spelling tok.loc)) fun n =>
            .slots (.expr n :: exprs args) :=
          .below (.effect fun run => (of_run (identifier_spec tok.spelling tok.loc) run :)) fun _ =>
            exprs args
        exact .bind name.forget fun callee => .effect fun run =>
          (of_run (call_spec callee args _ _) run :)
  next =>
    exact .bind .advance fun _ => .bind rules.expression fun inner =>
      .bind (.want _ _) fun _ => .pure rfl
  next => exact .bind (.reportMissing _) fun _ => .pure rfl

theorem arguments_succ : Does (.slots []) (Grammar.arguments (depth + 1)) fun ns =>
    .slots (exprs ns) :=
  .within _ (.bind (.check _) fun _ => .ite (fun _ => .pure rfl) fun _ => rules.argumentList)

theorem argumentList_succ : Does (.slots []) (Grammar.argumentList (depth + 1)) fun ns =>
    .slots (exprs ns) := by
  refine .within _ (.bind rules.assignmentExpression fun first => .bind (.accept _) fun _ =>
    .ite (fun _ => ?_) fun _ => .pure rfl)
  refine .bind (rules.argumentList.below fun _ => [.expr first]) fun rest => .pure ?_
  rw [exprs_cons]

end ExpressionRules

/-- The rules of expressions, however deep they nest. -/
theorem expressionRules (depth : Nat) : ExpressionRules depth := by
  induction depth with
  | zero => constructor <;> intros <;> exact .throw _
  | succ depth rules =>
    exact {
      expression := rules.expression_succ
      expressionTail := rules.expressionTail_succ
      assignmentExpression := rules.assignmentExpression_succ
      conditionalExpression := rules.conditionalExpression_succ
      binaryExpression := rules.binaryExpression_succ
      binaryTail := rules.binaryTail_succ
      unaryExpression := rules.unaryExpression_succ
      postfixExpression := rules.postfixExpression_succ
      postfixTail := rules.postfixTail_succ
      primaryExpression := rules.primaryExpression_succ
      arguments := rules.arguments_succ
      argumentList := rules.argumentList_succ }

theorem does_controlExpression (depth : Nat) : Does (.slots []) (controlExpression depth) fun n =>
    .slots [.expr n] := by
  refine .within _ (.bind (.want _ _) fun _ => .bind (expressionRules depth).expression fun n => ?_)
  exact .bind (.effect fun run => (of_run (condition_spec n) run :)) fun cond =>
    .bind (.want _ _) fun _ => .pure rfl

/-! ## Initializers -/

/-- What the rules of initializers do when they may nest so deep. -/
structure InitializerRules (depth : Nat) : Prop where
  initializer : Does (.slots []) (initializer depth) fun n => .slots [.initializer n]
  initializerElements : Does (.slots []) (initializerElements depth) fun ns =>
    .slots (Slot.each IsInitializer ns)

theorem initializerRules (depth : Nat) : InitializerRules depth := by
  induction depth with
  | zero => constructor <;> exact .throw _
  | succ depth rules =>
    constructor
    · refine .within _ (.bind (.check _) fun _ => .ite (fun _ => ?_) fun _ => ?_)
      · exact (expressionRules depth).assignmentExpression.weaken fun n _ =>
          .cons ⟨rfl, fun _ => .expr⟩ .nil
      · refine .bind .current fun opening => .bind .advance fun _ =>
          .bind rules.initializerElements fun elements => ?_
        refine .bind .current fun closing => .bind (.want _ _) fun _ => ?_
        exact .effect fun run => (of_run (initializerList_spec elements _ _) run :)
    · refine .within _ (.bind (.check _) fun _ => .bind (.check _) fun _ =>
        .ite (fun _ => .pure rfl) fun _ => ?_)
      refine .bind rules.initializer fun first => .bind (.accept _) fun _ =>
        .ite (fun _ => ?_) fun _ => .pure rfl
      refine .bind (rules.initializerElements.below fun _ => [.initializer first]) fun rest =>
        .pure ?_
      rw [Slot.each_cons]
      rfl

end Grammar

end BilingualC
