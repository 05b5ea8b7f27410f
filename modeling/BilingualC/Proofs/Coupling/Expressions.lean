import Mathlib
import BilingualC.Proofs.Coupling.Runs

/-!
# Expressions side by side

Two runs read expressions in step if the checker builds them in step (`Coupling.ExpressionSteps`).
Every rule leaves one node on each side, on top of the nodes that were held before.
-/

namespace BilingualC

open Grammar

namespace Coupling

/-- Pairs of nodes that wait, the last one on top. -/
def pairs (ns ms : List Handle) : List (Handle × Handle) := (ns.zip ms).reverse

theorem pairs_cons (n m : Handle) (ns ms : List Handle) (held : List (Handle × Handle)) :
    pairs (n :: ns) (m :: ms) ++ held = pairs ns ms ++ (n, m) :: held := by simp [pairs]

/-- Lists of nodes that wait. -/
def lists (κ : Coupling) (ns ms : List Handle) (held : List (Handle × Handle)) : Claim :=
  κ.knows (ns.length = ms.length) (pairs ns ms ++ held)

/-- The steps of the checker for expressions go side by side. -/
structure ExpressionSteps (κ : Coupling) : Prop where
  report : ∀ {held l l'} (d : Diagnostic), κ.place l l' →
    κ.Steps (κ.holds held) (Checker.report l d) (Checker.report l' d) fun _ _ => κ.holds held
  namedType : ∀ {held} (spelling : Int), κ.Steps (κ.holds held) (Checker.namedType? spelling)
    (Checker.namedType? spelling) fun a b => κ.knows (a = b) held
  builtin : ∀ {held} (spelling : Int), κ.Steps (κ.holds held) (Checker.builtin? spelling)
    (Checker.builtin? spelling) fun a b => κ.knows (a = b) held
  identifier : ∀ {held l l'} (spelling : Int), κ.place l l' →
    κ.Steps (κ.holds held) (Checker.identifier spelling l)
    (Checker.identifier spelling l') fun n m => κ.holds ((n, m) :: held)
  value : ∀ {held} (n m : Handle), κ.Steps (κ.holds ((n, m) :: held)) (Checker.value n)
    (Checker.value m) fun n m => κ.holds ((n, m) :: held)
  constant : ∀ {held t u}, t.Alike κ.place u →
    κ.Steps (κ.holds held) (Checker.constant t) (Checker.constant u) fun n m =>
    κ.holds ((n, m) :: held)
  subscript : ∀ {held opening opening' close close'} (base base' index index' : Handle),
    κ.place opening opening' → κ.place close close' →
    κ.Steps (κ.holds ((index, index') :: (base, base') :: held))
    (Checker.subscript base index opening close)
    (Checker.subscript base' index' opening' close') fun n m => κ.holds ((n, m) :: held)
  call : ∀ {held opening opening' close close'} (callee callee' : Handle) (args args' :
    List Handle), args.length = args'.length → κ.place opening opening' →
    κ.place close close' → κ.Steps (κ.holds ((callee, callee') :: (pairs args args' ++ held)))
    (Checker.call callee args opening close) (Checker.call callee' args' opening' close') fun n m =>
    κ.holds ((n, m) :: held)
  library : ∀ {held l l'} (b : Builtin) (args args' : List Handle), args.length = args'.length →
    κ.place l l' → κ.Steps (κ.holds (pairs args args' ++ held)) (Checker.library b args l)
    (Checker.library b args' l') fun n m =>
      κ.holds ((n, m) :: held)
  member : ∀ {held op op' l l'} (base base' : Handle) (name : Int) (arrow : Bool), κ.place op op' →
    κ.place l l' → κ.Steps (κ.holds ((base, base') :: held)) (Checker.member base name arrow op l)
    (Checker.member base' name arrow op' l') fun n m =>
      κ.holds ((n, m) :: held)
  unary : ∀ {held l l'} (op : UnaryOp) (operand operand' : Handle), κ.place l l' →
    κ.Steps (κ.holds ((operand, operand') :: held)) (Checker.unary op operand l)
    (Checker.unary op operand' l') fun n m =>
      κ.holds ((n, m) :: held)
  binary : ∀ {held l l'} (op : BinaryOp) (left left' right right' : Handle), κ.place l l' →
    κ.Steps (κ.holds ((right, right') :: (left, left') :: held)) (Checker.binary op left right l)
    (Checker.binary op left' right' l') fun n m => κ.holds ((n, m) :: held)
  ternary : ∀ {held l l'} (cond cond' yes yes' no no' : Handle), κ.place l l' →
    κ.Steps (κ.holds ((no, no') :: (yes, yes') :: (cond, cond') :: held))
    (Checker.ternary cond yes no l) (Checker.ternary cond' yes' no' l') fun n m =>
    κ.holds ((n, m) :: held)
  initializerList : ∀ {held opening opening' close close'} (elements elements' : List Handle),
    elements.length = elements'.length → κ.place opening opening' → κ.place close close' → κ.Steps
    (κ.holds (pairs elements elements' ++ held)) (Checker.initializerList elements opening close)
    (Checker.initializerList elements' opening' close') fun n m =>
        κ.holds ((n, m) :: held)
  condition : ∀ {held} (n m : Handle), κ.Steps (κ.holds ((n, m) :: held)) (Checker.condition n)
    (Checker.condition m) fun n m => κ.holds ((n, m) :: held)

variable {κ : Coupling} {α β : Type}

/-! ## Tokens -/

section Tokens

variable (steps : κ.ExpressionSteps) {held : List (Handle × Handle)}

include steps

theorem reportMissing (what : String) :
    κ.Reads (κ.holds held) (Grammar.reportMissing what) (Grammar.reportMissing what) fun _ _ =>
    κ.holds held where
  meets r s c d beside known := by
    have run (o : Reader) (e : Checker) :
      Grammar.reportMissing what o e = if o.recovering = true then .ok (((), o), e) else
        Checker.report o.current.loc (.expected what) e >>= fun p =>
          .ok (((), { o with recovering := true }), p.2) := by
      unfold Grammar.reportMissing
      rw [run_bind_eq]
      show (if o.recovering = true then _ else _ : Parse Unit) o e = _
      split
      · rfl
      · show (Checker.report _ _ e >>= fun p => Except.ok ((p.1, o), p.2)) >>= _ = _
        cases Checker.report o.current.loc (.expected what) e <;> rfl
    rw [run, run, beside.recovering]
    split
    · exact .inl ⟨beside, known⟩
    · refine ((steps.report _ beside.current.loc).meets c d known).bind (fun _ => κ.blind)
        (fun p q after => .inl ⟨beside.recover true, after⟩) ?_
      rintro q _ ⟨⟩ lost
      exact lost
  stays s d _ s' d' run lost := by
    obtain ⟨_, _, _, got, run⟩ := run_bind.mp run
    cases got
    split at run
    · cases run
      exact lost
    · obtain ⟨_, _, _, reported, run⟩ := run_bind.mp run
      obtain ⟨rfl, reported⟩ := run_lift.mp reported
      cases run
      have reports (l : Location) : κ.Steps (κ.holds []) (Checker.report l (.expected what))
          (Checker.report l (.expected what)) fun _ _ => κ.holds [] :=
        steps.report (.expected what) (κ.refl l)
      exact (reports _).stays d _ d' reported lost

theorem expect (kind : TokenKind) (what : String) :
    κ.Reads (κ.holds held) (Grammar.expect kind what) (Grammar.expect kind what) fun a b =>
    κ.knows (a = b) held := by
  refine .same (.accept kind) fun found =>
    .ite (fun _ => .pure fun _ _ known => ⟨rfl, known⟩) fun _ => ?_
  exact .bind (reportMissing steps what) fun _ _ => .pure fun _ _ known => ⟨rfl, known⟩

theorem want (kind : TokenKind) (what : String) :
    κ.Reads (κ.holds held) (Grammar.want kind what) (Grammar.want kind what) fun _ _ =>
    κ.holds held :=
  .same (expect steps kind what) fun _ => .pure fun _ _ => id

/-- A rule that ends when a token is missing. -/
theorem expectElse (kind : TokenKind) (what : String) {m n : Parse α} {a b : α} {Q : α → α → Claim}
    (missing : ∀ c d, κ.holds held c d → Q a b c d) (rest : κ.Reads (κ.holds held) m n Q) :
    κ.Reads (κ.holds held) (do if !(← Grammar.expect kind what) then return a else m)
      (do if !(← Grammar.expect kind what) then return b else n) Q :=
  .same (expect steps kind what) fun _ => .ite (fun _ => .pure missing) fun _ => rest

end Tokens

/-- A list of nodes starts with one more. -/
theorem lists_cons {P : Claim} {n m : Handle}
    {held : List (Handle × Handle)} {x y : Parse (List Handle)}
    (reads : κ.Reads P x y fun ns ms => κ.lists ns ms ((n, m) :: held)) :
    κ.Reads P (do return n :: (← x)) (do return m :: (← y)) fun ns ms => κ.lists ns ms held :=
  .bind reads fun ns ms => .pure fun c d ⟨length, known⟩ => ⟨by simp [length], by rwa [pairs_cons]⟩

theorem lists_one {n m : Handle} {held : List (Handle × Handle)} (c d : Checker)
    (known : κ.holds ((n, m) :: held) c d) : κ.lists [n] [m] held c d :=
  ⟨rfl, known⟩

theorem lists_nil {held : List (Handle × Handle)} (c d : Checker) (known : κ.holds held c d) :
    κ.lists [] [] held c d :=
  ⟨rfl, known⟩

/-! ## Rules -/

/-- The rules of expressions side by side, when they may nest so deep. -/
structure ExpressionRules (κ : Coupling) (d e : Nat) : Prop where
  expression : ∀ {held}, κ.Reads (κ.holds held) (expression d) (expression e) fun n m =>
    κ.holds ((n, m) :: held)
  expressionTail : ∀ {held} (left left' : Handle), κ.Reads (κ.holds ((left, left') :: held))
    (expressionTail d left) (expressionTail e left') fun n m => κ.holds ((n, m) :: held)
  assignmentExpression :
    ∀ {held}, κ.Reads (κ.holds held) (assignmentExpression d) (assignmentExpression e) fun n m =>
    κ.holds ((n, m) :: held)
  conditionalExpression :
    ∀ {held}, κ.Reads (κ.holds held) (conditionalExpression d) (conditionalExpression e) fun n m =>
    κ.holds ((n, m) :: held)
  binaryExpression : ∀ {held} (least : Nat),
    κ.Reads (κ.holds held) (binaryExpression d least) (binaryExpression e least) fun n m =>
    κ.holds ((n, m) :: held)
  binaryTail : ∀ {held} (least : Nat) (left left' : Handle),
    κ.Reads (κ.holds ((left, left') :: held)) (binaryTail d least left)
    (binaryTail e least left') fun n m => κ.holds ((n, m) :: held)
  unaryExpression : ∀ {held}, κ.Reads (κ.holds held) (unaryExpression d)
    (unaryExpression e) fun n m => κ.holds ((n, m) :: held)
  postfixExpression : ∀ {held}, κ.Reads (κ.holds held) (postfixExpression d)
    (postfixExpression e) fun n m => κ.holds ((n, m) :: held)
  postfixTail : ∀ {held} (operand operand' : Handle),
    κ.Reads (κ.holds ((operand, operand') :: held)) (postfixTail d operand)
    (postfixTail e operand') fun n m => κ.holds ((n, m) :: held)
  primaryExpression : ∀ {held}, κ.Reads (κ.holds held) (primaryExpression d)
    (primaryExpression e) fun n m => κ.holds ((n, m) :: held)
  arguments : ∀ {held}, κ.Reads (κ.holds held) (arguments d) (arguments e) fun ns ms =>
    κ.lists ns ms held
  argumentList : ∀ {held}, κ.Reads (κ.holds held) (argumentList d) (argumentList e) fun ns ms =>
    κ.lists ns ms held

namespace ExpressionRules

variable (steps : κ.ExpressionSteps) {d e : Nat} (rules : κ.ExpressionRules d e)
    {held : List (Handle × Handle)}

include steps rules

omit steps in
theorem expression_succ :
    κ.Reads (κ.holds held) (Grammar.expression (d + 1)) (Grammar.expression (e + 1)) fun n m =>
    κ.holds ((n, m) :: held) :=
  .within (by decide) (.bind rules.assignmentExpression rules.expressionTail)

theorem expressionTail_succ (left left' : Handle) : κ.Reads (κ.holds ((left, left') :: held))
    (Grammar.expressionTail (d + 1) left) (Grammar.expressionTail (e + 1) left') fun n m =>
      κ.holds ((n, m) :: held) := by
  refine .within (by decide) (.thread κ.alike_refl .current fun t u alike =>
    .same (.accept _) fun found => .ite (fun _ => .pure fun _ _ => id) fun _ => ?_)
  refine .bind rules.assignmentExpression fun right right' => ?_
  exact .bind (.lift (steps.binary .comma left left' right right' alike.loc)) rules.expressionTail

theorem assignmentExpression_succ : κ.Reads (κ.holds held) (Grammar.assignmentExpression (d + 1))
    (Grammar.assignmentExpression (e + 1)) fun n m =>
      κ.holds ((n, m) :: held) := by
  refine .within (by decide) (.bind rules.conditionalExpression fun left left' =>
    .thread κ.alike_refl .current fun t u alike => ?_)
  rw [alike.kind]
  cases assignOp? u.kind with
  | none => exact .pure fun _ _ => id
  | some op =>
    refine .bind .advance fun _ _ => .bind rules.assignmentExpression fun right right' => ?_
    exact .lift (steps.binary op left left' right right' alike.loc)

theorem conditionalExpression_succ : κ.Reads (κ.holds held) (Grammar.conditionalExpression (d + 1))
    (Grammar.conditionalExpression (e + 1)) fun n m =>
      κ.holds ((n, m) :: held) := by
  refine .within (by decide) (.bind (rules.binaryExpression 0) fun cond cond' =>
    .thread κ.alike_refl .current fun t u alike => ?_)
  refine .same (.accept _) fun found => .ite (fun _ => .pure fun _ _ => id) fun _ => ?_
  refine .bind rules.expression fun yes yes' => .bind (want steps _ _) fun _ _ =>
    .bind rules.conditionalExpression fun no no' => ?_
  exact .lift (steps.ternary cond cond' yes yes' no no' alike.loc)

omit steps in
theorem binaryExpression_succ (least : Nat) : κ.Reads (κ.holds held)
    (Grammar.binaryExpression (d + 1) least) (Grammar.binaryExpression (e + 1) least) fun n m =>
      κ.holds ((n, m) :: held) :=
  .within (by decide) (.bind rules.unaryExpression (rules.binaryTail least))

theorem binaryTail_succ (least : Nat) (left left' : Handle) :
    κ.Reads (κ.holds ((left, left') :: held)) (Grammar.binaryTail (d + 1) least left)
    (Grammar.binaryTail (e + 1) least left') fun n m =>
      κ.holds ((n, m) :: held) := by
  refine .within (by decide) (.thread κ.alike_refl .current fun t u alike => ?_)
  rw [alike.kind]
  rcases binaryOp? u.kind with _ | ⟨op, precedence⟩
  · exact .pure fun _ _ => id
  · refine .ite (fun _ => .pure fun _ _ => id) fun _ => .bind .advance fun _ _ =>
      .bind (rules.binaryExpression _) fun right right' => ?_
    exact .bind (.lift (steps.binary op left left' right right' alike.loc)) (rules.binaryTail least)

theorem unaryExpression_succ : κ.Reads (κ.holds held) (Grammar.unaryExpression (d + 1))
    (Grammar.unaryExpression (e + 1)) fun n m => κ.holds ((n, m) :: held) := by
  refine .within (by decide) (.thread κ.alike_refl .current fun t u alike => ?_)
  rw [alike.kind]
  cases unaryOp? u.kind with
  | some op =>
    exact .bind .advance fun _ _ => .bind rules.unaryExpression fun operand operand' =>
      .lift (steps.unary op operand operand' alike.loc)
  | none =>
    exact .same (.accept _) fun plus => .ite (fun _ => rules.unaryExpression) fun _ =>
      rules.postfixExpression

omit steps in
theorem postfixExpression_succ : κ.Reads (κ.holds held) (Grammar.postfixExpression (d + 1))
    (Grammar.postfixExpression (e + 1)) fun n m =>
      κ.holds ((n, m) :: held) :=
  .within (by decide) (.bind rules.primaryExpression rules.postfixTail)

theorem postfixTail_succ (operand operand' : Handle) :
    κ.Reads (κ.holds ((operand, operand') :: held)) (Grammar.postfixTail (d + 1) operand)
    (Grammar.postfixTail (e + 1) operand') fun n m => κ.holds ((n, m) :: held) := by
  refine .within (by decide) (.thread κ.alike_refl .current fun t u alike => ?_)
  -- A member is selected in the same way with a dot and with an arrow.
  have selected (arrow : Bool) : κ.Reads (κ.holds ((operand, operand') :: held))
      (do
        advance
        let name ← current
        if !(← Grammar.expect .identifier "member name") then return .broken
        Grammar.postfixTail d (← Checker.member operand name.spelling arrow t.loc name.loc))
      (do
        advance
        let name ← current
        if !(← Grammar.expect .identifier "member name") then return .broken
        Grammar.postfixTail e (← Checker.member operand' name.spelling arrow u.loc name.loc))
      fun n m => κ.holds ((n, m) :: held) := by
    refine .bind .advance fun _ _ => .thread κ.alike_refl .current fun name name' named => ?_
    refine expectElse steps _ _ (fun _ _ known =>
      κ.push (κ.drop (List.sublist_cons_self _ _) known)) ?_
    rw [named.spelling]
    exact .bind (.lift (steps.member operand operand' name'.spelling arrow alike.loc named.loc))
      rules.postfixTail
  dsimp only
  rw [alike.kind]
  split
  next =>
    refine .bind .advance fun _ _ => .bind rules.expression fun index index' =>
      .thread κ.alike_refl .current fun close close' closes => ?_
    refine .bind (want steps _ _) fun _ _ => .bind (.lift ?_) rules.postfixTail
    exact steps.subscript operand operand' index index' alike.loc closes.loc
  next => exact selected _
  next => exact selected _
  next =>
    exact .bind .advance fun _ _ =>
      .bind (.lift (steps.unary .postIncrement operand operand' alike.loc)) rules.postfixTail
  next =>
    exact .bind .advance fun _ _ =>
      .bind (.lift (steps.unary .postDecrement operand operand' alike.loc)) rules.postfixTail
  next => exact .pure fun _ _ => id

theorem primaryExpression_succ : κ.Reads (κ.holds held) (Grammar.primaryExpression (d + 1))
    (Grammar.primaryExpression (e + 1)) fun n m =>
      κ.holds ((n, m) :: held) := by
  refine .within (by decide) (.thread κ.alike_refl .current fun t u alike => ?_)
  dsimp only
  rw [alike.kind, alike.spelling]
  split
  iterate 4 exact .bind .advance fun _ _ => .lift (steps.constant alike)
  next =>
    refine .bind .advance fun _ _ => .same (.check _) fun called => .ite (fun _ => ?_) fun _ => ?_
    · exact .bind (.lift (steps.identifier u.spelling alike.loc)) fun n m => .lift (steps.value n m)
    · refine .thread κ.alike_refl .current fun opening opening' opens =>
        .bind .advance fun _ _ => ?_
      refine .thread (V := fun ns ms => ns.length = ms.length) (fun _ =>
        rfl) rules.arguments fun args args' length => ?_
      refine .thread κ.alike_refl .current fun close close' closes =>
        .bind (want steps _ _) fun _ _ => ?_
      refine .same (.lift (steps.builtin u.spelling)) fun found => ?_
      cases found with
      | some b => exact .lift (steps.library b args args' length (κ.span alike.loc closes.loc))
      | none =>
        refine .bind (.lift (steps.identifier u.spelling alike.loc)) fun callee callee' => .lift ?_
        exact steps.call callee callee' args args' length opens.loc closes.loc
  next =>
    exact .bind .advance fun _ _ => .bind rules.expression fun n m =>
      .bind (want steps _ _) fun _ _ => .pure fun _ _ => id
  next => exact .bind (reportMissing steps _) fun _ _ => .pure fun _ _ known => κ.push known

omit steps in
theorem arguments_succ :
    κ.Reads (κ.holds held) (Grammar.arguments (d + 1)) (Grammar.arguments (e + 1)) fun ns ms =>
    κ.lists ns ms held :=
  .within (by decide) (.same (.check _) fun _ => .ite (fun _ => .pure lists_nil) fun _ =>
    rules.argumentList)

omit steps in
theorem argumentList_succ : κ.Reads (κ.holds held) (Grammar.argumentList (d + 1))
    (Grammar.argumentList (e + 1)) fun ns ms => κ.lists ns ms held := by
  refine .within (by decide) (.bind rules.assignmentExpression fun n m =>
    .same (.accept _) fun more => .ite (fun _ => ?_) fun _ => ?_)
  · exact lists_cons rules.argumentList
  · exact .pure lists_one

end ExpressionRules

/-- The rules of expressions go side by side, however deep they nest. -/
theorem expressionRules (steps : κ.ExpressionSteps) {d e : Nat} (deep : κ.Deep d e) :
    κ.ExpressionRules d e := by
  induction d generalizing e with
  | zero =>
    exact {
      expression := .endless deep rfl (by rintro rfl; rfl)
      expressionTail := fun _ _ => .endless deep rfl (by rintro rfl; rfl)
      assignmentExpression := .endless deep rfl (by rintro rfl; rfl)
      conditionalExpression := .endless deep rfl (by rintro rfl; rfl)
      binaryExpression := fun _ => .endless deep rfl (by rintro rfl; rfl)
      binaryTail := fun _ _ _ => .endless deep rfl (by rintro rfl; rfl)
      unaryExpression := .endless deep rfl (by rintro rfl; rfl)
      postfixExpression := .endless deep rfl (by rintro rfl; rfl)
      postfixTail := fun _ _ => .endless deep rfl (by rintro rfl; rfl)
      primaryExpression := .endless deep rfl (by rintro rfl; rfl)
      arguments := .endless deep rfl (by rintro rfl; rfl)
      argumentList := .endless deep rfl (by rintro rfl; rfl) }
  | succ d ih =>
    obtain ⟨e, rfl, deeper⟩ := deep.succ
    have rules := ih deeper
    exact {
      expression := rules.expression_succ
      expressionTail := rules.expressionTail_succ steps
      assignmentExpression := rules.assignmentExpression_succ steps
      conditionalExpression := rules.conditionalExpression_succ steps
      binaryExpression := rules.binaryExpression_succ
      binaryTail := rules.binaryTail_succ steps
      unaryExpression := rules.unaryExpression_succ steps
      postfixExpression := rules.postfixExpression_succ
      postfixTail := rules.postfixTail_succ steps
      primaryExpression := rules.primaryExpression_succ steps
      arguments := rules.arguments_succ
      argumentList := rules.argumentList_succ }

section Whole

variable (steps : κ.ExpressionSteps) {d e : Nat} (deep : κ.Deep d e) {held : List (Handle × Handle)}

include steps deep

theorem controlExpression :
    κ.Reads (κ.holds held) (Grammar.controlExpression d) (Grammar.controlExpression e) fun n m =>
    κ.holds ((n, m) :: held) := by
  refine .within (by decide) (.bind (want steps _ _) fun _ _ =>
    .bind (expressionRules steps deep).expression fun n m => ?_)
  exact .bind (.lift (steps.condition n m)) fun n m => .bind (want steps _ _) fun _ _ =>
    .pure fun _ _ => id

/-- Initializers and their elements. -/
theorem initializerRules : (∀ {held},
      κ.Reads (κ.holds held) (initializer d) (initializer e) fun n m => κ.holds ((n, m) :: held)) ∧
    ∀ {held}, κ.Reads (κ.holds held) (initializerElements d) (initializerElements e) fun ns ms =>
    κ.lists ns ms held := by
  induction d generalizing e with
  | zero => exact ⟨.endless deep rfl (by rintro rfl; rfl), .endless deep rfl (by rintro rfl; rfl)⟩
  | succ d ih =>
    obtain ⟨e, rfl, deeper⟩ := deep.succ
    obtain ⟨one, elements⟩ := ih deeper
    constructor
    · intro held
      refine .within (by decide) (.same (.check _) fun _ =>
        .ite (fun _ => (expressionRules steps deeper).assignmentExpression) fun _ => ?_)
      refine .thread κ.alike_refl .current fun opening opening' opens =>
        .bind .advance fun _ _ => ?_
      refine .thread (V := fun ns ms => ns.length = ms.length) (fun _ =>
        rfl) elements fun ns ms length => ?_
      refine .thread κ.alike_refl .current fun close close' closes =>
        .bind (want steps _ _) fun _ _ => .lift ?_
      exact steps.initializerList ns ms length opens.loc closes.loc
    · intro held
      refine .within (by decide) (.same (.check _) fun _ => .same (.check _) fun _ =>
        .ite (fun _ => .pure lists_nil) fun _ => ?_)
      refine .bind one fun n m => .same (.accept _) fun more =>
        .ite (fun _ => lists_cons elements) fun _ => .pure lists_one

end Whole

end Coupling

end BilingualC
