import Mathlib
import BilingualC.Grammar.Statement
import BilingualC.Proofs.Coupling.Declarations

/-!
# Programs side by side

With the steps for statements (`Coupling.StatementSteps`) whole programs are read side by side.

Main result: `Coupling.reads_programOf`.
-/

namespace BilingualC

open Grammar

namespace Coupling

/-- The steps of the checker for statements and functions go side by side. -/
structure StatementSteps (κ : Coupling) : Prop extends DeclarationSteps κ where
  null : ∀ {held l l'}, κ.place l l' →
    κ.Steps (κ.holds held) (Checker.null l) (Checker.null l') fun n m => κ.holds ((n, m) :: held)
  ifElse : ∀ {held l l'} (cond cond' yes yes' no no' : Handle) (hasElse : Bool), κ.place l l' →
    κ.Steps (κ.holds ((no, no') :: (yes, yes') :: (cond, cond') :: held))
    (Checker.ifElse cond yes no hasElse l) (Checker.ifElse cond' yes' no' hasElse l') fun n m =>
    κ.holds ((n, m) :: held)
  whileLoop : ∀ {held l l'} (cond cond' body body' : Handle), κ.place l l' →
    κ.Steps (κ.holds ((body, body') :: (cond, cond') :: held)) (Checker.whileLoop cond body l)
    (Checker.whileLoop cond' body' l') fun n m => κ.holds ((n, m) :: held)
  doWhile : ∀ {held l l'} (body body' cond cond' : Handle), κ.place l l' →
    κ.Steps (κ.holds ((cond, cond') :: (body, body') :: held)) (Checker.doWhile body cond l)
    (Checker.doWhile body' cond' l') fun n m => κ.holds ((n, m) :: held)
  forLoop : ∀ {held l l'} (init init' cond cond' step step' : Checker.Clause) (body body' : Handle),
    init.written = init'.written → cond.written = cond'.written → step.written = step'.written →
    κ.place l l' → κ.Steps (κ.holds ((body, body') :: (step.node, step'.node) :: (cond.node,
    cond'.node) :: (init.node, init'.node) :: held)) (Checker.forLoop init cond step body l)
    (Checker.forLoop init' cond' step' body' l') fun n m => κ.holds ((n, m) :: held)
  enterLoop : ∀ {held}, κ.Steps (κ.holds held) Checker.enterLoop Checker.enterLoop fun _ _ =>
    κ.holds held
  exitLoop : ∀ {held}, κ.Steps (κ.holds held) Checker.exitLoop Checker.exitLoop fun _ _ =>
    κ.holds held
  enterSwitch : ∀ {held}, κ.Steps (κ.holds held) Checker.enterSwitch Checker.enterSwitch fun _ _ =>
    κ.holds held
  exitSwitch : ∀ {held}, κ.Steps (κ.holds held) Checker.exitSwitch Checker.exitSwitch fun _ _ =>
    κ.holds held
  switching : ∀ {held l l'} (cond cond' body body' : Handle), κ.place l l' →
    κ.Steps (κ.holds ((body, body') :: (cond, cond') :: held)) (Checker.switching cond body l)
    (Checker.switching cond' body' l') fun n m => κ.holds ((n, m) :: held)
  caseLabel : ∀ {held l l'} (value value' body body' : Handle), κ.place l l' →
    κ.Steps (κ.holds ((body, body') :: (value, value') :: held)) (Checker.caseLabel value body l)
    (Checker.caseLabel value' body' l') fun n m => κ.holds ((n, m) :: held)
  defaultLabel : ∀ {held l l'} (body body' : Handle), κ.place l l' →
    κ.Steps (κ.holds ((body, body') :: held)) (Checker.defaultLabel body l)
    (Checker.defaultLabel body' l') fun n m =>
      κ.holds ((n, m) :: held)
  jump : ∀ {held l l'} (spelling : Int), κ.place l l' →
    κ.Steps (κ.holds held) (Checker.jump spelling l) (Checker.jump spelling l') fun n m =>
    κ.holds ((n, m) :: held)
  returning : ∀ {held l l'} (value value' : Handle) (hasValue : Bool), κ.place l l' →
    κ.Steps (κ.holds ((value, value') :: held)) (Checker.returning value hasValue l)
    (Checker.returning value' hasValue l') fun n m =>
      κ.holds ((n, m) :: held)
  breaking : ∀ {held l l'}, κ.place l l' →
    κ.Steps (κ.holds held) (Checker.breaking l) (Checker.breaking l') fun n m =>
    κ.holds ((n, m) :: held)
  continuing : ∀ {held l l'}, κ.place l l' →
    κ.Steps (κ.holds held) (Checker.continuing l) (Checker.continuing l') fun n m =>
    κ.holds ((n, m) :: held)
  labelled : ∀ {held l l'} (spelling : Int) (body body' : Handle), κ.place l l' →
    κ.Steps (κ.holds ((body, body') :: held)) (Checker.labelled spelling body l)
    (Checker.labelled spelling body' l') fun n m =>
      κ.holds ((n, m) :: held)
  openScope : ∀ {held}, κ.Steps (κ.holds held) Checker.openScope Checker.openScope fun a b =>
    κ.knows (a = b) held
  closeScope : ∀ {held} (scope : Scope), κ.Steps (κ.holds held) (Checker.closeScope scope)
    (Checker.closeScope scope) fun _ _ => κ.holds held
  block : ∀ {held l l'} (statements statements' : List Handle), statements.length =
    statements'.length → κ.place l l' → κ.Steps (κ.holds (pairs statements statements' ++ held))
    (Checker.block statements l) (Checker.block statements' l') fun n m =>
      κ.holds ((n, m) :: held)
  declareFunction : ∀ {held l l'} (spelling : Int) (type : TypeId), κ.place l l' →
    κ.Steps (κ.holds held) (Checker.declareFunction spelling type l)
    (Checker.declareFunction spelling type l') fun a b =>
      κ.knows (a = b) held
  beginFunction : ∀ {held l l' parameters parameters'} (id : Int),
    List.Forall₂ κ.ParameterAlike parameters parameters' → κ.place l l' →
    κ.Steps (κ.holds held) (Checker.beginFunction id parameters l)
    (Checker.beginFunction id parameters' l') fun a b => κ.knows (a = b) held
  functionDefinition :
    ∀ {held l l'} (id : Int) (scope : Scope) (body body' : Handle), κ.place l l' →
    κ.Steps (κ.holds ((body, body') :: held)) (Checker.functionDefinition id scope body l)
    (Checker.functionDefinition id scope body' l') fun n m => κ.holds ((n, m) :: held)
  unit : ∀ {held l l'}, κ.place l l' →
    κ.Steps (κ.holds held) (Checker.unit l) (Checker.unit l') fun _ _ => κ.holds held

variable {κ : Coupling}

/-! ## Rules -/

/-- The rules of statements side by side, when they may nest so deep. -/
structure StatementRules (κ : Coupling) (d e : Nat) : Prop where
  statement : ∀ {held}, κ.Reads (κ.holds held) (statement d) (statement e) fun n m =>
    κ.holds ((n, m) :: held)
  loopBody : ∀ {held}, κ.Reads (κ.holds held) (loopBody d) (loopBody e) fun n m =>
    κ.holds ((n, m) :: held)
  forStatement : ∀ {held l l'}, κ.place l l' →
    κ.Reads (κ.holds held) (forStatement d l) (forStatement e l') fun n m =>
    κ.holds ((n, m) :: held)
  firstClause : ∀ {held}, κ.Reads (κ.holds held) (firstClause d) (firstClause e) fun a b =>
    κ.knows (a.written = b.written) ((a.node, b.node) :: held)
  scopedBlock : ∀ {held}, κ.Reads (κ.holds held) (scopedBlock d) (scopedBlock e) fun n m =>
    κ.holds ((n, m) :: held)
  blockBody : ∀ {held}, κ.Reads (κ.holds held) (blockBody d) (blockBody e) fun n m =>
    κ.holds ((n, m) :: held)
  blockItems : ∀ {held}, κ.Reads (κ.holds held) (blockItems d) (blockItems e) fun ns ms =>
    κ.lists ns ms held

theorem ensureProgress {held : List (Handle × Handle)} (before : Nat) : κ.Reads (κ.holds held)
    (Grammar.ensureProgress before) (Grammar.ensureProgress before) fun _ _ => κ.holds held :=
  .same .position fun _ => .ite (fun _ => .advance) fun _ => .pure fun _ _ => id

namespace StatementRules

variable (steps : κ.StatementSteps) {d e : Nat} (deep : κ.Deep d e) (rules : κ.StatementRules d e)
    {held : List (Handle × Handle)}

include steps rules

theorem loopBody_succ :
    κ.Reads (κ.holds held) (Grammar.loopBody (d + 1)) (Grammar.loopBody (e + 1)) fun n m =>
    κ.holds ((n, m) :: held) := by
  refine .within (by decide) (.bind (.lift steps.enterLoop) fun _ _ =>
    .bind rules.statement fun n m => ?_)
  exact .bind (.lift steps.exitLoop) fun _ _ => .pure fun _ _ => id

omit steps rules in
/-- A part that need not be written; the broken node stands for one that is not. -/
theorem optional {α : Type} {written : Bool} {m n : Parse Handle} {f g : Handle → Parse α}
    {R : α → α → Claim} (present : κ.Reads (κ.holds held) m n fun n m => κ.holds ((n, m) :: held))
    (next : ∀ n m, κ.Reads (κ.holds ((n, m) :: held)) (f n) (g m) R) :
    κ.Reads (κ.holds held) (if written = true then m >>= f else Pure.pure .broken >>= f)
    (if written = true then n >>= g else Pure.pure .broken >>= g) R :=
  .ite (fun _ => .bind present next) fun _ => .bind (.pure fun _ _ => κ.push) next

include deep

theorem forStatement_succ {l l' : Location} (start : κ.place l l') :
    κ.Reads (κ.holds held) (Grammar.forStatement (d + 1) l)
    (Grammar.forStatement (e + 1) l') fun n m => κ.holds ((n, m) :: held) := by
  have expressions := expressionRules steps.toExpressionSteps deep
  refine .within (by decide) (.bind (want steps.toExpressionSteps _ _) fun _ _ =>
    .same (.lift steps.openScope) fun scope => ?_)
  refine .thread (V := fun a b : Checker.Clause => a.written = b.written) (fun _ =>
    rfl) rules.firstClause fun init init' writes => ?_
  refine .same (.check _) fun noCond => ?_
  -- what is read last comes first: the body does not depend on which clauses there were
  have body (cond cond' step step' : Handle) (hasCond hasStep : Bool) : κ.Reads
      (κ.holds ((step, step') :: (cond, cond') :: (init.node, init'.node) :: held))
      (do
        Grammar.want .rightParen ")"
        let body ← Grammar.loopBody d
        let node ← Checker.forLoop init ⟨cond, hasCond⟩ ⟨step, hasStep⟩ body (← Grammar.spanFrom l)
        Checker.closeScope scope
        return node)
      (do
        Grammar.want .rightParen ")"
        let body ← Grammar.loopBody e
        let node ← Checker.forLoop init' ⟨cond', hasCond⟩ ⟨step',
          hasStep⟩ body (← Grammar.spanFrom l')
        Checker.closeScope scope
        return node) fun n m => κ.holds ((n, m) :: held) := by
    refine .bind (want steps.toExpressionSteps _ _) fun _ _ => .bind rules.loopBody fun n m =>
      .thread κ.refl (.spanFrom start) fun _ _ span => ?_
    refine .bind (.lift (steps.forLoop init init' ⟨cond, hasCond⟩ ⟨cond', hasCond⟩ ⟨step,
      hasStep⟩ ⟨step', hasStep⟩ n m writes rfl rfl span)) fun n m => ?_
    exact .bind (.lift (steps.closeScope scope)) fun _ _ => .pure fun _ _ => id
  have clauses (cond cond' : Handle) (hasCond : Bool) :
      κ.Reads (κ.holds ((cond, cond') :: (init.node, init'.node) :: held)) (do
        Grammar.want .semicolon ";"
        let hasStep := !(← Grammar.check .rightParen)
        let step ← if hasStep then Grammar.expression d else pure .broken
        Grammar.want .rightParen ")"
        let body ← Grammar.loopBody d
        let node ← Checker.forLoop init ⟨cond, hasCond⟩ ⟨step, hasStep⟩ body (← Grammar.spanFrom l)
        Checker.closeScope scope
        return node)
      (do
        Grammar.want .semicolon ";"
        let hasStep := !(← Grammar.check .rightParen)
        let step ← if hasStep then Grammar.expression e else pure .broken
        Grammar.want .rightParen ")"
        let body ← Grammar.loopBody e
        let node ← Checker.forLoop init' ⟨cond', hasCond⟩ ⟨step,
          hasStep⟩ body (← Grammar.spanFrom l')
        Checker.closeScope scope
        return node) fun n m => κ.holds ((n, m) :: held) := by
    refine .bind (want steps.toExpressionSteps _ _) fun _ _ => .same (.check _) fun noStep => ?_
    exact optional expressions.expression fun step step' => body cond cond' step step' hasCond _
  refine .ite (fun _ => ?_) fun _ => .bind (.pure fun _ _ => κ.push) fun n m => clauses n m _
  exact .bind expressions.expression fun n m => .bind (.lift (steps.condition n m)) fun n m =>
    clauses n m _

omit rules in
theorem firstClause_succ :
    κ.Reads (κ.holds held) (Grammar.firstClause (d + 1)) (Grammar.firstClause (e + 1)) fun a b =>
    κ.knows (a.written = b.written) ((a.node, b.node) :: held) := by
  refine .within (by decide) (.same (.accept _) fun none =>
    .ite (fun _ => .pure fun _ _ known => ⟨rfl, κ.push known⟩) fun _ => ?_)
  refine .same (startsDeclaration steps.toDeclarationSteps) fun starts =>
    .ite (fun _ => ?_) fun _ => ?_
  · exact .bind (declaration steps.toDeclarationSteps deep) fun n m => .pure fun _ _ known =>
      ⟨rfl, known⟩
  · refine .bind (expressionRules steps.toExpressionSteps deep).expression fun n m =>
      .bind (want steps.toExpressionSteps _ _) fun _ _ => ?_
    exact .pure fun _ _ known => ⟨rfl, known⟩

omit deep in
theorem scopedBlock_succ :
    κ.Reads (κ.holds held) (Grammar.scopedBlock (d + 1)) (Grammar.scopedBlock (e + 1)) fun n m =>
    κ.holds ((n, m) :: held) := by
  refine .within (by decide) (.same (.lift steps.openScope) fun scope =>
    .bind rules.blockBody fun n m => ?_)
  exact .bind (.lift (steps.closeScope scope)) fun _ _ => .pure fun _ _ => id

omit deep in
theorem blockBody_succ :
    κ.Reads (κ.holds held) (Grammar.blockBody (d + 1)) (Grammar.blockBody (e + 1)) fun n m =>
    κ.holds ((n, m) :: held) := by
  refine .within (by decide) (.thread κ.alike_refl .current fun t u alike =>
    .bind (want steps.toExpressionSteps _ _) fun _ _ => ?_)
  refine .thread (V := fun ns ms => ns.length = ms.length) (fun _ =>
    rfl) rules.blockItems fun ns ms length => ?_
  refine .bind (want steps.toExpressionSteps _ _) fun _ _ =>
    .thread κ.refl (.spanFrom alike.loc) fun _ _ span => ?_
  exact .lift (steps.block ns ms length span)

theorem blockItems_succ :
    κ.Reads (κ.holds held) (Grammar.blockItems (d + 1)) (Grammar.blockItems (e + 1)) fun ns ms =>
    κ.lists ns ms held := by
  refine .within (by decide) (.same (.check _) fun _ => .same (.check _) fun _ =>
    .ite (fun _ => .pure lists_nil) fun _ => ?_)
  refine .same .position fun before =>
    .same (startsDeclaration steps.toDeclarationSteps) fun starts => ?_
  have rest (n m : Handle) : κ.Reads (κ.holds ((n, m) :: held))
      (do
        Grammar.synchronize
        Grammar.ensureProgress before
        return n :: (← Grammar.blockItems d))
      (do
        Grammar.synchronize
        Grammar.ensureProgress before
        return m :: (← Grammar.blockItems e)) fun ns ms => κ.lists ns ms held :=
    .bind synchronize fun _ _ => .bind (ensureProgress before) fun _ _ =>
      lists_cons rules.blockItems
  exact .ite (fun _ => .bind (declaration steps.toDeclarationSteps deep) rest) fun _ =>
    .bind rules.statement rest

theorem statement_succ :
    κ.Reads (κ.holds held) (Grammar.statement (d + 1)) (Grammar.statement (e + 1)) fun n m =>
    κ.holds ((n, m) :: held) := by
  have expressions := expressionRules steps.toExpressionSteps deep
  have wants {held : List (Handle × Handle)} (kind : TokenKind) (what : String) :
      κ.Reads (κ.holds held) (Grammar.want kind what) (Grammar.want kind what) fun _ _ =>
      κ.holds held :=
    want steps.toExpressionSteps kind what
  refine .within (by decide) (.thread κ.alike_refl .current fun t u alike => ?_)
  -- The place of a statement that ends here.
  have ends {held more : List (Handle × Handle)} {f g : Location → Check Handle} (step : ∀ l l',
      κ.place l l' → κ.Steps (κ.holds held) (f l) (g l') fun n m => κ.holds ((n, m) :: more)) :
      κ.Reads (κ.holds held) (do f (← Grammar.spanFrom t.loc))
      (do g (← Grammar.spanFrom u.loc)) fun n m => κ.holds ((n, m) :: more) :=
    .thread κ.refl (.spanFrom alike.loc) fun l l' span => .lift (step l l' span)
  dsimp only
  rw [alike.kind]
  split
  next => exact rules.scopedBlock
  next => exact .bind .advance fun _ _ => .lift (steps.null alike.loc)
  next =>
    refine .bind .advance fun _ _ =>
      .bind (controlExpression steps.toExpressionSteps deep) fun cond cond' => ?_
    refine .bind rules.statement fun yes yes' => .same (.accept _) fun hasElse => ?_
    exact optional rules.statement fun no no' => ends fun _ _ =>
      steps.ifElse cond cond' yes yes' no no' hasElse
  next =>
    refine .bind .advance fun _ _ =>
      .bind (controlExpression steps.toExpressionSteps deep) fun cond cond' => ?_
    exact .bind rules.loopBody fun body body' => ends fun _ _ =>
      steps.whileLoop cond cond' body body'
  next =>
    refine .bind .advance fun _ _ => .bind rules.loopBody fun body body' =>
      .bind (wants _ _) fun _ _ => ?_
    refine .bind (controlExpression steps.toExpressionSteps deep) fun cond cond' =>
      .bind (wants _ _) fun _ _ => ?_
    exact ends fun _ _ => steps.doWhile body body' cond cond'
  next => exact .bind .advance fun _ _ => rules.forStatement alike.loc
  next =>
    refine .bind .advance fun _ _ => .bind (wants _ _) fun _ _ =>
      .bind expressions.expression fun cond cond' => ?_
    refine .bind (wants _ _) fun _ _ => .bind (.lift steps.enterSwitch) fun _ _ =>
      .bind rules.statement fun body body' => ?_
    exact .bind (.lift steps.exitSwitch) fun _ _ => ends fun _ _ =>
      steps.switching cond cond' body body'
  next =>
    refine .bind .advance fun _ _ => .bind expressions.conditionalExpression fun value value' =>
      .bind (wants _ _) fun _ _ => ?_
    exact .bind rules.statement fun body body' => ends fun _ _ =>
      steps.caseLabel value value' body body'
  next =>
    refine .bind .advance fun _ _ => .bind (wants _ _) fun _ _ => ?_
    exact .bind rules.statement fun body body' => ends fun _ _ => steps.defaultLabel body body'
  next =>
    refine .bind .advance fun _ _ => .thread κ.alike_refl .current fun name name' named => ?_
    refine expectElse steps.toExpressionSteps _ _ (fun _ _ => κ.push)
      (.bind (wants _ _) fun _ _ => ?_)
    rw [named.spelling]
    exact ends fun _ _ => steps.jump _
  next =>
    refine .bind .advance fun _ _ => .same (.check _) fun bare => ?_
    exact optional expressions.expression fun value value' => .bind (wants _ _) fun _ _ =>
      ends fun _ _ => steps.returning value value' _
  next =>
    exact .bind .advance fun _ _ => .bind (wants _ _) fun _ _ => ends fun _ _ => steps.breaking
  next =>
    exact .bind .advance fun _ _ => .bind (wants _ _) fun _ _ => ends fun _ _ => steps.continuing
  next =>
    refine .thread κ.alike_refl .peek fun next next' follows => ?_
    rw [follows.kind, alike.spelling]
    refine .ite (fun _ => ?_) fun _ => ?_
    · refine .bind .advance fun _ _ => .bind .advance fun _ _ =>
        .bind rules.statement fun body body' => ?_
      exact ends fun _ _ => steps.labelled _ body body'
    · exact .bind expressions.expression fun n m => .bind (wants _ _) fun _ _ => .pure fun _ _ => id

end StatementRules

/-- The rules of statements go side by side, however deep they nest. -/
theorem statementRules (steps : κ.StatementSteps) {d e : Nat} (deep : κ.Deep d e) :
    κ.StatementRules d e := by
  induction d generalizing e with
  | zero =>
    exact {
      statement := .endless deep rfl (by rintro rfl; rfl)
      loopBody := .endless deep rfl (by rintro rfl; rfl)
      forStatement := fun _ => .endless deep rfl (by rintro rfl; rfl)
      firstClause := .endless deep rfl (by rintro rfl; rfl)
      scopedBlock := .endless deep rfl (by rintro rfl; rfl)
      blockBody := .endless deep rfl (by rintro rfl; rfl)
      blockItems := .endless deep rfl (by rintro rfl; rfl) }
  | succ d ih =>
    obtain ⟨e, rfl, deeper⟩ := deep.succ
    have rules := ih deeper
    exact {
      statement := rules.statement_succ steps deeper
      loopBody := rules.loopBody_succ steps
      forStatement := rules.forStatement_succ steps deeper
      firstClause := StatementRules.firstClause_succ steps deeper
      scopedBlock := rules.scopedBlock_succ steps
      blockBody := rules.blockBody_succ steps
      blockItems := rules.blockItems_succ steps deeper }

/-! ## Programs -/

section Programs

variable (steps : κ.StatementSteps) {d e : Nat} (deep : κ.Deep d e) {held : List (Handle × Handle)}

include steps deep

theorem function (result : TypeId) {l l' : Location} (start : κ.place l l') :
    κ.Reads (κ.holds held) (Grammar.function d result l) (Grammar.function e result l') fun _ _ =>
    κ.holds held := by
  refine .within (by decide) (.thread κ.alike_refl .current fun t u alike =>
    .bind .advance fun _ _ => .bind .advance fun _ _ => ?_)
  refine .thread (parameters_refl κ) (parameters steps.toDeclarationSteps deep) fun ps qs same => ?_
  refine .bind (want steps.toExpressionSteps _ _) fun _ _ => ?_
  rw [types_parameters same, alike.spelling]
  have rest (type : TypeId) : κ.Reads (κ.holds held)
      (do
        let id ← Checker.declareFunction u.spelling type t.loc
        if ← Grammar.accept .semicolon then return
        if !(← Grammar.check .leftBrace) then
          Grammar.reportMissing "\x7b"
          return
        let scope ← Checker.beginFunction id ps t.loc
        let body ← Grammar.blockBody d
        let _ ← Checker.functionDefinition id scope body (← Grammar.spanFrom l))
      (do
        let id ← Checker.declareFunction u.spelling type u.loc
        if ← Grammar.accept .semicolon then return
        if !(← Grammar.check .leftBrace) then
          Grammar.reportMissing "\x7b"
          return
        let scope ← Checker.beginFunction id qs u.loc
        let body ← Grammar.blockBody e
        let _ ← Checker.functionDefinition id scope body (← Grammar.spanFrom l')) fun _ _ =>
          κ.holds held := by
    refine .same (.lift (steps.declareFunction _ type alike.loc)) fun id =>
      .same (.accept _) fun done => ?_
    refine .ite (fun _ => .pure fun _ _ known => known) fun _ => .same (.check _) fun opens => ?_
    refine .ite (fun _ => .bind (reportMissing steps.toExpressionSteps _) fun _ _ =>
      .pure fun _ _ known => known) fun _ => ?_
    refine .same (.lift (steps.beginFunction id same alike.loc)) fun scope => ?_
    refine .bind (statementRules steps deep).blockBody fun body body' =>
      .thread κ.refl (.spanFrom start) fun _ _ span => ?_
    exact .bind (.lift (steps.functionDefinition id scope body body' span)) fun _ _ =>
      .pure fun _ _ => κ.drop (List.sublist_cons_self _ _)
  exact makeType steps.toDeclarationSteps (.function result _) rest

theorem externalDeclaration : κ.Reads (κ.holds held) (Grammar.externalDeclaration d)
    (Grammar.externalDeclaration e) fun _ _ => κ.holds held := by
  refine .within (by decide) (.thread κ.alike_refl .current fun t u alike =>
    .same (.check _) fun named => .ite (fun _ => ?_) fun _ => ?_)
  · exact .bind (declaration steps.toDeclarationSteps deep) fun _ _ => .pure fun _ _ =>
      κ.drop (List.sublist_cons_self _ _)
  · refine .same (typeRules steps.toDeclarationSteps deep).typeSpecifier fun base => ?_
    cases base with
    | none => exact reportMissing steps.toExpressionSteps _
    | some base =>
      refine .same .isFunctionAhead fun ahead => .ite (fun _ => ?_) fun _ => ?_
      · exact .same (stars steps.toDeclarationSteps deep base) fun type =>
          function steps deep type alike.loc
      · refine .bind (restOfDeclaration steps.toDeclarationSteps deep base alike.loc) fun _ _ => ?_
        exact .pure fun _ _ => κ.drop (List.sublist_cons_self _ _)

theorem externalDeclarations {left left' : Nat} (many : κ.Deep left left') :
    κ.Reads (κ.holds held) (Grammar.externalDeclarations d left)
    (Grammar.externalDeclarations e left') fun _ _ => κ.holds held := by
  induction left generalizing left' with
  | zero => exact .endless many rfl (by rintro rfl; rfl)
  | succ left ih =>
    obtain ⟨left', rfl, fewer⟩ := many.succ
    refine .within (by decide) (.same (.check _) fun _ =>
      .ite (fun _ => .pure fun _ _ => id) fun _ => .same .position fun before => ?_)
    refine .bind (externalDeclaration steps deep) fun _ _ => .bind synchronize fun _ _ => ?_
    exact .bind (ensureProgress before) fun _ _ => ih fewer

/-- **Programs are read side by side** where the checker goes side by side. -/
theorem reads_programOf {left left' : Nat} (many : κ.Deep left left') :
    κ.Reads (κ.holds held) (Grammar.programOf d left) (Grammar.programOf e left') fun _ _ =>
    κ.holds held :=
  .bind (externalDeclarations steps deep many) fun _ _ =>
    .thread κ.alike_refl .current fun _ _ alike => .lift (steps.unit alike.loc)

end Programs

end Coupling

end BilingualC
