import Mathlib
import BilingualC.Proofs.Coupling.Expressions

/-!
# Declarations side by side

Types, numbers of declarations and scopes are the same in both runs; fields and parameters may be at
different places. The members of a structure are where the second run may stop alone
(`Coupling.Reads.withinMembers`).
-/

namespace BilingualC

open Grammar

/-- A type is made from others. -/
inductive Session.MakesType : (Session → Session × TypeId) → Prop
  | pointer (type : TypeId) : MakesType (·.pointerType type)
  | array (type : TypeId) : MakesType (·.arrayType type)
  | function (result : TypeId) (parameters : List TypeId) :
      MakesType (·.functionType result parameters)

/-- Makes a type in the tables of the checker. -/
def Checker.makeType (make : Session → Session × TypeId) : Check TypeId := do
  let (s, id) := make (← currentSession)
  setSession s
  return id

namespace Coupling

/-- Fields that say the same, each at its own place. -/
structure FieldAlike (κ : Coupling) (f g : Checker.WrittenField) : Prop where
  name : f.name = g.name
  type : f.type = g.type
  loc : κ.place f.loc g.loc

/-- Parameters that say the same, each at its own place. -/
structure ParameterAlike (κ : Coupling) (p q : Checker.Parameter) : Prop where
  spelling : p.spelling = q.spelling
  type : p.type = q.type
  loc : κ.place p.loc q.loc

variable {κ : Coupling} {α β : Type}

theorem fields_refl (κ : Coupling) (fields : List Checker.WrittenField) :
    List.Forall₂ κ.FieldAlike fields fields :=
  List.forall₂_same.mpr fun _ _ => ⟨rfl, rfl, κ.refl _⟩

theorem parameters_refl (κ : Coupling) (parameters : List Checker.Parameter) :
    List.Forall₂ κ.ParameterAlike parameters parameters :=
  List.forall₂_same.mpr fun _ _ => ⟨rfl, rfl, κ.refl _⟩

theorem types_parameters {a b : List Checker.Parameter}
    (alike : List.Forall₂ κ.ParameterAlike a b) : a.map (·.type) = b.map (·.type) := by
  induction alike with
  | nil => rfl
  | cons one _ ih => rw [List.map_cons, List.map_cons, one.type, ih]

/-- The steps of the checker for declarations go side by side. -/
structure DeclarationSteps (κ : Coupling) : Prop extends ExpressionSteps κ where
  makeType : ∀ {held make}, Session.MakesType make →
    κ.Steps (κ.holds held) (Checker.makeType make) (Checker.makeType make) fun a b =>
    κ.knows (a = b) held
  structureOf : ∀ {held l l'} (tag : Int), κ.place l l' →
    κ.Steps (κ.holds held) (Checker.structureOf tag l) (Checker.structureOf tag l') fun a b =>
    κ.knows (a = b) held
  declareStructure : ∀ {held l l' fields fields'} (tag : Int),
    List.Forall₂ κ.FieldAlike fields fields' → κ.place l l' → κ.Steps (κ.holds held)
    (Checker.declareStructure tag fields l) (Checker.declareStructure tag fields' l') fun a b =>
      κ.knows (a = b) held
  emptyBound : ∀ {held l l'}, κ.place l l' →
    κ.Steps (κ.holds held) (Checker.emptyBound l) (Checker.emptyBound l') fun n m =>
    κ.holds ((n, m) :: held)
  declareVariable : ∀ {held l l'} (type : TypeId) (spelling : Int), κ.place l l' →
    κ.Steps (κ.holds held) (Checker.declareVariable type spelling l)
    (Checker.declareVariable type spelling l') fun a b =>
      κ.knows (a = b) held
  variableDeclaration :
    ∀ {held l l'} (id : Int) (bounds bounds' : List Handle) (init init' : Handle) (hasInit : Bool),
    bounds.length = bounds'.length → κ.place l l' →
    κ.Steps (κ.holds ((init, init') :: (pairs bounds bounds' ++ held))) (Checker.variableDeclaration
    id bounds init hasInit l) (Checker.variableDeclaration id bounds' init' hasInit l') fun n m =>
        κ.holds ((n, m) :: held)
  typeDefinition : ∀ {held l l'} (type : TypeId) (spelling : Int), κ.place l l' →
    κ.Steps (κ.holds held) (Checker.typeDefinition type spelling l)
    (Checker.typeDefinition type spelling l') fun n m =>
      κ.holds ((n, m) :: held)
  declaration : ∀ {held l l'} (parts parts' : List Handle), parts.length = parts'.length →
    κ.place l l' → κ.Steps (κ.holds (pairs parts parts' ++ held)) (Checker.declaration parts l)
    (Checker.declaration parts' l') fun n m =>
      κ.holds ((n, m) :: held)

/-! ## Recovery -/

section Recovery

variable {held : List (Handle × Handle)}

theorem skipStatement (left : Nat) :
    κ.Reads (κ.holds held) (Grammar.skipStatement left) (Grammar.skipStatement left) fun _ _ =>
    κ.holds held := by
  induction left with
  | zero => exact .pure fun _ _ => id
  | succ left ih =>
    refine .within (by decide) (.same (.check _) fun _ => .same (.check _) fun _ =>
      .ite (fun _ => .pure fun _ _ => id) fun _ => ?_)
    exact .same (.accept _) fun _ => .ite (fun _ => .pure fun _ _ => id) fun _ =>
      .bind .advance fun _ _ => ih

theorem run_synchronize (r : Reader) (c : Checker) : synchronize r c = if r.recovering = true then
    (if r.previous.kind = .semicolon then .ok (((), { r with recovering := false }), c)
      else Grammar.skipStatement r.tokens.size r c >>= fun p => .ok
          (((), { p.1.2 with recovering := false }), p.2))
    else .ok (((), r), c) := by
  unfold synchronize
  rw [run_bind_eq]
  show (if (!r.recovering) = true then _ else _ : Parse Unit) r c = _
  cases r.recovering with
  | false => rfl
  | true =>
    show (if (r.previous.kind != .semicolon) = true then _ else _ : Parse Unit) r c = _
    by_cases ended : r.previous.kind = .semicolon
    · rw [if_neg (by simp [ended]), if_pos rfl, if_pos ended]
      rfl
    · rw [if_pos (by simpa using ended), if_pos rfl, if_neg ended]
      rfl

theorem synchronize : κ.Reads (κ.holds held) Grammar.synchronize Grammar.synchronize fun _ _ =>
    κ.holds held where
  meets r s c d beside known := by
    rw [run_synchronize, run_synchronize, beside.recovering, beside.previous.kind, beside.size]
    split
    · split
      · exact .inl ⟨beside.recover false, known⟩
      · refine ((skipStatement s.tokens.size).meets r s c d beside known).bind (fun _ => κ.blind)
          (fun p q after => .inl ⟨after.1.recover false, after.2⟩) ?_
        rintro q _ ⟨⟩ lost
        exact lost
    · exact .inl ⟨beside, known⟩
  stays s d _ s' d' run lost := by
    rw [run_synchronize] at run
    split at run
    · split at run
      · cases run
        exact lost
      · obtain ⟨⟨⟨_, s₁⟩, d₁⟩, skipped, rest⟩ := Guarded.bind_eq_ok.mp run
        cases rest
        have skip : κ.Reads (κ.holds []) _ _ _ := skipStatement s.tokens.size
        exact skip.stays s d _ s₁ _ skipped lost
    · cases run
      exact lost

end Recovery

/-! ## Types -/

section Types

variable (steps : κ.DeclarationSteps) {held : List (Handle × Handle)}

include steps

/-- A type is made and used. -/
theorem makeType {make : Session → Session × TypeId}
    (makes : Session.MakesType make) {f g : TypeId → Parse β} {R : β → β → Claim}
    (next : ∀ type, κ.Reads (κ.holds held) (f type) (g type) R) : κ.Reads (κ.holds held) (do
        let (s, id) := make (← Checker.currentSession)
        Checker.setSession s
        f id)
      (do
        let (s, id) := make (← Checker.currentSession)
        Checker.setSession s
        g id) R :=
  Reads.same (m := (liftM (Checker.makeType make) : Parse TypeId))
    (n := (liftM (Checker.makeType make) : Parse TypeId)) (.lift (steps.makeType makes)) next

theorem arrayOf (type : TypeId) :
    κ.Reads (κ.holds held) (Grammar.arrayOf type) (Grammar.arrayOf type) fun a b =>
    κ.knows (a = b) held :=
  makeType steps (.array type) fun _ => .pure fun _ _ known => ⟨rfl, known⟩

theorem typeNamed {t u : Token} (alike : t.Alike κ.place u) :
    κ.Reads (κ.holds held) (typeNamed? t) (typeNamed? u) fun a b => κ.knows (a = b) held := by
  unfold typeNamed?
  rw [alike.kind, alike.spelling]
  exact .ite (fun _ => .lift (steps.namedType _)) fun _ => .pure fun _ _ known => ⟨rfl, known⟩

theorem startsDeclaration :
    κ.Reads (κ.holds held) Grammar.startsDeclaration Grammar.startsDeclaration fun a b =>
    κ.knows (a = b) held := by
  refine .thread κ.alike_refl .current fun t u alike => ?_
  rw [alike.kind]
  refine .ite (fun _ => .pure fun _ _ known => ⟨rfl, known⟩) fun _ => ?_
  exact .same (typeNamed steps alike) fun _ => .pure fun _ _ known => ⟨rfl, known⟩

theorem stars {d e : Nat} (deep : κ.Deep d e) (type : TypeId) :
    κ.Reads (κ.holds held) (Grammar.stars d type) (Grammar.stars e type) fun a b =>
    κ.knows (a = b) held := by
  induction d generalizing e type with
  | zero => exact .endless deep rfl (by rintro rfl; rfl)
  | succ d ih =>
    obtain ⟨e, rfl, deeper⟩ := deep.succ
    refine .within (by decide) (.same (.accept _) fun found =>
      .ite (fun _ => .pure fun _ _ known => ⟨rfl, known⟩) fun _ => ?_)
    exact makeType steps (.pointer type) (ih deeper)

theorem fieldBounds {d e : Nat} (deep : κ.Deep d e) (type : TypeId) :
    κ.Reads (κ.holds held) (Grammar.fieldBounds d type) (Grammar.fieldBounds e type) fun a b =>
    κ.knows (a = b) held := by
  induction d generalizing e type with
  | zero => exact .endless deep rfl (by rintro rfl; rfl)
  | succ d ih =>
    obtain ⟨e, rfl, deeper⟩ := deep.succ
    refine .within (by decide) (.same (.accept _) fun found =>
      .ite (fun _ => .pure fun _ _ known => ⟨rfl, known⟩) fun _ => ?_)
    have rest : κ.Reads (κ.holds held)
        (do
          Grammar.want .rightBracket "]"
          Grammar.fieldBounds d (← Grammar.arrayOf type))
        (do
          Grammar.want .rightBracket "]"
          Grammar.fieldBounds e (← Grammar.arrayOf type)) fun a b => κ.knows (a = b) held :=
      .bind (want steps.toExpressionSteps _ _) fun _ _ => .same (arrayOf steps type) (ih deeper)
    refine .same (.check _) fun closed => .ite (fun _ => ?_) fun _ => rest
    refine .bind (expressionRules steps.toExpressionSteps deeper).conditionalExpression fun n m =>
      ?_
    exact rest.mono (fun _ _ => κ.drop (List.sublist_cons_self _ _)) fun _ _ _ _ => id

theorem fieldList {d e : Nat} (deep : κ.Deep d e) (base : TypeId) :
    κ.Reads (κ.holds held) (Grammar.fieldList d base) (Grammar.fieldList e base) fun a b =>
      κ.knows (List.Forall₂ κ.FieldAlike a b) held := by
  induction d generalizing e with
  | zero => exact .endless deep rfl (by rintro rfl; rfl)
  | succ d ih =>
    obtain ⟨e, rfl, deeper⟩ := deep.succ
    refine .within (by decide) (.same (stars steps deeper base) fun type =>
      .thread κ.alike_refl .current fun t u alike => ?_)
    refine expectElse steps.toExpressionSteps _ _ (fun _ _ known => ⟨.nil, known⟩)
      (.same (fieldBounds steps deeper type) fun type => ?_)
    have field : κ.FieldAlike ⟨t.spelling, type, t.loc⟩ ⟨u.spelling, type, u.loc⟩ :=
      ⟨alike.spelling, rfl, alike.loc⟩
    refine .same (.accept _) fun more => .ite (fun _ => ?_) fun _ => .pure fun _ _ known =>
      ⟨.cons field .nil, known⟩
    exact .thread (fields_refl κ) (ih deeper) fun a b rest => .pure fun _ _ known =>
      ⟨.cons field rest, known⟩

end Types

/-! ## Structures -/

/-- The rules of type specifiers side by side. -/
structure TypeRules (κ : Coupling) (d e : Nat) : Prop where
  typeSpecifier : ∀ {held}, κ.Reads (κ.holds held) (typeSpecifier d) (typeSpecifier e) fun a b =>
    κ.knows (a = b) held
  structureSpecifier : ∀ {held l l'}, κ.place l l' →
    κ.Reads (κ.holds held) (structureSpecifier d l) (structureSpecifier e l') fun a b =>
    κ.knows (a = b) held
  members : ∀ {held}, κ.Reads (κ.holds held) (members d) (members e) fun a b =>
    κ.knows (List.Forall₂ κ.FieldAlike a b) held

namespace TypeRules

variable (steps : κ.DeclarationSteps) {d e : Nat} (rules : κ.TypeRules d e)
    {held : List (Handle × Handle)}

include steps rules

theorem typeSpecifier_succ : κ.Reads (κ.holds held) (Grammar.typeSpecifier (d + 1))
    (Grammar.typeSpecifier (e + 1)) fun a b => κ.knows (a = b) held := by
  refine .within (by decide) (.thread κ.alike_refl .current fun t u alike => ?_)
  rw [alike.kind]
  split
  iterate 6 exact .bind .advance fun _ _ => .pure fun _ _ known => ⟨rfl, known⟩
  next =>
    exact .bind .advance fun _ _ => .same (rules.structureSpecifier alike.loc) fun _ =>
      .pure fun _ _ known => ⟨rfl, known⟩
  next =>
    refine .same (typeNamed steps alike) fun named => ?_
    cases named with
    | none => exact .pure fun _ _ known => ⟨rfl, known⟩
    | some type => exact .bind .advance fun _ _ => .pure fun _ _ known => ⟨rfl, known⟩

theorem structureSpecifier_succ {l l' : Location} (start : κ.place l l') : κ.Reads (κ.holds held)
    (Grammar.structureSpecifier (d + 1) l) (Grammar.structureSpecifier (e + 1) l') fun a b =>
      κ.knows (a = b) held := by
  refine .within (by decide) (.thread κ.alike_refl .current fun t u alike =>
    .same (.accept _) fun tagged => ?_)
  dsimp only
  rw [alike.spelling]
  refine .same (.accept _) fun opened => .ite (fun _ => .ite (fun _ => ?_) fun _ => ?_) fun _ => ?_
  · exact .lift (steps.structureOf _ alike.loc)
  · exact .bind (reportMissing steps.toExpressionSteps _) fun _ _ => .pure fun _ _ known =>
      ⟨rfl, known⟩
  · refine .thread (fields_refl κ) rules.members fun a b alike =>
      .bind (want steps.toExpressionSteps _ _) fun _ _ => ?_
    exact .thread κ.refl (.spanFrom start) fun _ _ span =>
      .lift (steps.declareStructure _ alike span)

theorem members_succ (deep : κ.Deep d e) :
    κ.Reads (κ.holds held) (Grammar.members (d + 1)) (Grammar.members (e + 1)) fun a b =>
      κ.knows (List.Forall₂ κ.FieldAlike a b) held := by
  refine .withinMembers (d + 1) rfl (.same (.check _) fun _ => .same (.check _) fun _ =>
    .ite (fun _ => ?_) fun _ => ?_)
  · exact .pure fun _ _ known => ⟨.nil, known⟩
  refine .same rules.typeSpecifier fun base => ?_
  cases base with
  | none =>
    exact .bind (reportMissing steps.toExpressionSteps _) fun _ _ => .bind synchronize fun _ _ =>
      rules.members
  | some base =>
    refine .thread (fields_refl κ) (fieldList steps deep base) fun a b first =>
      .bind (want steps.toExpressionSteps _ _) fun _ _ => ?_
    refine .bind synchronize fun _ _ => .thread (fields_refl κ) rules.members fun as bs rest => ?_
    exact .pure fun _ _ known => ⟨List.rel_append first rest, known⟩

end TypeRules

/-- Type specifiers are read side by side, however deep they nest. -/
theorem typeRules (steps : κ.DeclarationSteps) {d e : Nat} (deep : κ.Deep d e) :
    κ.TypeRules d e := by
  induction d generalizing e with
  | zero =>
    exact {
      typeSpecifier := .endless deep rfl (by rintro rfl; rfl)
      structureSpecifier := fun _ => .endless deep rfl (by rintro rfl; rfl)
      members := .endless deep rfl (by rintro rfl; rfl) }
  | succ d ih =>
    obtain ⟨e, rfl, deeper⟩ := deep.succ
    have rules := ih deeper
    exact {
      typeSpecifier := rules.typeSpecifier_succ steps
      structureSpecifier := rules.structureSpecifier_succ steps
      members := rules.members_succ steps deeper }

/-! ## Variables -/

section Variables

variable (steps : κ.DeclarationSteps) {d e : Nat} (deep : κ.Deep d e)
    {held : List (Handle × Handle)}

include steps deep

theorem bounds (type : TypeId) :
    κ.Reads (κ.holds held) (Grammar.bounds d type) (Grammar.bounds e type) fun a b =>
    κ.knows (a.1.length = b.1.length ∧ a.2 = b.2) (pairs a.1 b.1 ++ held) := by
  induction d generalizing e held type with
  | zero => exact .endless deep rfl (by rintro rfl; rfl)
  | succ d ih =>
    obtain ⟨e, rfl, deeper⟩ := deep.succ
    refine .within (by decide) (.thread κ.alike_refl .current fun opening opening' opens =>
      .same (.accept _) fun found => ?_)
    refine .ite (fun _ => .pure fun _ _ known => ⟨⟨rfl, rfl⟩, known⟩) fun _ =>
      .same (.check _) fun bare => ?_
    -- What comes behind a bound that was read.
    have rest (n m : Handle) : κ.Reads (κ.holds ((n, m) :: held))
        (do
          Grammar.want .rightBracket "]"
          let more ← Grammar.bounds d (← Grammar.arrayOf type)
          return (n :: more.1, more.2))
        (do
          Grammar.want .rightBracket "]"
          let more ← Grammar.bounds e (← Grammar.arrayOf type)
          return (m :: more.1, more.2)) fun a b =>
            κ.knows (a.1.length = b.1.length ∧ a.2 = b.2) (pairs a.1 b.1 ++ held) := by
      refine .bind (want steps.toExpressionSteps _ _) fun _ _ =>
        .same (arrayOf steps type) fun type => ?_
      refine .thread (V := fun a b => a.1.length = b.1.length ∧
        a.2 = b.2) (fun _ => ⟨rfl, rfl⟩) (ih deeper type) fun a b alike => ?_
      exact .pure fun _ _ known => ⟨⟨by simp [alike.1], alike.2⟩, by rwa [pairs_cons]⟩
    split
    · refine .thread κ.alike_refl .current fun close close' closes => .bind (.lift ?_) rest
      exact steps.emptyBound (κ.span opens.loc closes.loc)
    · exact .bind (expressionRules steps.toExpressionSteps deeper).conditionalExpression rest

theorem declarator (type : TypeId) :
    κ.Reads (κ.holds held) (Grammar.declarator d type) (Grammar.declarator e type) fun n m =>
    κ.holds ((n, m) :: held) := by
  refine .within (by decide) (.thread κ.alike_refl .current fun t u alike => ?_)
  refine expectElse steps.toExpressionSteps _ _ (fun _ _ => κ.push) ?_
  refine .thread (V := fun a b => a.1.length = b.1.length ∧ a.2 = b.2) (fun _ => ⟨rfl, rfl⟩)
    (bounds steps deep type) ?_
  rintro ⟨ns, type⟩ ⟨ms, type'⟩ ⟨length, rfl⟩
  dsimp only
  rw [alike.spelling]
  refine .same (.lift (steps.declareVariable _ _ alike.loc)) fun id =>
    .same (.accept _) fun hasInit => ?_
  have rest (n m : Handle) : κ.Reads (κ.holds ((n, m) :: (pairs ns ms ++ held)))
      (do Checker.variableDeclaration id ns n hasInit (← Grammar.spanFrom t.loc))
      (do Checker.variableDeclaration id ms m hasInit (← Grammar.spanFrom u.loc)) fun n m =>
      κ.holds ((n, m) :: held) :=
    .thread κ.refl (.spanFrom alike.loc) fun _ _ span =>
      .lift (steps.variableDeclaration id ns ms n m hasInit length span)
  split
  · exact .bind (initializerRules steps.toExpressionSteps deep).1 rest
  · exact .bind (.pure fun _ _ => κ.push) rest

theorem declaratorList (base : TypeId) : κ.Reads (κ.holds held) (Grammar.declaratorList d base)
    (Grammar.declaratorList e base) fun ns ms => κ.lists ns ms held := by
  induction d generalizing e held with
  | zero => exact .endless deep rfl (by rintro rfl; rfl)
  | succ d ih =>
    obtain ⟨e, rfl, deeper⟩ := deep.succ
    refine .within (by decide) (.same (stars steps deeper base) fun type =>
      .bind (declarator steps deeper type) fun n m => ?_)
    exact .same (.accept _) fun more => .ite (fun _ => lists_cons (ih deeper)) fun _ =>
      .pure lists_one

theorem restOfDeclaration (base : TypeId) {l l' : Location} (start : κ.place l l') :
    κ.Reads (κ.holds held) (Grammar.restOfDeclaration d base l)
    (Grammar.restOfDeclaration e base l') fun n m =>
      κ.holds ((n, m) :: held) := by
  refine .within (by decide) (.same (.check _) fun none => ?_)
  have rest (ns ms : List Handle) (length : ns.length = ms.length) :
      κ.Reads (κ.holds (pairs ns ms ++ held)) (do
        Grammar.want .semicolon ";"
        Checker.declaration ns (← Grammar.spanFrom l))
      (do
        Grammar.want .semicolon ";"
        Checker.declaration ms (← Grammar.spanFrom l')) fun n m => κ.holds ((n, m) :: held) := by
    refine .bind (want steps.toExpressionSteps _ _) fun _ _ =>
      .thread κ.refl (.spanFrom start) fun _ _ span => ?_
    exact .lift (steps.declaration ns ms length span)
  split
  · exact .thread (V := fun ns ms => ns.length = ms.length) (fun _ => rfl) (.pure lists_nil) rest
  · exact .thread (V := fun ns ms => ns.length = ms.length) (fun _ => rfl)
      (declaratorList steps deep base) rest

theorem restOfTypedef {l l' : Location} (start : κ.place l l') :
    κ.Reads (κ.holds held) (Grammar.restOfTypedef d l) (Grammar.restOfTypedef e l') fun n m =>
    κ.holds ((n, m) :: held) := by
  refine .within (by decide) (.same (typeRules steps deep).typeSpecifier fun base => ?_)
  cases base with
  | none => exact .bind (reportMissing steps.toExpressionSteps _) fun _ _ => .pure fun _ _ => κ.push
  | some base =>
    refine .same (stars steps deep base) fun type =>
      .thread κ.alike_refl .current fun t u alike => ?_
    refine expectElse steps.toExpressionSteps _ _ (fun _ _ => κ.push)
      (.bind (want steps.toExpressionSteps _ _) fun _ _ => ?_)
    rw [alike.spelling]
    refine .bind (.lift (steps.typeDefinition type _ alike.loc)) fun n m =>
      .thread κ.refl (.spanFrom start) fun _ _ span => ?_
    exact .lift (steps.declaration [n] [m] rfl span)

theorem declaration :
    κ.Reads (κ.holds held) (Grammar.declaration d) (Grammar.declaration e) fun n m =>
    κ.holds ((n, m) :: held) := by
  refine .within (by decide) (.thread κ.alike_refl .current fun t u alike =>
    .same (.accept _) fun named => .ite (fun _ => ?_) fun _ => ?_)
  · exact restOfTypedef steps deep alike.loc
  · refine .same (typeRules steps deep).typeSpecifier fun base => ?_
    cases base with
    | none =>
      exact .bind (reportMissing steps.toExpressionSteps _) fun _ _ => .pure fun _ _ => κ.push
    | some base => exact restOfDeclaration steps deep base alike.loc

end Variables

/-! ## Parameters -/

section Parameters

variable (steps : κ.DeclarationSteps) {d e : Nat} (deep : κ.Deep d e)
    {held : List (Handle × Handle)}

include steps deep

theorem parameterBounds (type : TypeId) : κ.Reads (κ.holds held) (Grammar.parameterBounds d type)
    (Grammar.parameterBounds e type) fun a b => κ.knows (a = b) held := by
  induction d generalizing e type with
  | zero => exact .endless deep rfl (by rintro rfl; rfl)
  | succ d ih =>
    obtain ⟨e, rfl, deeper⟩ := deep.succ
    refine .within (by decide) (.same (.accept _) fun found =>
      .ite (fun _ => .pure fun _ _ known => ⟨rfl, known⟩) fun _ => ?_)
    exact .bind (want steps.toExpressionSteps _ _) fun _ _ => .same (arrayOf steps type) (ih deeper)

theorem parameterList :
    κ.Reads (κ.holds held) (Grammar.parameterList d) (Grammar.parameterList e) fun a b =>
    κ.knows (List.Forall₂ κ.ParameterAlike a b) held := by
  induction d generalizing e with
  | zero => exact .endless deep rfl (by rintro rfl; rfl)
  | succ d ih =>
    obtain ⟨e, rfl, deeper⟩ := deep.succ
    refine .within (by decide) (.thread κ.alike_refl .current fun first first' starts => ?_)
    refine .same (typeRules steps deeper).typeSpecifier fun base => ?_
    cases base with
    | none =>
      exact .bind (reportMissing steps.toExpressionSteps _) fun _ _ => .pure fun _ _ known =>
        ⟨.nil, known⟩
    | some base =>
      refine .same (stars steps deeper base) fun type =>
        .thread κ.alike_refl .current fun t u alike => .same (.accept _) fun named => ?_
      refine .same (parameterBounds steps deeper type) fun type => .same (.accept _) fun more => ?_
      have one : κ.ParameterAlike
          (if named = true then ⟨t.spelling, type, t.loc⟩ else ⟨0, type, first.loc⟩)
          (if named = true then ⟨u.spelling, type, u.loc⟩ else ⟨0, type, first'.loc⟩) := by
        split
        · exact ⟨alike.spelling, rfl, alike.loc⟩
        · exact ⟨rfl, rfl, starts.loc⟩
      refine .ite (fun _ => ?_) fun _ => .pure fun _ _ known => ⟨.cons one .nil, known⟩
      exact .thread (parameters_refl κ) (ih deeper) fun a b rest => .pure fun _ _ known =>
        ⟨.cons one rest, known⟩

theorem parameters : κ.Reads (κ.holds held) (Grammar.parameters d) (Grammar.parameters e) fun a b =>
    κ.knows (List.Forall₂ κ.ParameterAlike a b) held := by
  refine .within (by decide) (.same (.check _) fun closed =>
    .ite (fun _ => .pure fun _ _ known => ⟨.nil, known⟩) fun _ => ?_)
  refine .same (.check _) fun lone => .thread κ.alike_refl .peek fun t u alike => ?_
  rw [alike.kind]
  exact .ite (fun _ => .bind .advance fun _ _ => .pure fun _ _ known => ⟨.nil, known⟩) fun _ =>
    parameterList steps deep

end Parameters

end Coupling

end BilingualC
