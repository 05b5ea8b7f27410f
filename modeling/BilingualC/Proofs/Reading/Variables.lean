import Mathlib
import BilingualC.Proofs.Reading.Declarations

/-!
# Reading variables and parameters

A declaration leaves its node, whatever was written in it. A variable that is refused leaves a
broken node below its bounds and its initializer, which are taken off with it. The parameters of a
function are no nodes: what is known of them is that their types are known and their names are
stored.
-/

namespace BilingualC

open Guarded Pending

variable {β : Type} {ok : Fault → Prop}

namespace At

variable {σ : Course} {low p depth : Nat} {items more : List Pending} {r r' : Reader}
    {c c' : Checker} {opening : Location} {R : β → Reader → Checker → Prop} {id : Int}

open Grammar

/-- A name that is read is stored. -/
theorem stored (held : At ok σ low items r c) (tok : Token) (mem : tok ∈ σ.tokens)
    (name : tok.kind = .identifier) : ok .badIndex ∨ c.session.spellings.has tok.spelling = true :=
  held.spelled.imp_right fun spelled => spelled tok mem name

/-- A refused declaration may stand below what was read for it. -/
theorem refused_below (post : List Pending)
    (held : At ok σ low (Pending.refused id ++ (post ++ items)) r c) :
    At ok σ low (post ++ (Pending.refused id ++ items)) r c := by
  unfold Pending.refused at held ⊢
  split at held
  next zero =>
    rw [if_pos zero]
    exact giveUp post [] held.marked.1 held.marked.2
  next some =>
    rw [if_neg some]
    exact held

/-- The bound of an array with the brackets around it. An open one ends with the closing bracket,
which is still to be passed when its node is made. -/
theorem reads_bound {f : Handle → Parse β} (held : At ok σ low (.token opening :: items) r c)
    (near : Loose ok ∨ opening.Near) (ready : MayStart ok σ .conditionalExpression low depth)
    (next : ∀ n r' c', At ok σ low (.value n :: items) r' c' → Reads ok (f n) r' c' R) :
    Reads ok (do
        let bound ← if ← check .rightBracket
          then Checker.emptyBound (Location.span opening (← current).loc)
          else conditionalExpression depth
        want .rightBracket "]"
        f bound)
      r c R := by
  refine reads_is (.ite (fun close => ?_) fun _ => ?_)
  · have close : r.current.kind = .rightBracket := by simpa using close
    have passed := held.advance (by simp [close])
    refine reads_current
      (reads_check (passed.emptyBound (or_and near held.near)) fun n c' held' => ?_)
    exact reads_want_found close (next n _ c' (held'.lower (held.reader.low.trans (Nat.le_succ _))))
  · refine Reads.bind ((expressionLeads ok depth).conditionalExpression held ready)
      fun n r c held => ?_
    refine held.reads_want (by decide) fun r c held _ => next n r c ?_
    exact At.forget [_] (held.pop rfl) rfl

end At

namespace Grammar

variable {σ : Course} {low depth : Nat} {items : List Pending} {r : Reader} {c : Checker}
    {type base : TypeId} {start : Location}

/-! ## Variables -/

theorem reads_bounds (held : At ok σ low (.known (fun s => s.types.Named type) :: items) r c)
    (ready : MayStart ok σ .bounds low depth) : Reads ok (bounds depth type) r c fun out r' c' =>
      At ok σ low (.known (fun s => s.types.Named out.2) :: (each true out.1 ++ items)) r' c' := by
  induction depth generalizing σ low r c type items with
  | zero => exact reads_throw (ready.endless held.inside)
  | succ depth ih =>
    refine reads_body (fun low σ (out : List Handle × TypeId) r' c' =>
      At ok σ low (.known (fun s => s.types.Named out.2) :: (each true out.1 ++ items)) r' c') held
      ready ?inner fun out r' c' after => (after.leave held.course).lower held.reader.low
    intro r₁ pos _ inside allowed
    have on (rule : Rule) := allowed.on (le_refl _) inside.inside rule
    have near := inside.near
    refine reads_current (inside.reads_accept (by decide) (fun r₂ _ _ _ held => ?_) fun _ =>
      reads_pure inside)
    refine held.reads_bound near (on _) fun n r₃ c₃ held => ?_
    have named := held.fact (List.mem_cons_of_mem _ List.mem_cons_self)
    refine ((At.forget [_] held rfl).know (Session.lasting_named type) named).reads_arrayOf
      fun id c₄ held => ?_
    have known := (held.pop rfl).know (Session.lasting_named id) (held.fact List.mem_cons_self).1
    refine Reads.bind (ih known (on _)) fun out r₅ c₅ held => reads_pure ?_
    obtain ⟨rest, type⟩ := out
    rw [each_cons]
    exact held.lower (Nat.le_succ _)

theorem leads_declarator (depth : Nat) (type : TypeId) : Rule.declarator.Leads ok depth
    (declarator depth type) [.known fun s => s.types.Named type] fun n => [.node n] := by
  refine leads_within fun σ items r c held allowed => reads_current ?_
  have near := held.near
  have mem := held.current_mem
  have on (rule : Rule) := allowed.on (Nat.le_succ _) held.inside rule
  refine held.reads_expect (by decide) (fun r₁ name _ held => ?_) fun r₁ c₁ held error =>
    reads_pure (At.giveUp [] [_] held error)
  have named := held.fact (List.mem_cons_of_mem _ List.mem_cons_self)
  have known := (At.forget [_] held rfl).know (Session.lasting_named type) named
  refine Reads.bind (reads_bounds known (on _)) fun out r₂ c₂ held => ?_
  obtain ⟨bounds, type⟩ := out
  have stored := held.stored _ mem name
  refine reads_check ((held.pop rfl).declareVariable (held.fact List.mem_cons_self) near stored)
    fun id c₃ held => ?_
  have held := held.refused_below (each true bounds)
  -- What is left of the declaration after its initializer.
  have ends {hasInit : Bool} {init : Handle} {r' : Reader} {c' : Checker} (absent : hasInit = false
      → init = .broken) (held : At ok (σ.enter .declarator r.pos) (r.pos + 1) (written true hasInit
      init ++ (each true bounds ++ (Pending.refused id ++ .token r.current.loc :: items))) r' c') :=
    (held.variableDeclaration absent near).mono fun n c held => held.lower (Nat.le_succ _)
  refine held.reads_accept (by decide) (fun r₃ _ _ _ held => ?_) fun _ => ?_
  · refine Reads.optional (P := fun init r' c' => At ok _ (r.pos + 1) (.value init :: _) r' c')
      (fun _ next => ?_) nofun fun init r₄ c₄ held => reads_spanFrom (reads_lift (ends nofun held))
    exact Reads.bind
      ((initializerLeads ok depth).initializer ((held.pop rfl).lower (Nat.le_succ _)) (on _)) next
  · refine Reads.optional (P := fun init r' c' => init = .broken ∧
      At ok _ (r.pos + 1) _ r' c') nofun (fun _ => ⟨rfl, held⟩) fun init r₄ c₄ known =>
      reads_spanFrom (reads_lift (ends (fun _ => known.1) known.2))

theorem leads_declaratorList (depth : Nat) (base : TypeId) : Rule.declaratorList.Leads ok depth
    (declaratorList depth base) [.known fun s => s.types.Named base] fun ns => each false ns := by
  induction depth with
  | zero => exact leads_endless rfl
  | succ depth ih =>
    refine leads_within fun σ items r c held allowed => ?_
    have on (rule : Rule) := allowed.on (le_refl _) held.inside rule
    have both := held.know (Session.lasting_named base) (held.fact List.mem_cons_self)
    refine Reads.bind (reads_stars both (allowed.down (le_refl _) (by decide))) ?_
    rintro type r₁ c₁ ⟨held, _⟩
    refine Reads.bind (leads_declarator depth type held (allowed.down (le_refl _) (by decide)))
      fun first r₂ c₂ held => ?_
    have named := held.fact (List.mem_cons_of_mem _ List.mem_cons_self)
    have held : At ok _ _ (.node first :: items) r₂ c₂ := At.forget [_] held rfl
    refine held.reads_accept (by decide) (fun r₃ _ _ _ held => ?_) fun _ => reads_pure held
    refine Reads.bind (ih ((held.pop rfl).know (Session.lasting_named base) named) (on _))
      fun rest r₄ c₄ held => reads_pure ?_
    rw [each_cons]
    exact held.lower (Nat.le_succ _)

theorem leads_restOfDeclaration (depth : Nat) (base : TypeId) (start : Location) :
    Rule.restOfDeclaration.Leads ok depth (restOfDeclaration depth base start)
      [.known fun s => s.types.Named base, .token start] fun n => [.node n] := by
  refine leads_within fun σ items r c held allowed => ?_
  -- The end of the declaration, whichever parts it has.
  have ends {r' : Reader} {c' : Checker} (parts : List Handle) (held : At ok
      (σ.enter .restOfDeclaration r.pos) r.pos (each false parts ++ .token start :: items) r' c') :
      Reads ok (do
        want .semicolon ";"
        Checker.declaration parts (← spanFrom start))
      r' c' fun n r'' c'' =>
        At ok (σ.enter .restOfDeclaration r.pos) r.pos (.node n :: items) r'' c'' :=
    held.reads_want (by decide) fun r₂ c₂ held _ =>
      reads_spanFrom (reads_lift (held.pop rfl).declaration)
  refine reads_is (.ite (fun _ => ends [] (held.pop rfl)) fun _ => ?_)
  refine Reads.bind (leads_declaratorList depth base held
    (allowed.down (Nat.le_succ _) (by decide))) fun parts r₁ c₁ held => ?_
  exact ends parts held

theorem leads_restOfTypedef (depth : Nat) (start : Location) :
    Rule.restOfTypedef.Leads ok depth (restOfTypedef depth start) [.token start] fun n =>
    [.node n] := by
  refine leads_within fun σ items r c held allowed => ?_
  have on (rule : Rule) := allowed.on (Nat.le_succ _) held.inside rule
  refine Reads.bind ((specifierReads ok depth).typeSpecifier held
    (allowed.down (Nat.le_succ _) (by decide))) fun out r₁ c₁ specified => ?_
  cases out with
  | none =>
    exact specified.1.reads_reportMissing fun j held error =>
      reads_pure (At.giveUp [] [_] held error)
  | some base =>
    have held := At.forget [_] specified rfl
    refine Reads.bind (reads_stars held (on _)) ?_
    rintro type r₂ c₂ ⟨held, _⟩
    refine reads_current ?_
    have near := held.near
    have mem := held.current_mem
    refine held.reads_expect (by decide) (fun r₃ name _ held => ?_) fun r₃ c₃ held error =>
      reads_pure ((At.giveUp [] [_, _] held error).lower (Nat.le_succ _))
    refine held.reads_want (by decide) fun r₄ c₄ held _ => ?_
    have held := held.pop rfl
    have named : c₄.session.types.Named type :=
      held.fact (List.mem_cons_of_mem _ List.mem_cons_self)
    refine reads_check (held.typeDefinition named near (held.stored _ mem name)) fun part c₅ held =>
      ?_
    have held : At ok _ _ (each false [part] ++ .token start :: items) r₄ c₅ :=
      At.forget [_] held rfl
    exact reads_spanFrom (reads_lift (held.declaration.mono fun n c held => held.lower (by omega)))

theorem leads_declaration (depth : Nat) :
    Rule.declaration.Leads ok depth (declaration depth) [] fun n => [.node n] := by
  refine leads_within fun σ items r c held allowed => reads_current ?_
  have on (rule : Rule) := allowed.on (Nat.le_succ _) held.inside rule
  refine held.reads_accept (by decide) (fun r₁ _ _ _ held => ?_) fun _ => ?_
  · exact (leads_restOfTypedef depth _ held (on _)).mono fun n r c held =>
      held.lower (Nat.le_succ _)
  refine Reads.bind ((specifierReads ok depth).typeSpecifier held
    (allowed.down (Nat.le_succ _) (by decide))) fun out r₁ c₁ specified => ?_
  cases out with
  | none =>
    exact specified.1.reads_reportMissing fun j held error =>
      reads_pure (At.giveUp [] [] held error)
  | some base =>
    exact (leads_restOfDeclaration depth base _ specified (on _)).mono fun n r c held =>
      held.lower (Nat.le_succ _)

/-! ## Parameters -/

theorem leads_parameterBounds (depth : Nat) (type : TypeId) :
    Rule.parameterBounds.Leads ok depth (parameterBounds depth type)
    [.known fun s => s.types.Named type] fun id => [.known fun s => s.types.Named id] := by
  induction depth generalizing type with
  | zero => exact leads_endless rfl
  | succ depth ih =>
    refine leads_within fun σ items r c held allowed =>
      held.reads_accept (by decide) (fun r₁ _ _ _ held => ?_) fun _ => reads_pure held
    have on (rule : Rule) := allowed.on (le_refl _) (Nat.lt_of_succ_lt held.inside) rule
    refine (held.pop rfl).reads_want (by decide) fun r₂ c₂ held _ =>
      (held.pop rfl).reads_arrayOf fun id c₃ held => ?_
    have known := (held.pop rfl).know (Session.lasting_named id) (held.fact List.mem_cons_self).1
    exact (ih id known (on _)).mono fun _ _ _ held => held.lower (Nat.le_succ _)

/-- What parameters leave: they are received, and not more than tokens were passed. -/
def ParametersLeft (ok : Fault → Prop) (items : List Pending) (low : Nat) (σ : Course)
    (parameters : List Checker.Parameter) (r : Reader) (c : Checker) : Prop :=
  (∀ p ∈ parameters, Loose ok ∨ p.loc.Near) ∧
    At ok σ (low + parameters.length) (.known (Session.Receives ok parameters) :: items) r c

theorem ParametersLeft.leave {rule : Rule} {pos : Nat}
    {parameters : List Checker.Parameter} (good : σ.Good ok) (le : low ≤ pos)
    (left : ParametersLeft ok items pos (σ.enter rule pos) parameters r c) :
    ParametersLeft ok items low σ parameters { r with trail := σ.trail } c :=
  ⟨left.1, (left.2.leave good).lower (by omega)⟩

theorem parametersLeft_nil (held : At ok σ low items r c) : ParametersLeft ok items low σ [] r c :=
  ⟨nofun, held.know (Session.lasting_receives []) nofun⟩

theorem reads_parameterList (held : At ok σ low items r c)
    (ready : MayStart ok σ .parameterList low depth) :
    Reads ok (parameterList depth) r c (ParametersLeft ok items low σ) := by
  induction depth generalizing σ low r c items with
  | zero => exact reads_throw (ready.endless held.inside)
  | succ depth ih =>
    refine reads_body (ParametersLeft ok items) held ready ?inner fun parameters r' c' left =>
      left.leave held.course held.reader.low
    intro r₁ pos _ inside allowed
    refine reads_current ?_
    have on (rule : Rule) := allowed.on (le_refl _) inside.inside rule
    have startNear := inside.near
    -- What comes behind a parameter.
    have rest {r : Reader} {c : Checker} (p : Checker.Parameter) (near : Loose ok ∨ p.loc.Near)
        (received : Session.Receives ok [p] c.session)
        (held : At ok (σ.enter .parameterList r₁.pos) (r₁.pos + 1) items r c) :
        Reads ok (do if ← accept .comma then return p :: (← parameterList depth) else return [p])
        r c (ParametersLeft ok items r₁.pos (σ.enter .parameterList r₁.pos)) := by
      have one := held.know (Session.lasting_receives [p]) received
      refine one.reads_accept (by decide) (fun r₂ _ _ _ held => ?_) fun _ =>
        reads_pure ⟨List.forall_mem_singleton.mpr near, one⟩
      refine Reads.bind (ih ((held.pop rfl).lower (Nat.le_succ _)) (on _)) ?_
      rintro others r₃ c₃ ⟨nears, held⟩
      refine reads_pure ?_
      refine ⟨List.forall_mem_cons.mpr ⟨near, nears⟩, ?_⟩
      have first := held.fact (List.mem_cons_of_mem _ List.mem_cons_self) p List.mem_cons_self
      have all : Session.Receives ok (p :: others) c₃.session :=
        List.forall_mem_cons.mpr ⟨first, held.fact List.mem_cons_self⟩
      refine ((At.forget [] (held.pop rfl) rfl).know (Session.lasting_receives _) all).lower ?_
      rw [List.length_cons]
      omega
    refine Reads.bind ((specifierReads ok depth).typeSpecifier inside
      (allowed.down (le_refl _) (by decide))) fun out r₂ c₂ specified => ?_
    cases out with
    | none =>
      exact specified.1.reads_reportMissing fun j held _ => reads_pure (parametersLeft_nil held)
    | some base =>
      refine Reads.bind (reads_stars (At.forget [_] specified rfl) (on _)) ?_
      rintro type r₃ c₃ ⟨held, _⟩
      refine reads_current ?_
      have near := held.near
      have mem := held.current_mem
      refine held.reads_accept (by decide) (fun r₄ name _ _ held => ?_) fun _ => ?_
      · refine Reads.bind (leads_parameterBounds depth type ((held.pop rfl).lower (Nat.le_succ _))
          (on _)) fun id r₅ c₅ held => ?_
        refine rest _ near (List.forall_mem_singleton.mpr ⟨held.fact List.mem_cons_self, .inr ?_⟩)
          (held.pop rfl)
        exact held.stored _ mem name
      · refine Reads.bind (leads_parameterBounds depth type held (on _)) fun id r₅ c₅ held => ?_
        exact rest _ startNear
          (List.forall_mem_singleton.mpr ⟨held.fact List.mem_cons_self, .inl rfl⟩) (held.pop rfl)

theorem reads_parameters (held : At ok σ low items r c)
    (ready : MayStart ok σ .parameters low depth) :
    Reads ok (parameters depth) r c (ParametersLeft ok items low σ) := by
  refine reads_body (ParametersLeft ok items) held ready ?inner fun parameters r' c' left =>
    left.leave held.course held.reader.low
  intro r₁ pos _ inside allowed
  refine reads_is (.ite (fun _ => reads_pure (parametersLeft_nil inside)) fun _ =>
    reads_is (reads_peek (.ite (fun lone => ?_) fun _ => ?_)))
  · have kind : r₁.current.kind = .voidWord := by simpa using (Bool.and_eq_true_iff.mp lone).1
    refine inside.reads_advance (by simp [kind]) fun r₂ _ _ held =>
      reads_pure (parametersLeft_nil ?_)
    exact (held.pop rfl).lower (Nat.le_succ _)
  · exact reads_parameterList inside (allowed.down (Nat.le_succ _) (by decide))

end Grammar

end BilingualC
