import Mathlib
import BilingualC.Proofs.Checker.Program
import BilingualC.Proofs.Grammar.Statement

/-!
# What grammar rules of programs do

Between the declarations of a program nothing waits, whatever was declared. The body of a function
leaves one statement, of which the definition of the function is made. A program that is read
without an error is complete (`Grammar.parse_complete`).
-/

namespace BilingualC

namespace Grammar

open Checker Rose Session

/-! ## Between declarations -/

namespace Claim

/-- Nothing waits between the parts of the program, and a fact is known. -/
def outside (P : Session → Prop) : Claim where
  holds w _ c := OutsideWith w.parts P c
  absorbs := .inl

/-- The body of a function can start. -/
def inside (id : Int) : Claim where
  holds w _ c := c.Dirty ∨ ∃ more, c.Inside (w.parts ++ more) id
  absorbs := .inl

/-- The body of a function waits. -/
def body (id : Int) (n : Handle) : Claim where
  holds w _ c := c.Dirty ∨ ∃ b more r, Inside (w.parts ++ more) id b ∧
    c.Stands ⟨b, w.parts ++ more⟩ [r] ∧ c.Fits [.statement false false n] [r]
  absorbs := .inl

end Claim

namespace Does

variable {α : Type} {m : Parse α} {P : Session → Prop} {Q : α → Session → Prop}

/-- A step that leaves nothing behind stays between the parts. -/
theorem outside (does : Does (.fact P) m fun a => .fact (Q a)) :
    Does (.outside P) m fun a => .outside (Q a) := by
  intro r c a r' c' run recovers
  obtain ⟨recovers', dirty, holds⟩ := does r c a r' c' run recovers
  exact ⟨recovers', dirty, fun _ _ known => Leads.outer holds known⟩

/-- A declaration becomes a part. -/
theorem part {m : Parse Handle} {Q : Handle → Session → Prop}
    (does : Does (.fact P) m fun n => .known (Q n) [⟨n, IsDeclaration⟩]) :
    Does (.outside P) m fun n => .outside (Q n) := by
  intro r c a r' c' run recovers
  obtain ⟨recovers', dirty, holds⟩ := does r c a r' c' run recovers
  exact ⟨recovers', dirty, fun _ _ known => Leads.declared holds known⟩

/-- A rule ends between the parts. -/
theorem done {a : α} : Does (.outside P) (Pure.pure a) fun _ => .outside fun _ => True := by
  have here : Does (.outside P) (Pure.pure a) fun _ => .outside P := .pure rfl
  exact here.imp (fun _ _ _ known => known) fun _ _ _ _ known =>
    known.imp_right fun known => known.imp fun _ outer => ⟨outer.1, True.intro⟩

/-- The body of a function. -/
theorem inside {id : Int} {m : Parse Handle} (does : Does (.slots []) m .statement) :
    Does (.inside id) m (.body id) := by
  intro r c n r' c' run recovers
  obtain ⟨recovers', dirty, holds⟩ := does r c n r' c' run recovers
  refine ⟨recovers', dirty, fun w _ known => ?_⟩
  obtain error | ⟨more, inside⟩ := known
  · exact .inl (dirty error)
  · refine (holds ⟨c, w.parts ++ more⟩ [] (.inr ⟨[], inside.stands, .nil, True.intro⟩)).imp_right ?_
    rintro ⟨trees, stands, fits, -⟩
    obtain ⟨x, rfl, named, form⟩ := fits_one.mp fits
    have loops : World.inLoop ⟨c, w.parts ++ more⟩ = false := by simp [World.inLoop, inside.loops]
    have switches : World.inSwitch ⟨c, w.parts ++ more⟩ = false := by
      simp [World.inSwitch, inside.switches]
    rw [loops, switches] at form
    exact ⟨c, more, x, inside, stands, fits_one.mpr ⟨x, rfl, named, form⟩⟩

end Does

/-! ## Functions -/

/-- The start of the definition of a function. -/
theorem does_beginFunction (id : Int) (parameters : List Parameter) (loc : Location) :
    Does (.outside fun s => NamesFunction id s ∧ ParametersRead parameters s)
    (liftM (beginFunction id parameters loc)) fun _ => .inside id :=
  .lift (fun run => (of_run (beginFunction_spec id parameters loc) run).1) fun run w _ =>
    (of_run (beginFunction_spec id parameters loc) run).2 w.parts

/-- The end of the definition of a function. -/
theorem does_functionDefinition (id : Int) (scope : Scope) (n : Handle) (loc : Location) :
    Does (.body id n) (liftM (functionDefinition id scope n loc)) fun _ =>
    .outside fun _ => True := by
  refine .lift (fun run => (of_run (functionDefinition_spec id scope n loc) run).1)
    fun run w _ known => ?_
  obtain ⟨dirty, finishes⟩ := of_run (functionDefinition_spec id scope n loc) run
  obtain error | ⟨b, more, r, inside, stands, fits⟩ := known
  · exact .inl (dirty error)
  · refine (finishes b _ r inside stands fits).imp_right ?_
    rintro ⟨f, outer⟩
    exact ⟨more ++ [f], List.append_assoc w.parts more [f] ▸ outer, True.intro⟩

/-- A function after its parameters. -/
theorem does_functionTail (depth : Nat) (name : Token)
    (parameters : List Parameter) (type : TypeId) (start : Location) :
    Does (.outside fun s => IsFunctionType type s ∧ ParametersRead parameters s) (do
        let id ← Checker.declareFunction name.spelling type name.loc
        if ← accept .semicolon then return
        if !(← check .leftBrace) then
          reportMissing "\x7b"
          return
        let scope ← Checker.beginFunction id parameters name.loc
        let body ← blockBody depth
        let _ ← Checker.functionDefinition id scope body (← spanFrom start))
      fun _ => .outside fun _ => True := by
  have declared : Does (.fact fun s => IsFunctionType type s ∧ ParametersRead parameters s)
    (liftM (declareFunction name.spelling type name.loc)) fun id => .fact fun s =>
    NamesFunction id s ∧ ParametersRead parameters s :=
    Does.frame (.leads fun run => (of_run (declareFunction_spec name.spelling type name.loc) run :))
      (stable_parametersRead parameters)
  refine .bind declared.outside fun id => .bind (.accept _) fun _ =>
    .ite (fun _ => .done) fun _ => ?_
  refine .bind (.check _) fun _ =>
    .ite (fun _ => .bind (.reportMissing _) fun _ => .pure rfl) fun _ => ?_
  refine .bind (does_beginFunction id parameters name.loc) fun scope =>
    .bind (statementRules depth).blockBody.inside fun n => ?_
  exact .bind (.spanFrom _) fun loc =>
    .bind (does_functionDefinition id scope n loc) fun _ => .pure rfl

theorem does_function (depth : Nat) (result : TypeId) (start : Location) :
    Does (.outside fun s => s.Whole result) (function depth result start) fun _ =>
    .outside fun _ => True := by
  have read : Does (.fact fun s => s.Whole result) (parameters depth) fun parameters =>
      .fact fun s => ParametersRead parameters s ∧ s.Whole result :=
    (does_parameters depth).besides (stable_whole result)
  refine .within _ (.bind .current fun name => .bind .advance fun _ => .bind .advance fun _ =>
    .bind read.outside fun parameters => ?_)
  have leads (c : Checker) : c.Leads (fun s => ParametersRead parameters s ∧ s.Whole result) []
      (fun s => IsFunctionType (c.session.functionType result (parameters.map (·.type))).2 s ∧
      ParametersRead parameters s) []
      (c.withSession (c.session.functionType result (parameters.map (·.type))).1) := by
    refine ((leads_functionType c result _).frame (stable_parametersRead parameters)).imp ?_
      fun _ made => made
    rintro - ⟨valued, whole⟩
    refine ⟨⟨whole.toMade, fun p mem => ?_⟩, valued⟩
    obtain ⟨parameter, inside, rfl⟩ := List.mem_map.mp mem
    exact (valued parameter inside).toMade
  have typed : Does (.outside fun s => ParametersRead parameters s ∧ s.Whole result) _ fun _ =>
    .outside fun _ => True :=
    .make (fun type => .outside fun s => IsFunctionType type s ∧ ParametersRead parameters s)
      (·.functionType result (parameters.map Parameter.type)) (fun _ => id) (fun c _ _ known =>
      (leads c).outer known) fun type =>
      does_functionTail depth name parameters type start
  exact .bind (.want _ _) fun _ => typed

/-! ## Programs -/

theorem does_externalDeclaration (depth : Nat) :
    Does (.outside fun _ => True) (externalDeclaration depth) fun _ => .outside fun _ => True := by
  refine .within _ (.bind .current fun start => .bind (.check _) fun _ =>
    .ite (fun _ => ?_) fun _ => ?_)
  · exact .bind (does_declaration depth).part fun _ => .pure rfl
  · refine .bind (specifierRules depth).typeSpecifier.outside fun base => ?_
    cases base with
    | none => exact .reportMissing _
    | some base =>
      have whole (s : Session) (known : ∀ x ∈ some base, s.Whole x) : s.Whole base := known base rfl
      refine .bind .isFunctionAhead fun function => .ite (fun _ => ?_) fun _ => ?_
      · exact .bind ((does_stars depth base).given fun s _ => whole s).outside fun type =>
          does_function depth type start.loc
      · exact .bind ((does_restOfDeclaration depth base start.loc).given fun s _ =>
          whole s).part fun _ => .done

theorem does_externalDeclarations (depth left : Nat) :
    Does (.outside fun _ => True) (externalDeclarations depth left) fun _ =>
    .outside fun _ => True := by
  induction left with
  | zero => exact .throw _
  | succ left ih =>
    refine .within _ (.bind (.check _) fun _ => .ite (fun _ => .pure rfl) fun _ =>
      .bind .position fun before => ?_)
    refine .bind (does_externalDeclaration depth) fun _ => .bind .synchronize fun _ => ?_
    exact .bind (does_ensureProgress before) fun _ => ih

/-- The root of a program that is complete. -/
def Claim.complete (root : Handle) : Claim where
  holds w _ c := c.Dirty ∨ ∃ more, root = c.session.tree.root ∧ c.Complete (w.parts ++ more)
  absorbs := .inl

theorem does_programOf (depth count : Nat) :
    Does (.outside fun _ => True) (programOf depth count) .complete := by
  refine .bind (does_externalDeclarations depth count) fun _ => .bind .current fun stop => ?_
  exact .lift (fun run => (of_run (unit_spec stop.loc) run).1) fun run w _ =>
    (of_run (unit_spec stop.loc) run).2 w.parts

theorem does_program : Does (.outside fun _ => True) program .complete :=
  .bind .get fun _ => does_programOf _ _

/-- A program that is read without an error is complete. -/
theorem parse_complete {c c' : Checker} {tokens : List Token} {root : Handle}
    (read : parse c tokens = .ok (c', root)) (outside : OutsideWith [] (fun _ => True) c) :
    c'.Dirty ∨ ∃ parts, root = c'.session.tree.root ∧ c'.Complete parts := by
  obtain ⟨⟨⟨root, r⟩, c'⟩, run, same⟩ := Guarded.bind_eq_ok.mp read
  cases same
  exact (does_program _ c root r c' run (by simp [reader])).2.2 ⟨c, []⟩ [] outside

end Grammar

end BilingualC
