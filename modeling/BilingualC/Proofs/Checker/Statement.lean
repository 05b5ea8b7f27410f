import Mathlib
import BilingualC.Checker.Statement
import BilingualC.Proofs.Checker.Expression

/-!
# Rules for statements, checked

A statement is built inside a nesting of loops and switches, which the earlier state of a `World`
knows. Inside a loop the nesting is another one, so that a step of the inner nesting becomes a step
of the outer one (`EffectIn.nested`). Labels that are mentioned are known from then on, and a label
that is placed is counted as placed.
-/

namespace BilingualC

open Std.Do

set_option mvcgen.warning false

namespace Checker

open Rose

variable {c₀ c₁ c₂ c₃ c : Checker} {w : World}

/-! ## Scopes and nesting -/

/-- Says whether statements are inside a loop. -/
def World.inLoop (w : World) : Bool := decide (w.before.loops ≠ 0)

/-- Says whether statements are inside a switch. -/
def World.inSwitch (w : World) : Bool := decide (w.before.switches ≠ 0)

/-- A statement that waits, inside a loop or not and inside a switch or not. -/
def Slot.statement (loop switch : Bool) (n : Handle) : Slot := ⟨n, IsStatement loop switch⟩

theorem Stands.inLoop {trees : List Rose} (stands : c.Stands w trees) :
    w.inLoop = decide (c.loops ≠ 0) := by
  rw [World.inLoop, stands.keeps.loops]

theorem Stands.inSwitch {trees : List Rose} (stands : c.Stands w trees) :
    w.inSwitch = decide (c.switches ≠ 0) := by
  rw [World.inSwitch, stands.keeps.switches]

/-- The same trees, seen from now on. -/
theorem Stands.rebase {trees : List Rose} (stands : c.Stands w trees)
    {loops switches : Int} (low : 0 ≤ loops) (low' : 0 ≤ switches) :
    Stands ⟨{ c with loops, switches }, w.parts⟩ trees { c with loops, switches } :=
  { stands with
    loops := low
    switches := low'
    labels := stands.labels.congr rfl (.refl _) (.refl _) fun _ mem => mem
    keeps := .refl _ }

/-- A step inside another nesting, which is left afterwards. -/
theorem EffectIn.nested {loops switches loops' switches' : Int}
    (ins : World → List Slot) {outs : World → List Slot} {ins' outs' : List Slot}
    (inner : ∀ w, EffectIn { c₀ with loops, switches } w (ins w) (outs w) c)
    (low : 0 ≤ c₀.loops → 0 ≤ c₀.switches → 0 ≤ loops ∧ 0 ≤ switches)
    (leave : c.loops = loops → c.switches = switches → loops' = c₀.loops ∧ switches' = c₀.switches)
    (taken : ∀ trees, c₀.Stands w trees → ins ⟨{ c₀ with loops, switches }, w.parts⟩ = ins')
    (left : ∀ trees, c₀.Stands w trees → outs ⟨{ c₀ with loops, switches }, w.parts⟩ = outs') :
    c₀.EffectIn w ins' outs' { c with loops := loops', switches := switches' } := by
  rintro base (dirty | ⟨trees, stands, fits⟩)
  · exact .inl (dirty_of_effects inner dirty :)
  · obtain ⟨lowLoops, lowSwitches⟩ := low stands.loops stands.switches
    have inside := stands.rebase lowLoops lowSwitches
    rw [← taken trees stands] at fits
    rcases inner ⟨_, w.parts⟩ base (.inr ⟨trees, inside, fits⟩) with dirty | ⟨trees', after, fits'⟩
    · exact .inl dirty
    · rw [left trees stands] at fits'
      obtain ⟨rfl, rfl⟩ := leave after.keeps.loops after.keeps.switches
      refine .inr ⟨trees', ?stands, fits'⟩
      exact {
        after with
        loops := stands.loops
        switches := stands.switches
        labels := after.labels.congr rfl (.refl _) (.refl _) fun _ mem => mem
        keeps := stands.keeps.trans { after.keeps with loops := rfl, switches := rfl } }

/-- What is built inside a loop is built by the statement around it. -/
theorem EffectIn.loop {n : Handle} (inner : ∀ w, EffectIn { c₀ with loops := c₀.loops + 1 } w []
      [.statement w.inLoop w.inSwitch n] c) :
    c₀.EffectIn w [] [.statement true w.inSwitch n] { c with loops := c.loops - 1 } := by
  apply EffectIn.nested (fun _ => []) inner
  case low => exact fun low low' => ⟨by omega, low'⟩
  case leave => exact fun loops switches => ⟨by omega, switches⟩
  case taken => exact fun _ _ => rfl
  intro trees stands
  have low := stands.loops
  rw [stands.inSwitch]
  simp only [World.inLoop, World.inSwitch,
    show decide (c₀.loops + 1 ≠ 0) = true from decide_eq_true (by omega)]

/-- What is built inside a switch is built by the statement around it. -/
theorem EffectIn.switch {n : Handle} (inner : ∀ w,
      EffectIn { c₀ with switches := c₀.switches + 1 } w [] [.statement w.inLoop w.inSwitch n] c) :
    c₀.EffectIn w [] [.statement w.inLoop true n] { c with switches := c.switches - 1 } := by
  apply EffectIn.nested (fun _ => []) inner
  case low => exact fun low low' => ⟨low, by omega⟩
  case leave => exact fun loops switches => ⟨loops, by omega⟩
  case taken => exact fun _ _ => rfl
  intro trees stands
  have low := stands.switches
  rw [stands.inLoop]
  simp only [World.inLoop, World.inSwitch,
    show decide (c₀.switches + 1 ≠ 0) = true from decide_eq_true (by omega)]

@[spec] theorem openScope_spec : ⦃fun c => ⌜c = c₀⌝⦄ openScope ⦃⇓? _ c => ⌜c₀.Effect [] [] c⌝⦄ := by
  mvcgen [openScope, currentSession]
  all_goals subst_vars
  exact .update id fun _ _ _ stands _ => stands.tables.updates_enterBlock

@[spec] theorem closeScope_spec (scope : Scope) :
    ⦃fun c => ⌜c = c₀⌝⦄ closeScope scope ⦃⇓? _ c => ⌜c₀.Effect [] [] c⌝⦄ := by
  mvcgen [closeScope, currentSession]
  all_goals subst_vars
  next closed _ _ =>
    rintro rfl
    exact .update (fun dirty => (congrArg Journal.hadError (Session.journal_exitBlock closed)).trans
      dirty) fun _ _ _ stands _ => stands.tables.updates_exitBlock closed

/-! ## Statements that are built -/

section Built

variable {kind : Kind} {args : List Int} {children : List Handle} {n : Handle} {ins : List Slot}

/-- A statement that names nothing. -/
theorem Built.statement (built : c₀.Built kind args children n c)
    (named : children.filter (· ≠ .broken) = (ins.map (·.handle)).reverse.filter (· ≠ .broken))
    (plain : kind.isPlain = true) (anonymous : kind.isAnonymous = true)
    (other : kind.isExpression = false) (good : ∀ trees rest, c₀.Stands w (trees ++ rest) →
      c₀.Fits ins trees → ∀ node : Rose, node.kind = kind →
      node.args = args → node.children = trees.reverse → IsStatement w.inLoop w.inSwitch node) :
    c₀.EffectIn w ins [.statement w.inLoop w.inSwitch n] c := by
  refine built.effectIn named plain fun trees rest stands fits node isKind isArgs kids => ?_
  refine ⟨good trees rest stands fits node isKind isArgs kids,
    Session.refers_anonymous isKind anonymous fun expr => ?_⟩
  rw [other] at expr
  cases expr

end Built

@[spec] theorem block_spec (statements : List Handle) (loc : Location) :
    ⦃fun c => ⌜c = c₀⌝⦄ block statements loc
    ⦃⇓? n c => ⌜∀ w : World, c₀.EffectIn w (Slot.each (IsStatement w.inLoop w.inSwitch) statements)
      [.statement w.inLoop w.inSwitch n] c⌝⦄ := by
  mvcgen [block]
  all_goals subst_vars
  refine fun built w => built.statement (by rw [handles_each, List.reverse_reverse]) rfl rfl rfl
    fun trees rest stands fits node kind args kids => .block kind fun x mem => ?_
  exact (fits_each.mp fits).2 x (by simpa [kids] using mem)

@[spec] theorem null_spec (loc : Location) : ⦃fun c => ⌜c = c₀⌝⦄ null loc ⦃⇓? n c => ⌜∀ w : World,
    c₀.EffectIn w [] [.statement w.inLoop w.inSwitch n] c⌝⦄ := by
  mvcgen [null]
  all_goals subst_vars
  refine fun built w =>
    built.statement rfl rfl rfl rfl fun trees rest stands fits node kind args kids => .null kind ?_
  rw [kids, fits_nil.mp fits]
  rfl

@[spec] theorem condition_spec (cond : Handle) :
    ⦃fun c => ⌜c = c₀⌝⦄ condition cond ⦃⇓? n c => ⌜c₀.Effect [.expr cond] [.expr n] c⌝⦄ := by
  mvcgen [condition, isBroken, tree, types, typeOf, kindOf, locationOf]
  all_goals subst_vars
  case vc1 | vc4 => exact .refl
  case vc2 => exact Effect.of_dirty
  case vc3 warned => exact warned.frame [.expr cond]

/-! ## Optional parts -/

/-- The slot of a part that may be missing. -/
def Clause.slots (form : Rose → Prop) (c : Clause) : List Slot :=
  if c.written then [⟨c.node, form⟩] else []

theorem fits_clause {form : Rose → Prop} {part : Clause}
    {trees : List Rose} (fits : c.Fits (part.slots form) trees) :
    ∃ o : Option Rose, trees = o.toList ∧ part.written = o.isSome ∧ ∀ x ∈ o, form x := by
  unfold Clause.slots at fits
  split at fits
  next written =>
    obtain ⟨x, rfl, -, known⟩ := fits_one.mp fits
    exact ⟨some x, rfl, written, fun y mem => by cases mem; exact known⟩
  next missing =>
    obtain rfl := fits_nil.mp fits
    exact ⟨none, rfl, by simpa using missing, by simp⟩

/-- A part that is missing has a broken node. -/
def Clause.Marked (c : Clause) : Prop := c.written = false → c.node = .broken

/-- A part that is missing is passed over. -/
theorem Clause.live {part : Clause} (marked : part.Marked) (form : Rose → Prop) :
    ((part.slots form).map (·.handle)).filter (· ≠ .broken) = [part.node].filter (· ≠ .broken) := by
  unfold slots
  split
  next => rfl
  next missing => simp [marked (by simpa using missing)]

theorem Clause.reverse_slots (part : Clause) (form : Rose → Prop) :
    ((part.slots form).map (·.handle)).reverse = (part.slots form).map (·.handle) := by
  unfold slots
  split <;> rfl

/-- A part that was written and is broken is left only after an error. -/
theorem Effect.of_brokenClause {part : Clause} {ins outs : List Slot} (form : Rose → Prop)
    (inside : part.slots form ⊆ ins)
    (broken : (part.written && c.session.tree.isBroken part.node) = true) :
    c.Effect ins outs c := by
  rw [Bool.and_eq_true] at broken
  refine .of_broken (List.mem_map.mpr ⟨⟨part.node, form⟩, inside ?_, rfl⟩) broken.2
  simp [Clause.slots, broken.1]

theorem flagWord_true {b : Bool} (set : b = true) : flagWord b ≠ 0 := by rw [set]; decide

/-! ## Branches and loops -/

theorem Built.ifElse {cond yes no n : Handle} {hasElse : Bool} {loc : List Int}
    (built : c₀.Built .ifElse (flagWord hasElse :: loc) [cond, yes, no] n c)
    (marked : Clause.Marked ⟨no, hasElse⟩) :
    c₀.EffectIn w (Clause.slots (IsStatement w.inLoop w.inSwitch) ⟨no, hasElse⟩ ++
      [.statement w.inLoop w.inSwitch yes, .expr cond]) [.statement w.inLoop w.inSwitch n] c := by
  refine built.statement ?_ rfl rfl rfl fun trees rest stands fits node kind args kids => ?_
  · have live := Clause.live marked (IsStatement w.inLoop w.inSwitch)
    rw [List.map_append, List.reverse_append, List.filter_append, Clause.reverse_slots, live,
      show [cond, yes, no] = [cond, yes] ++ [no] from rfl, List.filter_append]
    rfl
  · obtain ⟨upper, lower, rfl, clause, others⟩ := fits_append.mp fits
    obtain ⟨o, rfl, written, known⟩ := fits_clause clause
    obtain ⟨y, x, rfl, -, yes, -, test⟩ := fits_two.mp others
    have flag : node.arg 0 = flagWord o.isSome := by rw [arg, args, ← written]; rfl
    cases o with
    | none => exact .ifOnly kind flag kids test yes
    | some no =>
      exact .ifElse kind (by rw [flag]; exact flagWord_true rfl) kids test yes (known no rfl)

@[spec] theorem ifElse_spec (cond yes no : Handle) (hasElse : Bool) (loc : Location) :
    ⦃fun c => ⌜c = c₀⌝⦄ ifElse cond yes no hasElse loc ⦃⇓? n c => ⌜Clause.Marked ⟨no, hasElse⟩ →
    ∀ w : World, c₀.EffectIn w (Clause.slots (IsStatement w.inLoop w.inSwitch) ⟨no, hasElse⟩ ++
      [.statement w.inLoop w.inSwitch yes, .expr cond]) [.statement w.inLoop w.inSwitch n] c⌝⦄ := by
  mvcgen [ifElse, anyBroken, isBroken, tree]
  all_goals subst_vars
  case vc1 broken =>
    exact fun _ w => Effect.of_anyBroken (by simp [Slot.expr, Slot.statement]) broken w
  case vc2 broken _ => exact fun _ w => Effect.of_broken (by simp [Clause.slots]) broken w
  all_goals exact fun built marked w => built.ifElse marked

@[spec] theorem whileLoop_spec (cond body : Handle) (loc : Location) :
    ⦃fun c => ⌜c = c₀⌝⦄ whileLoop cond body loc
    ⦃⇓? n c => ⌜∀ w : World, c₀.EffectIn w [.statement true w.inSwitch body, .expr cond]
      [.statement w.inLoop w.inSwitch n] c⌝⦄ := by
  mvcgen [whileLoop, anyBroken, tree]
  all_goals subst_vars
  case vc1 broken =>
    exact fun w => Effect.of_anyBroken (by simp [Slot.expr, Slot.statement]) broken w
  case vc2 =>
    refine fun built w =>
      built.statement rfl rfl rfl rfl fun trees rest stands fits node kind args kids => ?_
    obtain ⟨y, x, rfl, -, body, -, test⟩ := fits_two.mp fits
    exact .whileLoop kind kids test body

@[spec] theorem doWhile_spec (body cond : Handle) (loc : Location) :
    ⦃fun c => ⌜c = c₀⌝⦄ doWhile body cond loc
    ⦃⇓? n c => ⌜∀ w : World, c₀.EffectIn w [.expr cond, .statement true w.inSwitch body]
      [.statement w.inLoop w.inSwitch n] c⌝⦄ := by
  mvcgen [doWhile, anyBroken, tree]
  all_goals subst_vars
  case vc1 broken =>
    exact fun w => Effect.of_anyBroken (by simp [Slot.expr, Slot.statement]) broken w
  case vc2 =>
    refine fun built w =>
      built.statement rfl rfl rfl rfl fun trees rest stands fits node kind args kids => ?_
    obtain ⟨y, x, rfl, -, test, -, body⟩ := fits_two.mp fits
    exact .doWhile kind kids body test

/-- The first clause of a loop: a declaration or an expression. -/
def IsClause (r : Rose) : Prop := IsDeclaration r ∨ IsExpr r

/-- The slots of the parts of a loop, the body on top. -/
def loopSlots (w : World) (init cond step : Clause) (body : Handle) : List Slot :=
  .statement true w.inSwitch body :: (step.slots IsExpr ++ cond.slots IsExpr ++ init.slots IsClause)

theorem Built.forLoop {init cond step : Clause} {body n : Handle} {loc : List Int}
    (built : c₀.Built .forLoop (flagWord init.written :: flagWord cond.written ::
      flagWord step.written :: loc) [init.node, cond.node, step.node, body] n c)
    (first : init.Marked) (second : cond.Marked) (third : step.Marked) :
    c₀.EffectIn w (loopSlots w init cond step body) [.statement w.inLoop w.inSwitch n] c := by
  refine built.statement ?_ rfl rfl rfl fun trees rest stands fits node kind args kids => ?_
  · have live := Clause.live first IsClause
    have live' := Clause.live second IsExpr
    have live'' := Clause.live third IsExpr
    rw [show [init.node, cond.node, step.node, body] =
      [init.node] ++ [cond.node] ++ [step.node] ++ [body] from rfl]
    simp only [loopSlots, List.map_cons, List.map_append, List.reverse_cons, List.reverse_append,
      Clause.reverse_slots, List.filter_append, live, live', live'', List.append_assoc]
    rfl
  · obtain ⟨b, above, rfl, -, body, parts⟩ := fits_cons.mp fits
    obtain ⟨above, inits, rfl, parts, fitsInit⟩ := fits_append.mp parts
    obtain ⟨steps, conds, rfl, fitsStep, fitsCond⟩ := fits_append.mp parts
    obtain ⟨i, rfl, writtenInit, init⟩ := fits_clause fitsInit
    obtain ⟨t, rfl, writtenCond, cond⟩ := fits_clause fitsCond
    obtain ⟨s, rfl, writtenStep, step⟩ := fits_clause fitsStep
    have alone (o : Option Rose) : o.toList.reverse = o.toList := by cases o <;> rfl
    refine .forLoop kind ?_ ?_ ?_ ?_ init cond step body
    · simpa [alone] using kids
    · rw [arg, args, ← writtenInit]; rfl
    · rw [arg, args, ← writtenCond]; rfl
    · rw [arg, args, ← writtenStep]; rfl

@[spec] theorem forLoop_spec (init cond step : Clause) (body : Handle) (loc : Location) :
    ⦃fun c => ⌜c = c₀⌝⦄ forLoop init cond step body loc
    ⦃⇓? n c => ⌜(c₀.Dirty → c.Dirty) ∧ (init.Marked → cond.Marked → step.Marked → ∀ w : World,
      c₀.EffectIn w (loopSlots w init cond step body) [.statement w.inLoop w.inSwitch n] c)⌝⦄ := by
  mvcgen [forLoop, isBrokenClause, isBroken, tree]
  all_goals subst_vars
  case vc1 broken =>
    exact ⟨id, fun _ _ _ w => Effect.of_broken (by simp [loopSlots, Slot.statement]) broken w⟩
  case vc2 broken =>
    exact ⟨id, fun _ _ _ w =>
      Effect.of_brokenClause IsClause (fun x mem => by simp [loopSlots, mem]) broken w⟩
  case vc3 broken =>
    exact ⟨id, fun _ _ _ w =>
      Effect.of_brokenClause IsExpr (fun x mem => by simp [loopSlots, mem]) broken w⟩
  case vc4 broken =>
    exact ⟨id, fun _ _ _ w =>
      Effect.of_brokenClause IsExpr (fun x mem => by simp [loopSlots, mem]) broken w⟩
  case vc5 =>
    exact fun built => ⟨built.dirty, fun first second third w => built.forLoop first second third⟩

/-! ## Switches and jumps -/

@[spec] theorem switching_spec (cond body : Handle) (loc : Location) :
    ⦃fun c => ⌜c = c₀⌝⦄ switching cond body loc
    ⦃⇓? n c => ⌜∀ w : World, c₀.EffectIn w [.statement w.inLoop true body, .expr cond]
      [.statement w.inLoop w.inSwitch n] c⌝⦄ := by
  mvcgen [switching, isBroken, tree, typeOf, locationOf]
  all_goals subst_vars
  case vc1 broken | vc3 broken =>
    exact fun w => Effect.of_broken (by simp [Slot.expr, Slot.statement]) broken w
  case vc2 => exact fun dirty w => .of_dirty dirty
  case vc4 =>
    refine fun built w =>
      built.statement rfl rfl rfl rfl fun trees rest stands fits node kind args kids => ?_
    obtain ⟨y, x, rfl, -, body, -, value⟩ := fits_two.mp fits
    exact .switching kind kids value body

theorem Stands.insideSwitch {trees : List Rose} (stands : c.Stands w trees)
    (inside : ¬(c.switches == 0) = true) : w.inSwitch = true := by
  rw [stands.inSwitch]
  simpa using inside

theorem Stands.insideLoop {trees : List Rose} (stands : c.Stands w trees)
    (inside : ¬(c.loops == 0) = true) : w.inLoop = true := by
  rw [stands.inLoop]
  simpa using inside

@[spec] theorem caseLabel_spec (value body : Handle) (loc : Location) :
    ⦃fun c => ⌜c = c₀⌝⦄ caseLabel value body loc
    ⦃⇓? n c => ⌜∀ w : World, c₀.EffectIn w [.statement w.inLoop w.inSwitch body, .expr value]
      [.statement w.inLoop w.inSwitch n] c⌝⦄ := by
  mvcgen [caseLabel, isBroken, tree, typeOf, locationOf, isLiteral, kindOf]
  all_goals subst_vars
  case vc2 broken | vc5 broken =>
    exact fun w => Effect.of_broken (by simp [Slot.expr, Slot.statement]) broken w
  case vc6 inside _ _ _ _ _ _ _ _ =>
    refine fun built w =>
      built.statement rfl rfl rfl rfl fun trees rest stands fits node kind args kids => ?_
    obtain ⟨y, x, rfl, -, body, -, value⟩ := fits_two.mp fits
    rw [stands.insideSwitch inside] at body ⊢
    exact .caseLabel kind kids value body
  all_goals exact fun dirty w => .of_dirty dirty

@[spec] theorem defaultLabel_spec (body : Handle) (loc : Location) :
    ⦃fun c => ⌜c = c₀⌝⦄ defaultLabel body loc
    ⦃⇓? n c => ⌜∀ w : World, c₀.EffectIn w [.statement w.inLoop w.inSwitch body]
      [.statement w.inLoop w.inSwitch n] c⌝⦄ := by
  mvcgen [defaultLabel, isBroken, tree]
  all_goals subst_vars
  case vc1 => exact fun dirty w => .of_dirty dirty
  case vc2 broken => exact fun w => Effect.of_broken (by simp [Slot.statement]) broken w
  case vc3 inside _ _ _ =>
    refine fun built w =>
      built.statement rfl rfl rfl rfl fun trees rest stands fits node kind args kids => ?_
    obtain ⟨x, rfl, -, body⟩ := fits_one.mp fits
    rw [stands.insideSwitch inside] at body ⊢
    exact .defaultLabel kind kids body

@[spec] theorem breaking_spec (loc : Location) :
    ⦃fun c => ⌜c = c₀⌝⦄ breaking loc
    ⦃⇓? n c => ⌜∀ w : World, c₀.EffectIn w [] [.statement w.inLoop w.inSwitch n] c⌝⦄ := by
  mvcgen [breaking]
  all_goals subst_vars
  case vc1 => exact fun dirty w => .of_dirty dirty
  case vc2 inside _ _ =>
    refine fun built w =>
      built.statement rfl rfl rfl rfl fun trees rest stands fits node kind args kids => ?_
    obtain rfl := fits_nil.mp fits
    rw [Bool.and_eq_true, not_and_or] at inside
    exact .breaking kind (inside.imp stands.insideLoop stands.insideSwitch) kids

@[spec] theorem continuing_spec (loc : Location) :
    ⦃fun c => ⌜c = c₀⌝⦄ continuing loc
    ⦃⇓? n c => ⌜∀ w : World, c₀.EffectIn w [] [.statement w.inLoop w.inSwitch n] c⌝⦄ := by
  mvcgen [continuing]
  all_goals subst_vars
  case vc1 => exact fun dirty w => .of_dirty dirty
  case vc2 inside _ _ =>
    refine fun built w =>
      built.statement rfl rfl rfl rfl fun trees rest stands fits node kind args kids => ?_
    obtain rfl := fits_nil.mp fits
    rw [stands.insideLoop inside]
    exact .continuing kind kids

@[spec] theorem returning_spec (value : Handle) (hasValue : Bool) (loc : Location) :
    ⦃fun c => ⌜c = c₀⌝⦄ returning value hasValue loc
    ⦃⇓? n c => ⌜∀ w : World, c₀.EffectIn w (Clause.slots IsExpr ⟨value, hasValue⟩)
      [.statement w.inLoop w.inSwitch n] c⌝⦄ := by
  mvcgen [returning, isBroken, tree, locationOf]
  all_goals subst_vars
  case vc2 _ missing _ _ =>
    rw [Bool.not_eq_true] at missing
    subst missing
    refine fun built w =>
      built.statement rfl rfl rfl rfl fun trees rest stands fits node kind args kids => ?_
    obtain rfl := fits_nil.mp fits
    exact .returnVoid kind kids
  case vc4 written broken =>
    rw [Bool.not_eq_true', Bool.not_eq_false] at written
    exact fun w => Effect.of_broken (by simp [Clause.slots, written]) broken w
  case vc6 written _ _ fine _ converted _ _ =>
    rw [Bool.not_eq_true', Bool.not_eq_false] at written
    subst written
    rw [fine] at converted
    refine fun built w => ((Effect.learn₁ fun _ x rest stands _ expr => ⟨expr, stands.result⟩).trans
      (converted.effect []) w).trans ?_
    refine built.statement rfl rfl rfl rfl fun trees rest stands fits node kind args kids => ?_
    obtain ⟨x, rfl, -, value⟩ := fits_one.mp fits
    exact .returnValue kind kids value
  all_goals exact fun dirty w => .of_dirty dirty

/-! ## Labels -/

@[spec] theorem declare_spec (spelling : Int) (kind : IdentKind) (type : TypeId) :
    ⦃fun c => ⌜c = c₀⌝⦄ declare spelling kind type
    ⦃⇓? out c => ⌜match out with
      | .ok id =>
        ∃ s, c₀.session.declare spelling kind type = .ok (.ok (s, id)) ∧ c = c₀.withSession s
      | .error e => c₀.session.declare spelling kind type = .ok (.error e) ∧ c = c₀⌝⦄ := by
  mvcgen [declare, currentSession]
  all_goals subst_vars
  case vc1 done _ => exact ⟨_, done, rfl⟩
  case vc2 done => exact ⟨done, rfl⟩

/-- A label that is placed if it has the spelling. -/
def place (spelling : Int) (l : Label) : Label :=
  if l.spelling == spelling then { l with defined := true } else l

theorem place_other {spelling : Int} {l : Label} (other : l.spelling ≠ spelling) :
    place spelling l = l := by
  rw [place, if_neg (by simpa using other)]

theorem place_same (l : Label) : place l.spelling l = { l with defined := true } := by
  rw [place, if_pos (beq_self_eq_true _)]

@[simp] theorem place_spelling (spelling : Int) (l : Label) :
    (place spelling l).spelling = l.spelling := by
  unfold place
  split <;> rfl

@[simp] theorem place_identifier (spelling : Int) (l : Label) :
    (place spelling l).identifier = l.identifier := by
  unfold place
  split <;> rfl

/-- One more label is counted as placed. -/
theorem placed_perm {labels : List Label} (unique : (labels.map (·.spelling)).Nodup)
    {label : Label} (mem : label ∈ labels) (new : label.defined = false) :
    (((labels.map (place label.spelling)).filter (·.defined)).map (·.identifier)).Perm
    (label.identifier :: (labels.filter (·.defined)).map (·.identifier)) := by
  induction labels with
  | nil => cases mem
  | cons l rest ih =>
    obtain ⟨fresh, later⟩ := List.nodup_cons.mp unique
    rcases List.mem_cons.mp mem with rfl | inside
    · have others : rest.map (place label.spelling) = rest := by
        refine (List.map_congr_left fun x there => ?_).trans (List.map_id rest)
        exact place_other fun same => fresh (List.mem_map.mpr ⟨x, there, same⟩)
      rw [List.map_cons, others, place_same, List.filter_cons_of_pos rfl,
        List.filter_cons_of_neg (by simp [new])]
      exact .refl _
    · have other : l.spelling ≠ label.spelling :=
        fun same => fresh (List.mem_map.mpr ⟨label, inside, same.symm⟩)
      rw [List.map_cons, place_other other]
      cases placed : l.defined with
      | false =>
        rw [List.filter_cons_of_neg (by simp [placed]), List.filter_cons_of_neg (by simp [placed])]
        exact ih later inside
      | true =>
        rw [List.filter_cons_of_pos placed, List.filter_cons_of_pos placed, List.map_cons,
          List.map_cons]
        exact ((ih later inside).cons _).trans (.swap _ _ _)

theorem labelList_eq {labels : Array Label} (known : c.labels = some labels) :
    c.labelList = labels.toList := by
  rw [labelList, known, Option.getD_some]

section Labels

variable {parts trees trees' : List Rose} {labels : Array Label} {label : Label}

/-- A label that was not mentioned before. -/
theorem LabelsOk.push (ok : c.LabelsOk parts trees) (old : c.labels = some labels)
    (other : ∀ l ∈ labels, l.spelling ≠ label.spelling) (new : label.defined = false)
    (isLabel : c.session.IsLabel label.identifier)
    (spelling : (c.session.identifier label.identifier).spelling = label.spelling)
    (fresh : label.identifier ∉ labelsIn parts ++ c.labelIds) :
    LabelsOk { c with labels := some (labels.push label) } parts trees := by
  have list : labelList { c with labels := some (labels.push label) } = c.labelList ++ [label] := by
    rw [labelList_eq old, labelList_eq rfl, Array.toList_push]
  have ids :
    labelIds { c with labels := some (labels.push label) } = c.labelIds ++ [label.identifier] := by
    rw [labelIds, list, List.map_append]
    rfl
  refine ⟨?_, ?_, ?_, ?_, ?_⟩
  · rw [list, List.map_append, List.nodup_append]
    refine ⟨ok.spellings, List.nodup_singleton _, fun a mem b last => ?_⟩
    obtain ⟨l, inside, rfl⟩ := List.mem_map.mp mem
    rw [labelList_eq old, Array.mem_toList_iff] at inside
    rw [List.map_singleton, List.mem_singleton] at last
    exact last ▸ other l inside
  · intro l mem
    rw [list, List.mem_append, List.mem_singleton] at mem
    rcases mem with old | rfl
    · exact ok.known l old
    · exact ⟨isLabel, spelling⟩
  · rw [placedIds, list, List.filter_append, List.filter_cons_of_neg (by simp [new]),
      List.filter_nil, List.append_nil]
    exact ok.placed
  · intro id mem
    rw [ids]
    exact List.mem_append_left _ (ok.jumps id mem)
  · rw [ids, ← List.append_assoc]
    exact List.nodup_append.mpr ⟨ok.apart, List.nodup_singleton _, fun a mem b last same =>
      fresh (List.mem_singleton.mp last ▸ same ▸ mem)⟩

/-- A label that was not placed before. -/
theorem LabelsOk.place (ok : c.LabelsOk parts trees)
    (mem : label ∈ c.labelList) (new : label.defined = false)
    (one : (labelsIn trees').Perm (label.identifier :: labelsIn trees))
    (jumps : ∀ id ∈ jumpsIn trees', id ∈ jumpsIn trees) : LabelsOk { c with
      labels := c.labels.map (·.map (Checker.place label.spelling)) } parts trees' := by
  have list : labelList { c with labels := c.labels.map (·.map (Checker.place label.spelling)) } =
      c.labelList.map (Checker.place label.spelling) := by
    rw [labelList, labelList]
    cases c.labels <;> simp
  have ids : labelIds { c with labels := c.labels.map (·.map (Checker.place label.spelling)) } =
    c.labelIds := by
    rw [labelIds, list, List.map_map, labelIds]
    exact List.map_congr_left fun l _ => place_identifier _ l
  refine ⟨?_, fun l placed => ?_, ?_, fun id inside => ids ▸ ok.jumps id (jumps id inside),
    ids ▸ ok.apart⟩
  · rw [list, List.map_map]
    convert ok.spellings using 1
    exact List.map_congr_left fun l _ => place_spelling _ l
  · rw [list] at placed
    obtain ⟨l, inside, rfl⟩ := List.mem_map.mp placed
    rw [place_identifier, place_spelling]
    exact ok.known l inside
  · rw [placedIds, list]
    exact one.trans ((ok.placed.cons _).trans (placed_perm ok.spellings mem new).symm)

end Labels

/-- The first mention of a label declares it. -/
theorem Effect.mention {labels : Array Label} {spelling id : Int} {s : Session} {name : String}
    {loc : Location} (known : c₀.labels = some labels) (none : ∀ l ∈ labels, l.spelling ≠ spelling)
    (done : c₀.session.declare spelling .label TypeId.undefined = .ok (.ok (s, id))) : c₀.Effect []
    [] { c₀.withSession s with labels := some (labels.push ⟨id, spelling, name, false, loc⟩) } := by
  rintro w base (dirty | ⟨trees, stands, fits⟩)
  · exact .inl ((congrArg Journal.hadError (Session.journal_declare done)).trans dirty)
  · have admits : c₀.session.Admits .label TypeId.undefined :=
      ⟨valid_scalar (le_refl 0), by simp, by simp, by simp, by simp, by simp⟩
    have declared := admits.declared stands.tables done
    have updates := declared.updates
    have fresh := declared.fresh
    have some := stands.tables.some
    have after := stands.update updates
    have new : id ∉ labelsIn w.parts ++ (c₀.withSession s).labelIds := by
      rw [List.mem_append]
      rintro (mem | mem)
      · obtain ⟨r, part, inside⟩ := List.mem_flatMap.mp mem
        have low := ((stands.parts.covers r part).label inside).2.1
        omega
      · obtain ⟨l, inside, same⟩ := List.mem_map.mp mem
        have low := (stands.labels.known l inside).1.2.1
        omega
    have more := declared.more
    have isLabel : s.IsLabel id := ⟨by omega, by omega, declared.kind⟩
    have ok := @LabelsOk.push _ _ _ _ ⟨id, spelling, name, false,
      loc⟩ after.labels known none rfl isLabel declared.spelling new
    refine .inr ⟨trees, after.relabel (t := s.tree) _ after.holds after.covers ok,
      fits.keep fun r _ => ?_⟩
    rw [show (c₀.withSession s).session.tree = c₀.session.tree from updates.tree]

theorem labelOf_spec (labels : Array Label) (spelling : Int) (loc : Location) :
    ⦃fun c => ⌜c = c₀⌝⦄ labelOf labels spelling loc
    ⦃⇓? label c => ⌜c₀.labels = some labels →
      c₀.Effect [] [] c ∧ label ∈ c.labelList ∧ label.spelling = spelling⌝⦄ := by
  mvcgen [labelOf, currentSession]
  all_goals subst_vars
  case vc1 found _ =>
    intro known
    rw [labelList_eq known, Array.mem_toList_iff]
    exact ⟨.refl, Array.mem_of_find?_eq_some found, by simpa using Array.find?_some found⟩
  case vc2 none _ out _ _ declared _ _ =>
    intro known
    cases out with
    | error e => cases declared.1
    | ok id =>
      obtain ⟨s, done, rfl⟩ := declared
      refine ⟨.mention known (fun l mem => ?_) done, ?_, rfl⟩
      · simpa using Array.find?_eq_none.mp none l mem
      · rw [labelList_eq rfl, Array.mem_toList_iff]
        exact Array.mem_push_self

/-- A node that names a label. -/
theorem refers_label {s : Session} {r : Rose} {kind : Kind} (same : r.kind = kind)
    (names : kind = .jump ∨ kind = .label) (isLabel : s.IsLabel (r.arg 0)) : s.Refers r := by
  constructor
  case toNodeOk =>
    constructor
    case jump => exact fun _ => isLabel
    case label => exact fun _ => isLabel
    all_goals
      intro other
      rw [same] at other
      rcases names with rfl | rfl <;> cases other
  all_goals
    intro other
    rw [same] at other
    rcases names with rfl | rfl <;> cases other

/-- A jump to a label that is known. -/
theorem Built.jump {id : Int} {loc : List Int} {n : Handle}
    (built : c₀.Built .jump (id :: loc) [] n c)
    (known : id ∈ c₀.labelIds) : c₀.EffectIn w [] [.statement w.inLoop w.inSwitch n] c := by
  rintro base (dirty | ⟨trees, stands, fits⟩)
  · obtain ⟨t, rfl, -⟩ := built
    exact .inl dirty
  · obtain ⟨l, inside, rfl⟩ := List.mem_map.mp known
    have whole : c₀.Stands w ([] ++ trees) := stands
    obtain ⟨t, node, rfl, kind, args, kids, holds, covers, handle, kept⟩ :=
      whole.adopt built (.refl _) rfl (by simp) fun node kind args kids =>
        refers_label kind (.inl rfl) (by
        rw [arg, args]
        exact (stands.labels.known l inside).1)
    have labels : node.collect .label = [] := by
      rw [collect_other (by rw [kind]; decide), kids]
      rfl
    have jumps : node.collect .jump = [l.identifier] := by
      rw [collect_eq, if_pos kind, kids, arg, args]
      rfl
    refine .inr ⟨node :: trees, stands.relabel c₀.labels holds covers ?_,
      fits_cons.mpr ⟨node, trees, rfl, handle, .jump kind kids, fits.keep kept⟩⟩
    refine ⟨stands.labels.spellings, stands.labels.known, ?_, fun id mem => ?_, stands.labels.apart⟩
    · rw [labelsIn_cons, labels]
      exact stands.labels.placed
    · rw [jumpsIn, List.flatMap_cons, jumps] at mem
      rcases List.mem_append.mp mem with here | earlier
      · rw [List.mem_singleton.mp here]
        exact known
      · exact stands.labels.jumps id earlier

@[spec] theorem jump_spec (spelling : Int) (loc : Location) :
    ⦃fun c => ⌜c = c₀⌝⦄ jump spelling loc
    ⦃⇓? n c => ⌜∀ w : World, c₀.EffectIn w [] [.statement w.inLoop w.inSwitch n] c⌝⦄ := by
  have mentioned {c₀ : Checker} := @labelOf_spec c₀
  mvcgen [jump, currentSession, mentioned]
  all_goals subst_vars
  case vc1 => exact fun dirty w => .of_dirty dirty
  case vc2 some _ _ mentioned _ _ =>
    obtain ⟨first, known, -⟩ := mentioned some
    exact fun built w => (first w).trans (built.jump (List.mem_map_of_mem known))

/-- A labelled statement, whose label was placed. -/
theorem Built.label {label : Label} {loc : List Int} {body n : Handle}
    (built : Built { c₀ with labels := c₀.labels.map (·.map (place label.spelling)) } .label
      (label.identifier :: loc) [body] n c)
    (known : label ∈ c₀.labelList) (new : label.defined = false) :
    c₀.EffectIn w [.statement w.inLoop w.inSwitch body] [.statement w.inLoop w.inSwitch n] c := by
  rintro base (dirty | ⟨_, stands, fits⟩)
  · obtain ⟨t, rfl, -⟩ := built
    exact .inl dirty
  · obtain ⟨b, rest, rfl, named, form, lower⟩ := fits_cons.mp fits
    obtain ⟨t, rfl, made⟩ := built
    have built : c₀.Built .label (label.identifier :: loc) [body] n (c₀.withTree t) :=
      ⟨t, rfl, made⟩
    have live : [body].filter (· ≠ .broken) = [b].map fun r => c₀.session.tree.handle r.index := by
      rw [← stands.filter_handles (by simp)]
      exact congrArg (fun m => [m].filter (· ≠ .broken)) named
    have split : c₀.Stands w ([b] ++ rest) := stands
    obtain ⟨t', node, same, kind, args, kids, holds, covers, handle, kept⟩ :=
      split.adopt built (.refl _) live (by simp) fun node kind args kids =>
        refers_label kind (.inr rfl) (by
        rw [arg, args]
        exact (stands.labels.known label known).1)
    have labels : node.collect .label = label.identifier :: b.collect .label := by
      rw [collect_eq, if_pos kind, kids, arg, args]
      simp
    have jumps : node.collect .jump = b.collect .jump := by
      rw [collect_other (by rw [kind]; decide), kids]
      simp
    obtain rfl : t = t' := congrArg (fun c : Checker => c.session.tree) same
    have one : (labelsIn (node :: rest)).Perm (label.identifier :: labelsIn (b :: rest)) := by
      rw [labelsIn_cons, labels, labelsIn_cons]
      exact .refl _
    have waiting : ∀ id ∈ jumpsIn (node :: rest), id ∈ jumpsIn (b :: rest) := by
      rw [jumpsIn, jumpsIn, List.flatMap_cons, List.flatMap_cons, jumps]
      exact fun _ mem => mem
    have ok := stands.labels.place known new one waiting
    exact .inr ⟨node :: rest, stands.relabel _ holds covers ok,
      fits_cons.mpr ⟨node, rest, rfl, handle, .label kind kids form, lower.keep kept⟩⟩

@[spec] theorem labelled_spec (spelling : Int) (body : Handle) (loc : Location) :
    ⦃fun c => ⌜c = c₀⌝⦄ labelled spelling body loc
    ⦃⇓? n c => ⌜∀ w : World, c₀.EffectIn w [.statement w.inLoop w.inSwitch body]
      [.statement w.inLoop w.inSwitch n] c⌝⦄ := by
  have mentioned {c₀ : Checker} := @labelOf_spec c₀
  mvcgen [labelled, placeLabel, isBroken, tree, mentioned]
  all_goals subst_vars
  case vc1 => exact fun w => Effect.refl w
  case vc2 => exact fun dirty w => .of_dirty dirty
  case vc3 some _ _ _ mentioned _ _ broken =>
    intro w base state
    exact .inl (((mentioned some).1.frame _ w base state).dirty (by simp [Slot.statement]) broken :)
  case vc4 some label new _ mentioned _ _ _ _ _ =>
    obtain ⟨first, known, rfl⟩ := mentioned some
    exact fun built w => (first.frame _ w).trans (built.label known (by simpa using new))

end Checker

end BilingualC
