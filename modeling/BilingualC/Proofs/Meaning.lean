import Mathlib
import BilingualC.Proofs.Machine
import BilingualC.Proofs.Tree.Form

/-!
# The meaning of statements

A big-step semantics for the trees of structured statements on integer variables: `Evaluates` gives
the value of an expression and `Runs` the ending of a statement. A store maps the number of a
variable to its value.

Which statements of a switch are executed is left to a dispatch rule. `Dispatch.meant` is the rule
of the language: execution starts at the statement with the matching case, or else at the one with
the default label.
-/

namespace BilingualC

open Rose

/-- The values of the variables. -/
abbrev Store := Int → Int

/-! ## Expressions -/

/-- The value of an expression without side effects. -/
inductive Evaluates (A : Arithmetic) (σ : Store) : Rose → Int → Prop
  | literal {r : Rose} (kind : r.kind = .literal) : Evaluates A σ r (r.arg 2)
  | variable {r : Rose} (kind : r.kind = .identifier) : Evaluates A σ r (σ (r.arg 2))
  | unary {r e : Rose} {v w : Int} (kind : r.kind = .unary) (kids : r.children = [e])
      (op : r.unaryOp.givesValue = true) (operand : Evaluates A σ e v)
      (result : A.unary r.unaryOp v = some w) : Evaluates A σ r w
  | binary {r l e : Rose} {u v w : Int} (kind : r.kind = .binary) (kids : r.children = [l, e])
      (op : r.binaryOp.givesValue = true) (left : Evaluates A σ l u) (right : Evaluates A σ e v)
      (result : A.binary r.binaryOp u v = some w) : Evaluates A σ r w
  | ternaryYes {r c y n : Rose} {u v : Int}
      (kind : r.kind = .ternary) (kids : r.children = [c, y, n])
      (test : Evaluates A σ c u) (holds : u ≠ 0) (yes : Evaluates A σ y v) : Evaluates A σ r v
  | ternaryNo {r c y n : Rose} {v : Int} (kind : r.kind = .ternary) (kids : r.children = [c, y, n])
      (test : Evaluates A σ c 0) (no : Evaluates A σ n v) : Evaluates A σ r v

/-- The change of a step: the operator that is applied with one. -/
def UnaryOp.change : UnaryOp → BinaryOp
  | .postDecrement | .preDecrement => .sub
  | _ => .add

/-- What an assignment stores, from the old value of its target and the value on its right. -/
def BinaryOp.stored (A : Arithmetic) (op : BinaryOp) (old v : Int) : Option Int :=
  if op = .assign then some v else A.binary op.underlying old v

/-- An expression that is used as a statement: an assignment to a variable or a step of one. -/
inductive Changes (A : Arithmetic) (σ : Store) : Rose → Store → Prop
  | assignment {r t e : Rose} {v new : Int} (kind : r.kind = .assignment)
      (kids : r.children = [t, e]) (target : t.kind = .identifier) (op : r.binaryOp.stores = true)
      (value : Evaluates A σ e v) (result : r.binaryOp.stored A (σ (t.arg 2)) v = some new) :
      Changes A σ r (Function.update σ (t.arg 2) new)
  | step {r t : Rose} {new : Int} (kind : r.kind = .unary) (kids : r.children = [t])
      (target : t.kind = .identifier) (op : r.unaryOp.steps = true)
      (result : A.binary r.unaryOp.change (σ (t.arg 2)) 1 = some new) :
      Changes A σ r (Function.update σ (t.arg 2) new)

/-! ## Switches -/

/-- A statement in a switch without its labels, and the labels: a constant, or nothing for the
default label. -/
structure Item where
  labels : List (Option Int)
  statement : Rose
deriving Inhabited

/-- The trees of statements that hold no label of the switch around them. A switch in such a
statement has its own labels. -/
inductive Rose.NoCases : Rose → Prop
  | block {r : Rose} (kind : r.kind = .block) (all : ∀ c ∈ r.children, NoCases c) : NoCases r
  | null {r : Rose} (kind : r.kind = .null) : NoCases r
  | declaration {r : Rose} (declaration : IsDeclaration r) : NoCases r
  | expr {r : Rose} (expr : IsExpr r) : NoCases r
  | ifOnly {r c y : Rose} (kind : r.kind = .ifElse) (flag : r.arg 0 = 0)
      (kids : r.children = [c, y]) (test : IsExpr c) (yes : NoCases y) : NoCases r
  | ifElse {r c y n : Rose} (kind : r.kind = .ifElse)
      (flag : r.arg 0 ≠ 0) (kids : r.children = [c, y, n])
      (test : IsExpr c) (yes : NoCases y) (no : NoCases n) : NoCases r
  | whileLoop {r c b : Rose} (kind : r.kind = .whileLoop) (kids : r.children = [c, b])
      (test : IsExpr c) (body : NoCases b) : NoCases r
  | doWhile {r b c : Rose} (kind : r.kind = .doWhile) (kids : r.children = [b, c])
      (body : NoCases b) (test : IsExpr c) : NoCases r
  | forLoop {r b : Rose} {init cond step : Option Rose} (kind : r.kind = .forLoop)
      (kids : r.children = init.toList ++ cond.toList ++ step.toList ++ [b])
      (hasInit : r.arg 0 = flagWord init.isSome) (hasCond : r.arg 1 = flagWord cond.isSome)
      (hasStep : r.arg 2 = flagWord step.isSome) (init : ∀ i ∈ init, IsDeclaration i ∨ IsExpr i)
      (cond : ∀ c ∈ cond, IsExpr c) (step : ∀ s ∈ step, IsExpr s) (body : NoCases b) : NoCases r
  | switching {r c b : Rose} (kind : r.kind = .switching) (kids : r.children = [c, b]) : NoCases r
  | breaking {r : Rose} (kind : r.kind = .breaking) : NoCases r
  | continuing {r : Rose} (kind : r.kind = .continuing) : NoCases r
  | returnVoid {r : Rose} (kind : r.kind = .returning) (kids : r.children = []) : NoCases r
  | returnValue {r e : Rose} (kind : r.kind = .returning) (kids : r.children = [e])
      (value : IsExpr e) : NoCases r

/-- A statement with its labels. -/
inductive Labelled : Rose → Item → Prop
  | none {r : Rose} (noCases : r.NoCases) : Labelled r ⟨[], r⟩
  | case {r v b : Rose} {labels : List (Option Int)} {statement : Rose} (kind : r.kind = .caseLabel)
      (kids : r.children = [v, b]) (constant : v.kind = .literal)
      (rest : Labelled b ⟨labels, statement⟩) : Labelled r ⟨some (v.arg 2) :: labels, statement⟩
  | default {r b : Rose} {labels : List (Option Int)}
      {statement : Rose} (kind : r.kind = .defaultLabel)
      (kids : r.children = [b]) (rest : Labelled b ⟨labels, statement⟩) :
      Labelled r ⟨none :: labels, statement⟩

/-- A rule for the statements of a switch that are executed for a value. -/
abbrev Dispatch := List Item → Int → List Rose

namespace Dispatch

/-- The statements from the first one with a label on. -/
def startAt (label : Option Int) (items : List Item) : List Rose :=
  (items.dropWhile fun item => !item.labels.contains label).map (·.statement)

/-- The rule of the language: from the matching case on, or else from the default label on. -/
def meant : Dispatch := fun items v =>
  if items.any fun item => item.labels.contains (some v) then startAt (some v) items
    else startAt none items

end Dispatch

/-! ## Statements -/

/-- How a statement ends. -/
inductive Ending where
  | normal (σ : Store)
  | breaking (σ : Store)
  | continuing (σ : Store)
  | returned (value : Option Int) (σ : Store)

/-- The ending of a switch: a break leaves it. -/
def Ending.outOfSwitch : Ending → Ending
  | .breaking σ => .normal σ
  | o => o

/-- The ending of a loop whose body did not end normally, if it ends the loop. -/
inductive Ending.EndsLoop : Ending → Ending → Prop
  | breaking {σ : Store} : EndsLoop (.breaking σ) (.normal σ)
  | returned {value : Option Int} {σ : Store} : EndsLoop (.returned value σ) (.returned value σ)

/-- The body of a loop ended, and the loop goes on. -/
inductive Ending.GoesOn : Ending → Store → Prop
  | normal {σ : Store} : GoesOn (.normal σ) σ
  | continuing {σ : Store} : GoesOn (.continuing σ) σ

/-- What there is to run: a statement, some statements in order, or the rounds of a `for` statement
after its first clause. -/
inductive Work where
  | tree (r : Rose)
  | trees (rs : List Rose)
  | rounds (cond : Option Rose) (body : Rose) (step : Option Rose)

/-- The test of a loop; a missing one holds. -/
inductive Holds (A : Arithmetic) (σ : Store) : Option Rose → Prop
  | none : Holds A σ none
  | some {c : Rose} {v : Int} (value : Evaluates A σ c v) (holds : v ≠ 0) : Holds A σ (some c)

/-- A clause that may be missing. -/
inductive ChangesIf (A : Arithmetic) (σ : Store) : Option Rose → Store → Prop
  | none : ChangesIf A σ none σ
  | some {e : Rose} {τ : Store} (changes : Changes A σ e τ) : ChangesIf A σ (some e) τ

/-- The ending of a statement. -/
inductive Runs (A : Arithmetic) (D : Dispatch) : Work → Store → Ending → Prop
  | nil {σ : Store} : Runs A D (.trees []) σ (.normal σ)
  | cons {r : Rose} {rs : List Rose} {σ τ : Store}
      {o : Ending} (first : Runs A D (.tree r) σ (.normal τ))
      (rest : Runs A D (.trees rs) τ o) : Runs A D (.trees (r :: rs)) σ o
  | abrupt {r : Rose} {rs : List Rose} {σ : Store} {o : Ending} (first : Runs A D (.tree r) σ o)
      (leaves : ∀ τ, o ≠ .normal τ) : Runs A D (.trees (r :: rs)) σ o
  | block {r : Rose} {σ : Store} {o : Ending} (kind : r.kind = .block)
      (all : Runs A D (.trees r.children) σ o) : Runs A D (.tree r) σ o
  | null {r : Rose} {σ : Store} (kind : r.kind = .null) : Runs A D (.tree r) σ (.normal σ)
  | declaration {r : Rose} {σ : Store} {o : Ending} (kind : r.kind = .declaration)
      (all : Runs A D (.trees r.children) σ o) : Runs A D (.tree r) σ o
  | variable {r : Rose} {σ : Store} (form : r.IsVariable [] none) : Runs A D (.tree r) σ (.normal σ)
  | initialized {r e : Rose} {σ : Store} {v : Int} (form : r.IsVariable [] (some e))
      (value : Evaluates A σ e v) : Runs A D (.tree r) σ (.normal (Function.update σ (r.arg 0) v))
  | change {r : Rose} {σ τ : Store} (changes : Changes A σ r τ) : Runs A D (.tree r) σ (.normal τ)
  | ifOnlyYes {r c y : Rose} {σ : Store} {v : Int} {o : Ending} (kind : r.kind = .ifElse)
      (flag : r.arg 0 = 0) (kids : r.children = [c, y]) (test : Evaluates A σ c v) (holds : v ≠ 0)
      (yes : Runs A D (.tree y) σ o) : Runs A D (.tree r) σ o
  | ifOnlyNo {r c y : Rose} {σ : Store} (kind : r.kind = .ifElse) (flag : r.arg 0 = 0)
      (kids : r.children = [c, y]) (test : Evaluates A σ c 0) : Runs A D (.tree r) σ (.normal σ)
  | ifElseYes {r c y n : Rose} {σ : Store} {v : Int} {o : Ending} (kind : r.kind = .ifElse)
      (flag : r.arg 0 ≠ 0) (kids : r.children = [c, y, n]) (test : Evaluates A σ c v)
      (holds : v ≠ 0) (yes : Runs A D (.tree y) σ o) : Runs A D (.tree r) σ o
  | ifElseNo {r c y n : Rose} {σ : Store} {o : Ending}
      (kind : r.kind = .ifElse) (flag : r.arg 0 ≠ 0)
      (kids : r.children = [c, y, n]) (test : Evaluates A σ c 0) (no : Runs A D (.tree n) σ o) :
      Runs A D (.tree r) σ o
  | whileDone {r c b : Rose} {σ : Store} (kind : r.kind = .whileLoop) (kids : r.children = [c, b])
      (test : Evaluates A σ c 0) : Runs A D (.tree r) σ (.normal σ)
  | whileRound {r c b : Rose} {σ τ : Store} {v : Int} {o o' : Ending} (kind : r.kind = .whileLoop)
      (kids : r.children = [c, b]) (test : Evaluates A σ c v)
      (holds : v ≠ 0) (body : Runs A D (.tree b) σ o)
      (goes : o.GoesOn τ) (again : Runs A D (.tree r) τ o') : Runs A D (.tree r) σ o'
  | whileLeft {r c b : Rose} {σ : Store} {v : Int} {o o' : Ending} (kind : r.kind = .whileLoop)
      (kids : r.children = [c, b]) (test : Evaluates A σ c v) (holds : v ≠ 0)
      (body : Runs A D (.tree b) σ o) (ends : o.EndsLoop o') : Runs A D (.tree r) σ o'
  | doDone {r b c : Rose} {σ τ : Store} {o : Ending}
      (kind : r.kind = .doWhile) (kids : r.children = [b, c])
      (body : Runs A D (.tree b) σ o) (goes : o.GoesOn τ) (test : Evaluates A τ c 0) :
      Runs A D (.tree r) σ (.normal τ)
  | doRound {r b c : Rose} {σ τ : Store} {v : Int} {o o' : Ending} (kind : r.kind = .doWhile)
      (kids : r.children = [b, c]) (body : Runs A D (.tree b) σ o)
      (goes : o.GoesOn τ) (test : Evaluates A τ c v)
      (holds : v ≠ 0) (again : Runs A D (.tree r) τ o') : Runs A D (.tree r) σ o'
  | doLeft {r b c : Rose} {σ : Store} {o o' : Ending}
      (kind : r.kind = .doWhile) (kids : r.children = [b, c])
      (body : Runs A D (.tree b) σ o) (ends : o.EndsLoop o') : Runs A D (.tree r) σ o'
  | forLoop {r b : Rose} {init cond step : Option Rose}
      {σ τ : Store} {o : Ending} (kind : r.kind = .forLoop)
      (kids : r.children = init.toList ++ cond.toList ++ step.toList ++ [b])
      (hasInit : r.arg 0 = flagWord init.isSome) (hasCond : r.arg 1 = flagWord cond.isSome)
      (hasStep : r.arg 2 = flagWord step.isSome) (start : ChangesIf A σ init τ)
      (rounds : Runs A D (.rounds cond b step) τ o) : Runs A D (.tree r) σ o
  | forDone {b c : Rose} {step : Option Rose} {σ : Store} (test : Evaluates A σ c 0) :
      Runs A D (.rounds (some c) b step) σ (.normal σ)
  | forRound {b : Rose} {cond step : Option Rose}
      {σ τ υ : Store} {o o' : Ending} (holds : Holds A σ cond)
      (body : Runs A D (.tree b) σ o) (goes : o.GoesOn τ) (next : ChangesIf A τ step υ)
      (again : Runs A D (.rounds cond b step) υ o') : Runs A D (.rounds cond b step) σ o'
  | forLeft {b : Rose} {cond step : Option Rose}
      {σ : Store} {o o' : Ending} (holds : Holds A σ cond)
      (body : Runs A D (.tree b) σ o) (ends : o.EndsLoop o') : Runs A D (.rounds cond b step) σ o'
  | switching {r c b : Rose} {items : List Item} {σ : Store}
      {v : Int} {o : Ending} (kind : r.kind = .switching)
      (kids : r.children = [c, b]) (value : Evaluates A σ c v) (block : b.kind = .block)
      (labelled : List.Forall₂ Labelled b.children items)
      (inside : Runs A D (.trees (D items v)) σ o) : Runs A D (.tree r) σ o.outOfSwitch
  | breaking {r : Rose} {σ : Store} (kind : r.kind = .breaking) : Runs A D (.tree r) σ (.breaking σ)
  | continuing {r : Rose} {σ : Store} (kind : r.kind = .continuing) :
      Runs A D (.tree r) σ (.continuing σ)
  | returnVoid {r : Rose} {σ : Store} (kind : r.kind = .returning) (kids : r.children = []) :
      Runs A D (.tree r) σ (.returned none σ)
  | returnValue {r e : Rose} {σ : Store} {v : Int}
      (kind : r.kind = .returning) (kids : r.children = [e])
      (value : Evaluates A σ e v) : Runs A D (.tree r) σ (.returned (some v) σ)

end BilingualC
