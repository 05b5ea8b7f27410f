import Mathlib
import BilingualC.Proofs.Lowering.Program
import BilingualC.Proofs.Simulation

/-!
# Running generated functions

What the generator makes of a whole program, run on the machine. A function whose body is structured
code on local variables, with their declarations, returns what its body means (`generate_executes`).
A function with switches does so as well, and finds its operand stack as it was, if in every switch
the labels are in order (`generate_dispatches`).
-/

namespace BilingualC

open Lowering Machine Rose

/-- The kinds of nodes of structured code: statements without labels, declarations of variables, and
values. -/
def Kind.isStructured : Kind → Bool
  | .block | .null | .ifElse | .whileLoop | .doWhile | .forLoop | .breaking | .continuing
      | .returning
  | .declaration | .variable | .identifier | .literal | .unary | .binary | .assignment | .ternary =>
    true
  | _ => false

/-- The kinds of nodes of a switch and of its labels. -/
def Kind.isDispatch : Kind → Bool
  | .switching | .caseLabel | .defaultLabel => true
  | _ => false

/-- A node that works on integer variables of a set, and declares no others. -/
structure Rose.IsLocal (s : Session) (V : Set Int) (r : Rose) : Prop where
  type : r.kind.isExpression = true → r.exprType = TypeId.int
  mentioned : r.kind = .identifier → r.arg 2 ∈ V
  declared : r.kind = .variable → r.arg 0 ∈ V ∧ (s.identifier (r.arg 0)).type = TypeId.int

/-- What a function returns, and the values of its variables then. A function whose body ends
normally returns nothing. -/
inductive Ending.Gives : Ending → Option Int → Store → Prop
  | normal {τ : Store} : Gives (.normal τ) none τ
  | returned {value : Option Int} {τ : Store} : Gives (.returned value τ) value τ

section Functions

variable {s : Session} {root r body : Rose} {V : Set Int} {A : Arithmetic} {M : List Int}
    {L : Links} {σ τ : Store} {o : Ending} {cells : Int → Int} {stack : List Int} {a b : Nat}

/-- A part that is a function has its code in memory. -/
theorem PartsAt.function_of_mem {rs : List Rose} (parts : PartsAt M L s rs a b) (mem : r ∈ rs)
    (form : r.IsFunction body) : ∃ label a b, FunctionAt M ⟨label, L.function⟩ s r body a b := by
  induction parts with
  | nil => simp at mem
  | @declaration r' rest _ _ _ isDeclaration _ _ ih =>
    rcases List.mem_cons.mp mem with rfl | later
    · exact absurd (form.kind.symm.trans isDeclaration.kind) (by simp)
    · exact ih later
  | @function r' body' rest a m _ label isFunction code _ _ ih =>
    rcases List.mem_cons.mp mem with rfl | later
    · have same : body' = body := by simpa [isFunction.kids] using form.kids
      exact ⟨label, a, m, same ▸ code⟩
    · exact ih later

theorem WellFormed.function_generated (wf : WellFormed s root)
    (part : r ∈ root.children) (form : r.IsFunction body) :
    ∃ t image label entry stop, generate s (s.tree.handle root.index) = .ok (t, .ok image) ∧
    FunctionAt image.memory ⟨label, t.functionAddress⟩ s r body entry stop := by
  obtain ⟨t, image, last, made, -, code⟩ := generate_wellFormed wf
  obtain ⟨label, entry, stop, there⟩ := code.parts.function_of_mem part form
  exact ⟨t, image, label, entry, stop, made, there⟩

theorem Rose.IsLocal.onInts {x : Rose} (onLocals : x.IsLocal s V)
    (compares : x.kind = .switching → A.Compares) : x.IsOnInts A s V where
  type := onLocals.type
  mentioned := onLocals.mentioned
  declared := onLocals.declared
  compares := compares

/-- The body of a function does on the machine what it means. -/
theorem FunctionAt.ends {entry stop : Nat} (code : FunctionAt M L s r body entry stop)
    (own : Set.InjOn s.displacementOf V) (ints : body.OnInts A s V) (ordered : body.SwitchesOrdered)
    (runs : Runs A Dispatch.meant (.tree body) σ o) (represents : Represents s V cells σ)
    (stack : List Int) : ∃ last, stop = last + 1 ∧ CellsAt M last [Operation.code .returnVoid] ∧
    Ends A M s V [] stack last (.running (entry + 3) stack cells) o := by
  obtain ⟨last, lay, back, same⟩ := code.code
  exact ⟨last, same, back,
    (runs.taken_of_meant ordered).ends own ints ⟨_, _, lay⟩ (by simp [Deep]) represents⟩

/-- **Structured code keeps its meaning.** The image of a well-formed program holds, for every
function whose body is structured code on integer variables with a frame cell each, declared in the
body or not, code that does what the body means: whenever the body ends from a store, the code from
the first address of the body ends with the same returned value and the final values of the
variables in their cells. -/
theorem generate_executes (wf : WellFormed s root)
    (part : r ∈ root.children) (form : r.IsFunction body)
    (structured : ∀ x ∈ body.nodes, x.kind.isStructured = true ∧ x.IsLocal s V)
    (own : Set.InjOn s.displacementOf V) :
    ∃ t image stop, ∃ entry : Nat, generate s (s.tree.handle root.index) = .ok (t, .ok image) ∧
    t.functionAddress (s.displacementOf (r.arg 0)) = entry ∧
    instructionAt image.memory entry = some (.single .functionStart, [r.arg 1, stop]) ∧
    ∀ (A : Arithmetic) (σ τ : Store) (o : Ending) (value : Option Int) (cells : Int → Int) (stack :
      List Int), Runs A Dispatch.meant (.tree body) σ o → o.Gives value τ → Represents s V cells σ →
    ∃ cells', Leads A image.memory (.running (entry + 3) stack cells) (.returned value cells') ∧
    Represents s V cells' τ := by
  obtain ⟨t, image, label, entry, stop, made, code⟩ := wf.function_generated part form
  refine ⟨t, image, stop, entry, made, code.entry,
    instructionAt_of_cells (Instruction.mem_all_single _) code.start rfl, ?_⟩
  intro A σ τ o value cells stack runs gives represents
  have noSwitch {x : Rose} (mem : x ∈ body.nodes) : x.kind ≠ .switching := fun same => by
    have kind := (structured x mem).1
    rw [same] at kind
    cases kind
  have ints : body.OnInts A s V := fun x mem =>
    (structured x mem).2.onInts fun same => absurd same (noSwitch mem)
  have ordered : body.SwitchesOrdered := fun x mem same => absurd same (noSwitch mem)
  obtain ⟨last, -, back, there, moved, arrives⟩ := code.ends own ints ordered runs represents stack
  cases gives with
  | normal =>
    cases arrives with
    | normal after => exact ⟨_, moved.trans (leads_returnVoid back), after⟩
  | returned =>
    cases arrives with
    | returned after => exact ⟨_, moved, after⟩

/-- **Switches execute what is meant**, if in every switch a label stands in front of the first
statement and no label follows the default label: in a function of structured code with switches,
whenever the body ends normally from a store, the code of the body leads to its last instruction
with the final values of the variables in their cells and the operand stack as it was. -/
theorem generate_dispatches (wf : WellFormed s root)
    (part : r ∈ root.children) (form : r.IsFunction body)
    (kinds : ∀ x ∈ body.nodes, (x.kind.isStructured = true ∨ x.kind.isDispatch = true) ∧
      x.IsLocal s V) (own : Set.InjOn s.displacementOf V) (ordered : body.SwitchesOrdered) :
    ∃ t image, ∃ entry last : Nat, generate s (s.tree.handle root.index) = .ok (t, .ok image) ∧
    t.functionAddress (s.displacementOf (r.arg 0)) = entry ∧
    instructionAt image.memory entry = some (.single .functionStart, [r.arg 1, (last + 1 : Nat)]) ∧
    instructionAt image.memory last = some (.single .returnVoid, []) ∧
    ∀ (A : Arithmetic) (σ τ : Store) (cells : Int → Int) (stack : List Int), A.Compares →
    Runs A Dispatch.meant (.tree body) σ (.normal τ) → Represents s V cells σ →
    ∃ cells', Leads A image.memory (.running (entry + 3) stack cells) (.running last stack cells') ∧
    Represents s V cells' τ := by
  obtain ⟨t, image, label, entry, stop, made, code⟩ := wf.function_generated part form
  obtain ⟨last, lay, back, rfl⟩ := code.code
  refine ⟨t, image, entry, last, made, code.entry,
    instructionAt_of_cells (Instruction.mem_all_single _) code.start rfl,
    instructionAt_of_cells (Instruction.mem_all_single _) back rfl, ?_⟩
  intro A σ τ cells stack compares runs represents
  have ints : body.OnInts A s V := fun x mem => (kinds x mem).2.onInts fun _ => compares
  obtain ⟨last', same, -, there, moved, arrives⟩ := code.ends own ints ordered runs represents stack
  obtain rfl : last = last' := Nat.succ.inj same
  cases arrives with
  | normal after => exact ⟨_, moved, after⟩

end Functions

/-! ## A program -/

namespace Sample

def use (i id : Int) : Rose :=
  .node i Kind.identifier.number [TypeId.int, Category.place.word, id] []
def constant (i value : Int) : Rose :=
  .node i Kind.literal.number [TypeId.int, Category.value.word, value] []

/-- An assignment to a variable. -/
def change (i : Int) (op : BinaryOp) (target value : Rose) : Rose :=
  .node i Kind.assignment.number [TypeId.int, Category.value.word, op.number] [target, value]

/-- The variable of `int x = 2;`, where `x` has the number 2. -/
def counter : Rose := .node 24 Kind.variable.number [2, 0, 1] [constant 32 2]

def declared : Rose := .node 19 Kind.declaration.number [] [counter]

/-- `{ int x = 2; while (x) x -= 1; return x; }`, where `x` has the number 2. -/
def countdown : Rose :=
  .node 14 Kind.block.number [] [
    declared,
    .node 40 Kind.whileLoop.number [] [use 45 2, change 53 .subAssign (use 61 2) (constant 69 1)],
    .node 77 Kind.returning.number [] [use 82 2]]

/-- `{ switch (y) { case 1: y = 10; break; default: y = 20; } }`, where `y` has the number 4. -/
def choice : Rose :=
  .node 97 Kind.block.number [] [ .node 102 Kind.switching.number [] [use 107 4,
    .node 115 Kind.block.number [] [ .node 120 Kind.caseLabel.number [] [constant 125 1,
    change 133 .assign (use 141 4) (constant 149 10)], .node 157 Kind.breaking.number [] [],
    .node 162 Kind.defaultLabel.number [] [change 167 .assign (use 175 4) (constant 183 20)]]]]

/-- Two functions with one variable each. -/
def program : Rose :=
  .node 2 Kind.unit.number [] [
    .node 7 Kind.functionDefinition.number [1, 4] [countdown],
    .node 90 Kind.functionDefinition.number [3, 4] [choice]]

def session : Session :=
  { Session.new 0 (.new none false) with
    tree := ⟨((program.blocks 0).flatMap fun b =>
      [b.next, b.type, b.count, b.first.getD 0, b.args.length] ++ b.args).toArray, ∅⟩
    identifiers := #[.none, ⟨0, 0, TypeId.undefined, .function, 0, true⟩,
      ⟨0, 0, TypeId.int, .variable, 3, false⟩,
      ⟨0, 0, TypeId.undefined, .function, 1, true⟩, ⟨0, 0, TypeId.int, .variable, 3, false⟩]
    functions := #[0, 0]
    main := 3 }

theorem has : session.tree.Has program := ⟨0, by decide +kernel⟩

/-- Each node is a function of the program, or it is on integer variables and declares one of them
at most. -/
theorem nodes_kinds : ∀ x ∈ program.nodes,
    (x.kind = .functionDefinition ∧ (x.arg 0 = 1 ∨ x.arg 0 = 3)) ∨
      ((x.kind = .unit ∨ x.kind.isStructured = true ∨ x.kind.isDispatch = true) ∧
        (x.kind.isExpression = true → x.exprType = TypeId.int) ∧
        (x.kind = .identifier → x.arg 2 = 2 ∨ x.arg 2 = 4) ∧
        (x.kind = .variable → x.arg 0 = 2 ∧ ∀ i ∈ x.children, i.kind ≠ .initializer)) := by
  decide

theorem accepts : session.Accepts program := by
  intro x mem
  rcases nodes_kinds x mem with ⟨kind, number⟩ | ⟨kind, type, mentioned, declares⟩
  · have isFunction : session.IsFunction (x.arg 0) := by
      rcases number with same | same <;> rw [same] <;> exact ⟨by decide, by decide, by decide⟩
    constructor <;> intro other <;> simp [kind, Kind.isExpression] at other ⊢
    exact isFunction
  · have other : x.kind ≠ .call ∧ x.kind ≠ .jump ∧ x.kind ≠ .label ∧
      x.kind ≠ .functionDefinition := by
      refine ⟨?_, ?_, ?_, ?_⟩ <;> intro same <;> rw [same] at kind <;> revert kind <;> decide
    exact {
      type := fun isExpr => .scalar (by rw [type isExpr]; decide)
      declared := fun same => by
        rw [(declares same).1]
        exact ⟨.scalar (by decide), by decide⟩
      list := fun same _ i child kind => absurd kind ((declares same).2 i child)
      callee := fun same => absurd same other.1
      named := fun same => by rcases mentioned same with id | id <;> rw [id] <;> decide
      jump := fun same => absurd same other.2.1
      label := fun same => absurd same other.2.2.1
      function := fun same => absurd same other.2.2.2 }

theorem isExpr_use (i id : Int) : IsExpr (use i id) := .identifier rfl rfl
theorem isExpr_constant (i v : Int) : IsExpr (constant i v) := .literal rfl rfl rfl

theorem isExpr_change (i id v : Int) {op : BinaryOp} (j k : Int)
    (stores : op.stores = true) (listed : BinaryOp.ofNumber op.number = op) :
    IsExpr (change i op (use j id) (constant k v)) := by
  have same : (change i op (use j id) (constant k v)).binaryOp = op := listed
  exact .assignment rfl rfl rfl (by rw [same]; exact stores) (isExpr_use j id)
    (isExpr_constant k v) rfl fun _ => rfl

theorem counter_form : counter.IsVariable [] (some (constant 32 2)) where
  kind := rfl
  kids := rfl
  count := rfl
  flag := rfl
  bounds := by simp
  init i mem := by
    obtain rfl : constant 32 2 = i := Option.mem_some.mp mem
    exact .expr (isExpr_constant _ _)

theorem countdown_form :
    IsFunction (.node 7 Kind.functionDefinition.number [1, 4] [countdown]) countdown where
  kind := rfl
  kids := rfl
  body := by
    refine .block rfl fun c mem => ?_
    simp only [countdown, children_node, List.mem_cons, List.not_mem_nil, or_false] at mem
    rcases mem with rfl | rfl | rfl
    · refine .declaration ⟨rfl, fun c mem => ?_⟩
      obtain rfl : c = counter := List.mem_singleton.mp mem
      exact .inr ⟨_, _, counter_form⟩
    · exact .whileLoop rfl rfl (isExpr_use _ _) (.expr (isExpr_change _ _ _ _ _ rfl rfl))
    · exact .returnValue rfl rfl (isExpr_use _ _)

theorem choice_form :
    IsFunction (.node 90 Kind.functionDefinition.number [3, 4] [choice]) choice where
  kind := rfl
  kids := rfl
  body := by
    refine .block rfl fun c mem => ?_
    simp only [choice, children_node, List.mem_cons, List.not_mem_nil, or_false] at mem
    rw [mem]
    refine .switching rfl rfl (isExpr_use _ _) (.block rfl fun c mem => ?_)
    simp only [children_node, List.mem_cons, List.not_mem_nil, or_false] at mem
    rcases mem with rfl | rfl | rfl
    · exact .caseLabel rfl rfl (isExpr_constant _ _) (.expr (isExpr_change _ _ _ _ _ rfl rfl))
    · exact .breaking rfl (.inr rfl) rfl
    · exact .defaultLabel rfl rfl (.expr (isExpr_change _ _ _ _ _ rfl rfl))

theorem wellFormed : WellFormed session program where
  has := has
  height := by decide +kernel
  types := by decide
  parts r mem := by
    simp only [program, children_node, List.mem_cons, List.not_mem_nil, or_false] at mem
    rcases mem with rfl | rfl
    · exact .inr ⟨_, countdown_form⟩
    · exact .inr ⟨_, choice_form⟩
  ok := accepts
  labels := by decide
  jumps := by decide
  numbers := by decide
  defined id kind := by
    have inside : 0 < id ∧ id < 5 := by
      by_contra outside
      have none : session.identifier id = .none := by
        rw [Session.identifier, if_neg]
        simpa [session] using outside
      rw [none] at kind
      simp [Identifier.none] at kind
    obtain ⟨low, high⟩ := inside
    interval_cases id <;> revert kind <;> decide
  unknown n := by
    rw [Session.functionAddress]
    split
    · next inside =>
      simp only [inTable, session, Bool.and_eq_true, decide_eq_true_eq, List.size_toArray,
        List.length_cons, List.length_nil] at inside
      obtain ⟨low, high⟩ := inside
      interval_cases n <;> rfl
    · rfl
  main := by decide

end Sample

open Sample in
/-- Counting down from two returns zero, whatever the cell of the variable held before. -/
theorem generate_executes_countdown : ∃ t image cells', ∃ entry : Nat,
    generate session (session.tree.handle Sample.program.index) = .ok (t, .ok image) ∧
    Leads .words image.memory (.running (entry + 3) [] fun _ => 7) (.returned (some 0) cells') := by
  have structured : ∀ x ∈ countdown.nodes, x.kind.isStructured = true ∧ x.IsLocal session {2} := by
    have all : ∀ x ∈ countdown.nodes, x.kind.isStructured = true ∧
        (x.kind.isExpression = true → x.exprType = TypeId.int) ∧
        (x.kind = .identifier → x.arg 2 = 2) ∧
        (x.kind = .variable → x.arg 0 = 2 ∧ (session.identifier (x.arg 0)).type = TypeId.int) := by
      decide
    exact fun x mem => ⟨(all x mem).1, (all x mem).2.1, (all x mem).2.2.1, (all x mem).2.2.2⟩
  obtain ⟨t, image, stop, entry, made, -, -, run⟩ :=
    generate_executes wellFormed (r := Sample.program.children[0])
      (by simp [Sample.program]) countdown_form structured (Set.injOn_singleton _ _)
  have value (σ : Store) (i : Int) : Evaluates .words σ (use i 2) (σ 2) := .variable rfl
  have less (v w : Int) (result : BinaryOp.onInts .sub v 1 = some w) (σ : Store) (here : σ 2 = v) :
      Runs .words Dispatch.meant (.tree (change 53 .subAssign (use 61 2) (constant 69 1))) σ
        (.normal (Function.update σ 2 w)) := by
    rw [← here] at result
    exact .change
      (.assignment (t := use 61 2) (e := constant 69 1) rfl rfl rfl rfl (.literal rfl) result)
  have begun : Runs .words Dispatch.meant (.tree declared) (fun _ => 7)
    (.normal (Function.update (fun _ => 7) 2 2)) :=
    .declaration rfl (.cons (.initialized counter_form (.literal rfl)) .nil)
  have rounds : Runs .words Dispatch.meant (.tree countdown) (fun _ => 7) (.returned (some 0)
      (Function.update (Function.update (Function.update (fun _ => 7) 2 2) 2 1) 2 0)) := by
    refine .block rfl (.cons begun (.cons ?_ (.abrupt (.returnValue rfl rfl (value _ 82)) nofun)))
    refine .whileRound rfl rfl (value _ 45) (by decide) (less 2 1 rfl _ rfl) .normal ?_
    refine .whileRound rfl rfl (value _ 45) (by decide) (less 1 0 rfl _ rfl) .normal ?_
    exact .whileDone rfl rfl (value _ 45)
  obtain ⟨cells', leads, -⟩ := run .words _ _ _ _ (fun _ => 7) [] rounds .returned fun _ _ => rfl
  exact ⟨t, image, cells', entry, made, leads⟩

open Sample in
/-- The case of the value is executed up to its break, and the stack is as it was. -/
theorem generate_dispatches_case : ∃ t image cells', ∃ entry last : Nat,
    generate session (session.tree.handle Sample.program.index) = .ok (t, .ok image) ∧
      Leads .words image.memory (.running (entry + 3) [7] fun _ => 1) (.running last [7] cells') ∧
      cells' (session.displacementOf 4) = 10 := by
  have kinds : ∀ x ∈ choice.nodes, (x.kind.isStructured = true ∨ x.kind.isDispatch = true) ∧
      x.IsLocal session {4} := by
    have all : ∀ x ∈ choice.nodes, (x.kind.isStructured = true ∨ x.kind.isDispatch = true) ∧
        (x.kind.isExpression = true → x.exprType = TypeId.int) ∧
        (x.kind = .identifier → x.arg 2 = 4) ∧ x.kind ≠ .variable := by
      decide
    exact fun x mem =>
      ⟨(all x mem).1, (all x mem).2.1, (all x mem).2.2.1, fun same => absurd same (all x mem).2.2.2⟩
  have ordered : choice.SwitchesOrdered := by decide
  obtain ⟨t, image, entry, last, made, -, -, -, run⟩ :=
    generate_dispatches wellFormed (r := Sample.program.children[1])
      (by simp [Sample.program]) choice_form kinds (Set.injOn_singleton _ _) ordered
  have compares : Arithmetic.words.Compares := fun u v =>
    ⟨flagWord (u == v), rfl, by by_cases same : u = v <;> simp [same, flagWord]⟩
  have runs : Runs .words Dispatch.meant (.tree choice) (fun _ => 1)
    (.normal (Function.update (fun _ => 1) 4 10)) := by
    refine .block rfl (.cons ?_ .nil)
    have labelled : List.Forall₂ Labelled (choice.children[0].children[1].children)
        [⟨[some 1], change 133 .assign (use 141 4) (constant 149 10)⟩,
        ⟨[], .node 157 Kind.breaking.number [] []⟩,
        ⟨[none], change 167 .assign (use 175 4) (constant 183 20)⟩] :=
      .cons (.case (v := constant 125 1) rfl rfl rfl
        (.none (.expr (isExpr_change _ _ _ _ _ rfl rfl)))) (.cons (.none (.breaking rfl))
        (.cons (.default rfl rfl (.none (.expr (isExpr_change _ _ _ _ _ rfl rfl)))) .nil))
    refine .switching (o := .breaking (Function.update (fun _ => 1) 4 10)) rfl rfl
      (.variable rfl) rfl labelled ?_
    refine .cons (τ := Function.update (fun _ => 1) 4 10) ?_ (.abrupt (.breaking rfl) nofun)
    exact .change
      (.assignment (t := use 141 4) (e := constant 149 10) rfl rfl rfl rfl (.literal rfl) rfl)
  obtain ⟨cells', leads, after⟩ := run .words _ _ (fun _ => 1) [7] compares runs fun _ _ => rfl
  exact ⟨t, image, cells', entry, last, made, leads, after 4 rfl⟩
end BilingualC
