import Mathlib
import BilingualC.Proofs.Lowering.Choice
import BilingualC.Proofs.Lowering.Leaves
import BilingualC.Proofs.Tree.Names

/-!
# Names in code

The labels that are placed in the code of a statement, and those that it jumps to, are the ones that
the nodes of the statement name. A function is called in the code of a tree only if some node of the
tree calls it; in well-formed code the calls are those of the call nodes, one by one
(`Rose.callees_statement`).
-/

namespace BilingualC

namespace Piece

theorem labels_all (cs : List Piece) : (all cs).labels = cs.flatMap labels := by
  induction cs with
  | nil => rfl
  | cons c cs ih => rw [all, labels, ih, List.flatMap_cons]

theorem gotos_all (cs : List Piece) : (all cs).gotos = cs.flatMap gotos := by
  induction cs with
  | nil => rfl
  | cons c cs ih => rw [all, gotos, ih, List.flatMap_cons]

end Piece

namespace Rose

/-- The labels in the code of a statement are those that its nodes name. -/
theorem names_statement {r : Rose} {inLoop inSwitch : Bool}
    (h : IsStatement inLoop inSwitch r) (s : Session) :
    (r.toStatement s).labels = r.collect .label ∧ (r.toStatement s).gotos = r.collect .jump := by
  -- expressions and declarations name no labels, and neither does their code
  have value {e : Rose} (expr : IsExpr e) : (e.toValue s).labels = [] ∧ (e.toValue s).gotos = [] ∧
      e.collect .label = [] ∧ e.collect .jump = [] :=
    ⟨(flat_expr expr s).1.labels, (flat_expr expr s).1.gotos, collect_expr expr rfl,
      collect_expr expr rfl⟩
  have flat {c : Piece} {x : Rose} (flat : c.Flat) (labels : x.collect .label = [])
      (jumps : x.collect .jump = []) : c.labels = x.collect .label ∧ c.gotos = x.collect .jump :=
    ⟨flat.labels.trans labels.symm, flat.gotos.trans jumps.symm⟩
  induction h with
  | block kind _ each =>
    rw [toStatement_block kind, Piece.labels_all, Piece.gotos_all, collect_other (by simp [kind]),
      collect_other (by simp [kind]), List.flatMap_map, List.flatMap_map]
    exact ⟨List.flatMap_congr fun c mem => (each c mem).1, List.flatMap_congr fun c mem =>
      (each c mem).2⟩
  | null kind leaf =>
    rw [toStatement_null (.inl kind)]
    exact flat trivial (by simp [collect_eq, kind, leaf]) (by simp [collect_eq, kind, leaf])
  | declaration declared =>
    exact flat (flat_declaration declared s) (collect_declaration declared (.inl rfl))
      (collect_declaration declared (.inr rfl))
  | ifOnly kind flag kids test _ yes =>
    rw [toStatement_ifOnly kind flag kids, collect_other (by simp [kind]),
      collect_other (by simp [kind]), kids]
    simp [Piece.labels, Piece.gotos, value test, yes]
  | ifElse kind flag kids test _ _ yes no =>
    rw [toStatement_ifElse kind flag kids, collect_other (by simp [kind]),
      collect_other (by simp [kind]), kids]
    simp [Piece.labels, Piece.gotos, value test, yes, no]
  | whileLoop kind kids test _ body =>
    rw [toStatement_whileLoop kind kids, collect_other (by simp [kind]),
      collect_other (by simp [kind]), kids]
    simp [Piece.labels, Piece.gotos, value test, body]
  | doWhile kind kids _ test body =>
    rw [toStatement_doWhile kind kids, collect_other (by simp [kind]),
      collect_other (by simp [kind]), kids]
    simp [Piece.labels, Piece.gotos, value test, body]
  | @forLoop _ _ r b init cond step kind kids hasInit hasCond hasStep first tested next _ body =>
    -- each clause in the head of a `for` loop may be missing
    have stepNames : (clause (toEffect s) step).labels = [] ∧
        (clause (toEffect s) step).gotos = [] ∧
        step.toList.flatMap (collect .label) = [] ∧ step.toList.flatMap (collect .jump) = [] := by
      cases step with
      | none => exact ⟨rfl, rfl, rfl, rfl⟩
      | some e =>
        have effect := (flat_expr (next e rfl) s).2.2
        have none := value (next e rfl)
        exact ⟨effect.labels, effect.gotos, by simp [none], by simp [none]⟩
    have initNames : (clause (initCode s) init).labels = [] ∧
        (clause (initCode s) init).gotos = [] ∧
        init.toList.flatMap (collect .label) = [] ∧ init.toList.flatMap (collect .jump) = [] := by
      cases init with
      | none => exact ⟨rfl, rfl, rfl, rfl⟩
      | some i =>
        rw [clause, initCode]
        rcases first i rfl with declared | expr
        · have flat := flat_declaration declared s
          rw [if_pos declared.kind]
          exact ⟨flat.labels, flat.gotos, by simp [collect_declaration declared (.inl rfl)],
            by simp [collect_declaration declared (.inr rfl)]⟩
        · have effect := (flat_expr expr s).2.2
          have none := value expr
          have other : i.kind ≠ .declaration := fun same => by
            simpa [same, Kind.isExpression] using (isExpr_kind expr).1
          rw [if_neg other]
          exact ⟨effect.labels, effect.gotos, by simp [none], by simp [none]⟩
    rw [toStatement_forLoop kind kids hasInit hasCond hasStep, collect_other (by simp [kind]),
      collect_other (by simp [kind]), kids]
    cases cond with
    | none => simp [loopCode, Piece.labels, Piece.gotos, stepNames, initNames, body]
    | some c =>
      simp [loopCode, Piece.labels, Piece.gotos, stepNames, initNames, body, value (tested c rfl)]
  | switching kind kids test _ body =>
    rw [toStatement_switching kind kids, collect_other (by simp [kind]),
      collect_other (by simp [kind]), kids]
    simp [Piece.labels, Piece.gotos, value test, body]
  | caseLabel kind kids test _ body =>
    rw [toStatement_caseLabel kind kids, collect_other (by simp [kind]),
      collect_other (by simp [kind]), kids]
    simp [Piece.labels, Piece.gotos, value test, body]
  | defaultLabel kind kids _ body =>
    rw [toStatement_defaultLabel kind kids, collect_other (by simp [kind]),
      collect_other (by simp [kind]), kids]
    simp [Piece.labels, Piece.gotos, body]
  | breaking kind _ leaf =>
    rw [toStatement_breaking kind]
    simp [collect_eq, kind, leaf, Piece.labels, Piece.gotos]
  | continuing kind leaf =>
    rw [toStatement_continuing kind]
    simp [collect_eq, kind, leaf, Piece.labels, Piece.gotos]
  | jump kind leaf =>
    rw [toStatement_jump kind]
    simp [collect_eq, kind, leaf, Piece.labels, Piece.gotos]
  | label kind kids _ body =>
    rw [toStatement_label kind kids, collect_eq, collect_other (by simp [kind]), kids]
    simp [kind, Piece.labels, Piece.gotos, body]
  | returnVoid kind kids =>
    rw [toStatement_returnVoid kind kids]
    simp [collect_eq, kind, kids, Piece.op, Piece.labels, Piece.gotos]
  | returnValue kind kids test =>
    rw [toStatement_returnValue kind kids, collect_other (by simp [kind]),
      collect_other (by simp [kind]), kids]
    simp [Piece.op, Piece.labels, Piece.gotos, value test]
  | expr expr =>
    rw [toStatement_expr (isExpr_kind expr).1]
    exact flat (flat_expr expr s).2.2 (collect_expr expr rfl) (collect_expr expr rfl)

end Rose

/-! ## Calls -/

/-- A piece of code calls functions with a property only. -/
def Piece.CallsOnly (P : Int → Prop) (c : Piece) : Prop := ∀ n ∈ c.callees, P n

namespace Piece

variable {P : Int → Prop} {c d e : Piece}

theorem callsOnly_skip : skip.CallsOnly P := nofun

theorem callsOnly_pair (first : c.CallsOnly P) (second : d.CallsOnly P) :
    ∀ n ∈ c.callees ++ d.callees, P n :=
  List.forall_mem_append.mpr ⟨first, second⟩

theorem callsOnly_triple (first : c.CallsOnly P) (second : d.CallsOnly P) (third : e.CallsOnly P) :
    ∀ n ∈ c.callees ++ d.callees ++ e.callees, P n :=
  List.forall_mem_append.mpr ⟨callsOnly_pair first second, third⟩

theorem hereditary_callsOnly (P : Int → Prop) : Hereditary (CallsOnly P) where
  skip := callsOnly_skip
  plain _ := nofun
  text _ := nofun
  seq := callsOnly_pair
  choose := callsOnly_triple
  only := callsOnly_pair
  short := callsOnly_pair
  whileLoop := callsOnly_pair
  doWhile := callsOnly_pair
  forLoop := callsOnly_triple
  endlessLoop := callsOnly_pair
  switch := callsOnly_pair
  caseLabel := callsOnly_pair
  defaultLabel := id
  breaking := nofun
  continuing := nofun
  goto _ := nofun
  label := id

end Piece

/-- The code of a tree calls the functions that its nodes call. -/
theorem Rose.callsOnly_codes {P : Int → Prop} {s : Session} (r : Rose)
    (callees : ∀ x ∈ r.nodes, x.kind = .call →
      P (s.displacementOf ((x.children.headD default).arg 2))) :
    (r.codes s).Each (Piece.CallsOnly P) :=
  (Piece.hereditary_callsOnly P).tree r fun x mem =>
    ⟨fun kind => List.forall_mem_singleton.mpr (callees x mem kind), fun _ _ _ _ => nofun,
      fun _ _ _ _ => nofun, fun _ _ _ _ => nofun⟩

/-! ## Calls one by one -/

namespace Piece

theorem callees_plain (i : Instruction) (operands : List Int) : (plain i operands).callees = [] :=
  rfl

theorem callees_call (number : Int) : (call number).callees = [number] := rfl

theorem callees_seq (c d : Piece) : (seq c d).callees = c.callees ++ d.callees := rfl

theorem callees_choose (t y n : Piece) :
    (choose t y n).callees = t.callees ++ y.callees ++ n.callees :=
  rfl

theorem callees_all (cs : List Piece) : (all cs).callees = cs.flatMap callees := by
  induction cs with
  | nil => rfl
  | cons c cs ih => rw [all, callees_seq, ih, List.flatMap_cons]

end Piece

/-- The number of the function that a call node calls. -/
def Session.calleeOf (s : Session) (x : Rose) : Int :=
  s.displacementOf ((x.children.headD default).arg 2)

namespace Rose

variable {s : Session} {r : Rose}

/-- The numbers of the functions that a tree calls, in the order of their code. -/
def callees (s : Session) (r : Rose) : List Int := r.calls.map s.calleeOf

theorem mem_callees {n : Int} (mem : n ∈ r.callees s) : ∃ x ∈ r.nodes, x.kind = .call ∧
    n = s.calleeOf x := by
  obtain ⟨x, inside, rfl⟩ := List.mem_map.mp mem
  obtain ⟨below, kind⟩ := mem_calls.mp inside
  exact ⟨x, below, kind, rfl⟩

theorem callees_eq (s : Session) (r : Rose) :
    r.callees s = (r.inOrder r.children).flatMap (callees s) ++ if r.kind = .call
    then [s.calleeOf r] else [] := by
  rw [callees, calls_eq, List.map_append, List.map_flatMap]
  congr 1
  split <;> rfl

theorem callees_other (call : r.kind ≠ .call) (loop : r.kind ≠ .forLoop) :
    r.callees s = r.children.flatMap (callees s) := by
  rw [callees_eq, if_neg call, inOrder, if_neg loop, List.append_nil]

theorem callees_leaf (call : r.kind ≠ .call) (leaf : r.children = []) : r.callees s = [] := by
  rw [callees_eq, if_neg call, inOrder, leaf]
  split <;> simp

theorem callees_one {e : Rose} (call : r.kind ≠ .call) (loop : r.kind ≠ .forLoop)
    (kids : r.children = [e]) : r.callees s = e.callees s := by
  rw [callees_other call loop, kids, List.flatMap_singleton]

theorem callees_two {l e : Rose} (call : r.kind ≠ .call) (loop : r.kind ≠ .forLoop)
    (kids : r.children = [l, e]) : r.callees s = l.callees s ++ e.callees s := by
  rw [callees_other call loop, kids, List.flatMap_cons, List.flatMap_singleton]

theorem callees_three {l m e : Rose} (call : r.kind ≠ .call) (loop : r.kind ≠ .forLoop)
    (kids : r.children = [l, m, e]) : r.callees s = l.callees s ++ m.callees s ++ e.callees s := by
  rw [callees_other call loop, kids, List.flatMap_cons, List.flatMap_cons, List.flatMap_singleton,
    List.append_assoc]

/-- The library functions that take names are given names: the code of such a call mentions its
arguments only. -/
def TakesNames (r : Rose) : Prop :=
  ∀ x ∈ r.nodes, x.kind = .builtin → x.builtin = .printid ∨ x.builtin = .getid →
    ∀ c ∈ x.children, c.kind = .identifier

theorem TakesNames.child {c : Rose} (takes : r.TakesNames) (mem : c ∈ r.children) : c.TakesNames :=
  fun x inside => takes x (mem_nodes_child mem inside)

/-! ### Expressions -/

theorem callees_loadCode (s : Session) (type : Int) : (loadCode s type).callees = [] := by
  rw [loadCode]
  split <;> rfl

/-- A store in a variable mentions the variable only. -/
theorem callees_storeCode {target : Rose} {address stored : Piece} {i : Instruction}
    {extra : List Int} (form : IsExpr target) (place : address.callees = target.callees s) :
    (storeCode s target address stored i extra).callees = target.callees s ++ stored.callees := by
  rw [storeCode]
  split
  · next name =>
    have leaf : target.children = [] := by
      cases form <;> simp_all
    rw [callees_leaf (by simp [name]) leaf]
    exact List.append_nil _
  · rw [Piece.callees_seq, Piece.callees_seq, place, Piece.callees_plain, List.append_nil]

theorem callees_assignmentCode {target : Rose} {address stored : Piece} {void : Bool}
    (form : IsExpr target) (place : address.callees = target.callees s) :
    (assignmentCode s r target address stored void).callees = target.callees s ++ stored.callees :=
    by
  rw [assignmentCode]
  split <;> exact callees_storeCode form place

theorem callees_stepCode {e : Rose} {codes : Codes} {void : Bool} (op : r.unaryOp.steps = true)
    (form : IsExpr e) (place : codes.address.callees = e.callees s) :
    (unaryCode s r e codes void).callees = e.callees s := by
  have other : r.unaryOp ≠ .address ∧ r.unaryOp ≠ .indirection := by
    constructor <;> intro same <;> simp [same, UnaryOp.steps] at op
  simp only [unaryCode, other.1, other.2, UnaryOp.isStep_of_steps op, if_false, if_true]
  rw [callees_storeCode form place]
  exact List.append_nil _

theorem callees_libraryCode (kind : r.kind = .builtin)
    (names : r.TakesNames) (all : ∀ c ∈ r.children, IsExpr c)
    (each : ∀ c ∈ r.children, (c.toValue s).callees = c.callees s) :
    (libraryCode s r (r.children.map (codes s))).callees = r.children.flatMap (callees s) := by
  have values : (Piece.all ((r.children.map (codes s)).map (·.value))).callees =
    r.children.flatMap (callees s) := by
    rw [Piece.callees_all, List.map_map, List.flatMap_map]
    exact List.flatMap_congr each
  have mentioned (taken : r.builtin = .printid ∨ r.builtin = .getid) (o : Operation) :
      (Piece.all (r.children.map fun c => .op o [c.arg 2])).callees =
      r.children.flatMap (callees s) := by
    rw [Piece.callees_all, List.flatMap_map]
    refine List.flatMap_congr fun c mem => ?_
    have name := names r r.mem_nodes_self kind taken c mem
    have leaf : c.children = [] := by
      cases all c mem <;> simp_all
    rw [callees_leaf (by simp [name]) leaf]
    rfl
  rw [libraryCode]
  split
  · exact (List.append_nil _).trans values
  · rw [Piece.callees_all, List.map_map, List.zipWith_map_right, List.zipWith_self,
      List.flatMap_map]
    refine List.flatMap_congr fun c mem => ?_
    exact (List.append_nil _).trans (each c mem)
  · next taken => exact mentioned (.inl taken) _
  · next taken => exact mentioned (.inr taken) _
  · exact (List.append_nil _).trans values

/-- The code of an expression calls what its nodes call, in order, in each place where it may
stand. -/
theorem callees_expr (expr : IsExpr r) (s : Session) (names : r.TakesNames) :
    (r.toValue s).callees = r.callees s ∧
    (r.isPlace = true → (r.toAddress s).callees = r.callees s) ∧
    (r.toEffect s).callees = r.callees s := by
  -- an expression that stores nothing has the same code for its value and for its effect
  have same {r : Rose} (assignment : r.kind ≠ .assignment) (step : r.kind = .unary →
      r.unaryOp.isStep = false)
      (comma : r.kind = .binary → r.binaryOp ≠ .comma) (value : (r.toValue s).callees = r.callees s)
      (place : r.isPlace = true → (r.toAddress s).callees = r.callees s) :
      (r.toValue s).callees = r.callees s ∧
      (r.isPlace = true → (r.toAddress s).callees = r.callees s) ∧
      (r.toEffect s).callees = r.callees s :=
    ⟨value, place, by rwa [toEffect_other assignment step comma]⟩
  induction expr with
  | @literal r kind value leaf =>
    refine same (by simp [kind]) (by simp [kind]) (by simp [kind]) ?_ (by simp [value])
    rw [toValue_literal kind, callees_leaf (by simp [kind]) leaf]
    rfl
  | @string r kind value leaf =>
    refine same (by simp [kind]) (by simp [kind]) (by simp [kind]) ?_ (by simp [value])
    rw [toValue_string kind, callees_leaf (by simp [kind]) leaf]
    rfl
  | @identifier r kind leaf =>
    refine same (by simp [kind]) (by simp [kind]) (by simp [kind]) ?_ fun _ => ?_
    · rw [toValue_identifier kind, callees_leaf (by simp [kind]) leaf]
      split <;> rfl
    · rw [toAddress_identifier kind, callees_leaf (by simp [kind]) leaf]
      rfl
  | @cast r e kind value kids _ _ _ ih =>
    have operand := ih (names.child (by simp [kids]))
    refine same (by simp [kind]) (by simp [kind]) (by simp [kind]) ?_ (by simp [value])
    rw [toValue_cast kind kids, callees_one (by simp [kind]) (by simp [kind]) kids]
    exact (List.append_nil _).trans operand.1
  | @subscript r b x kind kids _ _ base index =>
    have first := base (names.child (by simp [kids]))
    have second := index (names.child (by simp [kids]))
    have place : (r.toAddress s).callees = r.callees s := by
      rw [toAddress_subscript kind kids, callees_two (by simp [kind]) (by simp [kind]) kids]
      simp [Piece.callees_seq, Piece.callees_plain, Piece.op, first.1, second.1]
    refine same (by simp [kind]) (by simp [kind]) (by simp [kind]) ?_ fun _ => place
    rw [toValue_subscript kind, Piece.callees_seq, place, callees_loadCode, List.append_nil]
  | @call r f args kind value kids callee leaf _ each =>
    refine same (by simp [kind]) (by simp [kind]) (by simp [kind]) ?_ (by simp [value])
    -- the call comes behind the code of its arguments; the name of the function has no code
    have arguments : (Piece.all (args.map (toValue s))).callees = args.flatMap (callees s) := by
      rw [Piece.callees_all, List.flatMap_map]
      exact List.flatMap_congr fun a mem => (each a mem (names.child (by simp [kids, mem]))).1
    have function : f.callees s = [] := callees_leaf (by simp [callee]) leaf
    rw [toValue_call kind kids, callees_eq, inOrder, if_neg (by simp [kind]), if_pos kind, kids,
      List.flatMap_cons, function, Session.calleeOf, kids]
    simp [Piece.callees_seq, Piece.callees_plain, Piece.callees_call, Piece.op, arguments]
  | @member r b kind kids _ place base =>
    have operand := base (names.child (by simp [kids]))
    have below : r.callees s = b.callees s := callees_one (by simp [kind]) (by simp [kind]) kids
    -- an arrow computes its base, a dot the place of its base if it has one
    have through (way : r.arg 3 ≠ 0 ∨ b.isPlace = true) :
      (r.toAddress s).callees = r.callees s := by
      rw [toAddress_member kind kids, below]
      split
      · exact (List.append_nil _).trans operand.1
      · next direct => exact (List.append_nil _).trans (operand.2.1 (way.resolve_left direct))
    refine same (by simp [kind]) (by simp [kind]) (by simp [kind]) ?_ fun isPlace =>
      through (place isPlace)
    rw [toValue_member kind kids]
    split
    · rw [below]
      exact (List.append_nil _).trans operand.1
    · next way =>
      rw [Piece.callees_seq, callees_loadCode, List.append_nil]
      refine through ?_
      by_cases direct : r.arg 3 = 0
      · exact .inr (by simpa [direct] using way)
      · exact .inl direct
  | @address r e kind value kids op _ place ih =>
    have operand := ih (names.child (by simp [kids]))
    refine same (by simp [kind]) (by simp [op, UnaryOp.isStep]) (by simp [kind]) ?_
      (by simp [value])
    simp only [toValue_unary kind kids, unaryCode, op, if_true]
    rw [callees_one (by simp [kind]) (by simp [kind]) kids]
    exact operand.2.1 place
  | @indirection r e kind kids op _ ih =>
    have operand := ih (names.child (by simp [kids]))
    have below : r.callees s = e.callees s := callees_one (by simp [kind]) (by simp [kind]) kids
    refine same (by simp [kind]) (by simp [op, UnaryOp.isStep]) (by simp [kind]) ?_ fun _ => ?_
    · simp only [toValue_unary kind kids, unaryCode, op, reduceCtorEq, if_false, if_true]
      rw [below, Piece.callees_seq, callees_loadCode, List.append_nil]
      exact operand.1
    · rw [toAddress_unary kind kids, below]
      exact operand.1
  | @step r e kind value kids op form place ih =>
    have operand := ih (names.child (by simp [kids]))
    have below : r.callees s = e.callees s := callees_one (by simp [kind]) (by simp [kind]) kids
    refine ⟨?_, by simp [value], ?_⟩
    · rw [toValue_unary kind kids, below]
      exact callees_stepCode op form (operand.2.1 place)
    · rw [toEffect_step kind kids (UnaryOp.isStep_of_steps op), below]
      exact callees_stepCode op form (operand.2.1 place)
  | @unary r e kind value kids op _ _ ih =>
    have operand := ih (names.child (by simp [kids]))
    have other : r.unaryOp ≠ .address ∧ r.unaryOp ≠ .indirection := by
      constructor <;> intro same <;> simp [same, UnaryOp.givesValue] at op
    have quiet := UnaryOp.isStep_of_givesValue op
    refine same (by simp [kind]) (by simp [quiet]) (by simp [kind]) ?_ (by simp [value])
    rw [toValue_unary kind kids, unaryCode, if_neg other.1, if_neg other.2,
      if_neg (by simp [quiet]), callees_one (by simp [kind]) (by simp [kind]) kids]
    exact (List.append_nil _).trans operand.1
  | @comma r l e kind value kids op _ _ left right =>
    have first := left (names.child (by simp [kids]))
    have second := right (names.child (by simp [kids]))
    have below : r.callees s = l.callees s ++ e.callees s :=
      callees_two (by simp [kind]) (by simp [kind]) kids
    refine ⟨?_, by simp [value], ?_⟩
    · simp only [toValue_binary kind kids, binaryCode, op]
      rw [below]
      exact congrArg₂ _ first.2.2 second.1
    · rw [toEffect_comma kind kids op, below]
      exact congrArg₂ _ first.2.2 second.2.2
  | @logical r l e kind value kids op _ _ left right =>
    have first := left (names.child (by simp [kids]))
    have second := right (names.child (by simp [kids]))
    refine same (by simp [kind]) (by simp [kind]) (fun _ same =>
      by simp [same, BinaryOp.isLogical] at op) ?_ (by simp [value])
    rw [toValue_binary kind kids, binaryCode, callees_two (by simp [kind]) (by simp [kind]) kids]
    cases at_ : r.binaryOp <;> simp [at_, BinaryOp.isLogical] at op
    all_goals exact congrArg₂ _ first.1 second.1
  | @binary r l e kind value kids op _ _ _ left right =>
    have first := left (names.child (by simp [kids]))
    have second := right (names.child (by simp [kids]))
    refine same (by simp [kind]) (by simp [kind]) (fun _ same =>
      by simp [same, BinaryOp.givesValue] at op) ?_ (by simp [value])
    rw [toValue_binary kind kids, binaryCode_value op,
      callees_two (by simp [kind]) (by simp [kind]) kids]
    exact congrArg₂ _ first.1 ((List.append_nil _).trans second.1)
  | @assignment r t v kind value kids op form _ place _ target stored =>
    have first := target (names.child (by simp [kids]))
    have second := stored (names.child (by simp [kids]))
    have below : r.callees s = t.callees s ++ v.callees s :=
      callees_two (by simp [kind]) (by simp [kind]) kids
    refine ⟨?_, by simp [value], ?_⟩
    · rw [toValue_assignment kind kids, callees_assignmentCode form (first.2.1 place),
        second.1, below]
    · rw [toEffect_assignment kind kids, callees_assignmentCode form (first.2.1 place),
        second.1, below]
  | @ternary r c y n kind value kids _ _ _ test yes no =>
    have first := test (names.child (by simp [kids]))
    have second := yes (names.child (by simp [kids]))
    have third := no (names.child (by simp [kids]))
    refine same (by simp [kind]) (by simp [kind]) (by simp [kind]) ?_ (by simp [value])
    rw [toValue_ternary kind kids, callees_three (by simp [kind]) (by simp [kind]) kids,
      Piece.callees_choose, first.1, second.1, third.1]
  | @library r kind value listed all each =>
    refine same (by simp [kind]) (by simp [kind]) (by simp [kind]) ?_ (by simp [value])
    rw [toValue_library kind, callees_other (by simp [kind]) (by simp [kind])]
    exact callees_libraryCode kind names all fun c mem => (each c mem (names.child mem)).1

/-! ### Declarations -/

theorem callees_initializer (init : IsInitializer r) (s : Session) (names : r.TakesNames) :
    (r.toInitializer s).callees = r.callees s := by
  induction init with
  | expr expr =>
    rw [toInitializer_expr (isExpr_kind expr).2]
    exact (callees_expr expr s names).1
  | @list r kind _ each =>
    have begun : Piece.callees
      (if s.types.isArray r.exprType then .op .beginInit [r.children.length] else .skip) = [] := by
      split <;> rfl
    rw [toInitializer_list kind, callees_other (by simp [kind]) (by simp [kind]), Piece.callees_seq,
      begun, Piece.callees_all, List.flatMap_map]
    exact List.flatMap_congr fun c mem => each c mem (names.child mem)

theorem callees_bound (bound : IsBound r) (s : Session) (names : r.TakesNames) :
    (boundCode s r).callees = r.callees s := by
  rw [boundCode]
  split
  · next none =>
    have leaf : r.children = [] := by
      rcases bound with ⟨-, leaf⟩ | expr
      · exact leaf
      · cases expr <;> simp_all
    rw [callees_leaf (by simp [none]) leaf]
    rfl
  · next written => exact (callees_expr (bound.resolve_left fun open_ => written open_.1) s names).1

/-- The initializer of a variable without bounds: a list only if the variable is a structure. -/
theorem callees_scalarCode {init : Rose} {entry : Identifier}
    (form : IsInitializer init) (names : init.TakesNames)
    (list : init.kind = .initializer → s.types.isStructure entry.type = true) :
    (scalarCode s entry init).callees = init.callees s := by
  rw [scalarCode]
  split
  · exact (List.append_nil _).trans (callees_initializer form s names)
  · next scalar =>
    cases form with
    | expr expr => exact (List.append_nil _).trans (callees_expr expr s names).1
    | list kind _ => exact absurd (list kind) scalar

theorem callees_arrayInitCode {init : Rose} {entry : Identifier}
    (bounds : List Rose) (form : IsInitializer init)
    (names : init.TakesNames) : (arrayInitCode s entry bounds init).callees = init.callees s := by
  have written := callees_initializer form s names
  rw [arrayInitCode]
  split
  · next text =>
    rw [toInitializer_expr (by simp [text])] at written
    exact (List.append_nil _).trans written
  · exact (List.append_nil _).trans written

theorem callees_variable {bounds : List Rose} {init : Option Rose} (form : r.IsVariable bounds init)
    (names : r.TakesNames) (ok : s.NodeOk r) : (r.toStatement s).callees = r.callees s := by
  rw [toStatement_variable form, callees_other (by simp [form.kind]) (by simp [form.kind]),
    form.kids, List.flatMap_append]
  have takes (i : Rose) (mem : i ∈ init) : i.TakesNames := names.child (by simp_all [form.kids])
  split
  · next none =>
    subst none
    cases init with
    | none => rfl
    | some i =>
      have list (kind : i.kind = .initializer) :=
        ok.list form.kind (by simp [form.count]) i (by simp [form.kids]) kind
      simpa using callees_scalarCode (form.init i rfl) (takes i rfl) list
  · have sizes : (bounds.map (boundCode s)).flatMap Piece.callees = bounds.flatMap (callees s) := by
      rw [List.flatMap_map]
      exact List.flatMap_congr fun b mem =>
        callees_bound (form.bounds b mem) s (names.child (by simp [form.kids, mem]))
    rw [arrayCode, Piece.callees_seq, Piece.callees_all, sizes]
    congr 1
    cases init with
    | none => rfl
    | some i =>
      simpa [Piece.callees_seq, Piece.callees_plain, Piece.op]
        using callees_arrayInitCode bounds (form.init i rfl) (takes i rfl)

/-- One of the types and variables that are declared together. -/
theorem callees_declared {d : Rose} (form : r.IsDeclaration) (names : r.TakesNames)
    (ok : s.Accepts r) (mem : d ∈ r.children) : (d.toStatement s).callees = d.callees s := by
  rcases form.all d mem with ⟨kind, leaf⟩ | ⟨bounds, init, isVariable⟩
  · rw [toStatement_null (.inr kind), callees_leaf (by simp [kind]) leaf]
    rfl
  · exact callees_variable isVariable (names.child mem) (ok.child mem).self

theorem callees_declaration (form : r.IsDeclaration) (names : r.TakesNames) (ok : s.Accepts r) :
    (r.toStatement s).callees = r.callees s := by
  rw [toStatement_declaration form.kind, callees_other (by simp [form.kind]) (by simp [form.kind]),
    Piece.callees_all, List.flatMap_map]
  exact List.flatMap_congr fun d mem => callees_declared form names ok mem

/-! ### Statements -/

theorem callees_initCode (form : IsDeclaration r ∨ IsExpr r) (names : r.TakesNames)
    (ok : s.Accepts r) : (initCode s r).callees = r.callees s := by
  rw [initCode]
  split
  · next same =>
    refine callees_declaration (form.resolve_right fun expr => ?_) names ok
    simpa [same, Kind.isExpression] using (isExpr_kind expr).1
  · next other =>
      exact (callees_expr (form.resolve_left fun declared => other declared.kind) s names).2.2

theorem callees_clause {code : Rose → Piece} {part : Option Rose}
    (each : ∀ x ∈ part, (code x).callees = x.callees s) :
    (clause code part).callees = part.toList.flatMap (callees s) := by
  cases part with
  | none => rfl
  | some x => simpa [clause] using each x rfl

/-- The code of a statement calls what its nodes call, in order. -/
theorem callees_statement {inLoop inSwitch : Bool} (form : IsStatement inLoop inSwitch r)
    (names : r.TakesNames) (ok : s.Accepts r) : (r.toStatement s).callees = r.callees s := by
  have value {e : Rose} (expr : IsExpr e) (takes : e.TakesNames) :
    (e.toValue s).callees = e.callees s :=
    (callees_expr expr s takes).1
  induction form with
  | block kind _ each =>
    rw [toStatement_block kind, callees_other (by simp [kind]) (by simp [kind]), Piece.callees_all,
      List.flatMap_map]
    exact List.flatMap_congr fun c mem => each c mem (names.child mem) (ok.child mem)
  | null kind leaf =>
    rw [toStatement_null (.inl kind), callees_leaf (by simp [kind]) leaf]
    rfl
  | declaration declared => exact callees_declaration declared names ok
  | ifOnly kind flag kids test _ yes =>
    have part := yes (names.child (by simp [kids])) (ok.child (by simp [kids]))
    rw [toStatement_ifOnly kind flag kids, callees_two (by simp [kind]) (by simp [kind]) kids]
    exact congrArg₂ _ (value test (names.child (by simp [kids]))) part
  | ifElse kind flag kids test _ _ yes no =>
    have first := yes (names.child (by simp [kids])) (ok.child (by simp [kids]))
    have second := no (names.child (by simp [kids])) (ok.child (by simp [kids]))
    rw [toStatement_ifElse kind flag kids, callees_three (by simp [kind]) (by simp [kind]) kids]
    exact congrArg₂ _ (congrArg₂ _ (value test (names.child (by simp [kids]))) first) second
  | whileLoop kind kids test _ body =>
    have part := body (names.child (by simp [kids])) (ok.child (by simp [kids]))
    rw [toStatement_whileLoop kind kids, callees_two (by simp [kind]) (by simp [kind]) kids]
    exact congrArg₂ _ (value test (names.child (by simp [kids]))) part
  | doWhile kind kids _ test body =>
    have part := body (names.child (by simp [kids])) (ok.child (by simp [kids]))
    rw [toStatement_doWhile kind kids, callees_two (by simp [kind]) (by simp [kind]) kids]
    exact congrArg₂ _ part (value test (names.child (by simp [kids])))
  | @forLoop _ _ r b init cond step kind kids hasInit hasCond hasStep first tested next _ body =>
    have part := body (names.child (by simp [kids])) (ok.child (by simp [kids]))
    -- the code of the step stands behind that of the body, as `inOrder` puts the nodes
    have written : (clause (initCode s) init).callees = init.toList.flatMap (callees s) :=
      callees_clause fun i mem =>
        callees_initCode (first i mem) (names.child (by simp_all)) (ok.child (by simp_all))
    have stepped : (clause (toEffect s) step).callees = step.toList.flatMap (callees s) :=
      callees_clause fun e mem => (callees_expr (next e mem) s (names.child (by simp_all))).2.2
    rw [toStatement_forLoop kind kids hasInit hasCond hasStep,
      callees_eq, kids, inOrder_forLoop kind hasInit hasCond,
      if_neg (by simp [kind]), List.append_nil, Piece.callees_seq, written]
    cases cond with
    | none => simp [loopCode, Piece.callees, part, stepped]
    | some c =>
      have test := value (tested c rfl) (names.child (by simp [kids]))
      simp [loopCode, Piece.callees, test, part, stepped]
  | switching kind kids test _ body =>
    have part := body (names.child (by simp [kids])) (ok.child (by simp [kids]))
    rw [toStatement_switching kind kids, callees_two (by simp [kind]) (by simp [kind]) kids]
    exact congrArg₂ _ (value test (names.child (by simp [kids]))) part
  | caseLabel kind kids test _ body =>
    have part := body (names.child (by simp [kids])) (ok.child (by simp [kids]))
    rw [toStatement_caseLabel kind kids, callees_two (by simp [kind]) (by simp [kind]) kids]
    exact congrArg₂ _ (value test (names.child (by simp [kids]))) part
  | defaultLabel kind kids _ body =>
    rw [toStatement_defaultLabel kind kids, callees_one (by simp [kind]) (by simp [kind]) kids]
    exact body (names.child (by simp [kids])) (ok.child (by simp [kids]))
  | breaking kind _ leaf =>
    rw [toStatement_breaking kind, callees_leaf (by simp [kind]) leaf]
    rfl
  | continuing kind leaf =>
    rw [toStatement_continuing kind, callees_leaf (by simp [kind]) leaf]
    rfl
  | jump kind leaf =>
    rw [toStatement_jump kind, callees_leaf (by simp [kind]) leaf]
    rfl
  | label kind kids _ body =>
    rw [toStatement_label kind kids, callees_one (by simp [kind]) (by simp [kind]) kids]
    exact body (names.child (by simp [kids])) (ok.child (by simp [kids]))
  | returnVoid kind kids =>
    rw [toStatement_returnVoid kind kids, callees_leaf (by simp [kind]) kids]
    rfl
  | returnValue kind kids test =>
    rw [toStatement_returnValue kind kids, callees_one (by simp [kind]) (by simp [kind]) kids]
    exact (List.append_nil _).trans (value test (names.child (by simp [kids])))
  | expr expr =>
    rw [toStatement_expr (isExpr_kind expr).1]
    exact (callees_expr expr s names).2.2

end Rose

end BilingualC
