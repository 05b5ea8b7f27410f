import Mathlib
import BilingualC.Proofs.Lowering.Code

/-!
# Properties of code by its leaves

Many properties of code are handed on from its parts (`Piece.Hereditary`). Such a property holds of
the code of a tree, in each place where the tree may stand, if it holds of the leaves that depend on
the tables: of the calls, and of the instructions whose operand is the number of an entry
(`Rose.Emits`).
-/

namespace BilingualC

/-! ## Instructions that name an entry -/

namespace Instruction

/-- Says whether the operand of an instruction is the number of an entry of a table. -/
def refers : Instruction → Bool
  | .single .print | .single .printIdentifier | .single .readIdentifier => true
  | _ => false

variable {i j : Instruction}

theorem refers_derive {d : Derivation} (done : i.derive d = .ok j) : j.refers = false := by
  have member (done : i.deriveMember d = .ok j) : j.refers = false := by
    cases i with
    | single o => cases done
    | store f m =>
      dsimp only [deriveMember] at done
      split at done
      · cases done
        rfl
      · cases done
  unfold derive at done
  split at done
  next o =>
    split at done
    next floating found =>
      cases done
      cases o <;> cases found <;> rfl
    next => exact member done
  next => exact member done

theorem refers_stepped (quiet : i.refers = false) (condition : Bool) (d : Derivation) :
    (i.stepped condition d).refers = false := by
  unfold stepped
  split
  · split
    next out done => exact refers_derive done
    next => exact quiet
  · exact quiet

theorem refers_ofUnary (op : UnaryOp) : (chosen (ofUnary op)).refers = false := by
  cases op <;> rfl

theorem refers_ofBinary (op : BinaryOp) : (chosen (ofBinary op)).refers = false := by
  cases op <;> rfl

theorem refers_ofBuiltin {b : Builtin} (plain : b ≠ .print ∧ b ≠ .printid ∧ b ≠ .getid) :
    (chosen (ofBuiltin b)).refers = false := by
  obtain ⟨print, printid, getid⟩ := plain
  cases b <;> first | rfl | contradiction

end Instruction

/-! ## Properties that are handed on -/

/-- A property of code that a piece has if its parts have it. -/
structure Piece.Hereditary (Q : Piece → Prop) : Prop where
  skip : Q .skip
  plain : ∀ {i operands}, i.refers = false → Q (.plain i operands)
  text : ∀ t, Q (.text t)
  seq : ∀ {c d}, Q c → Q d → Q (.seq c d)
  choose : ∀ {t y n}, Q t → Q y → Q n → Q (.choose t y n)
  only : ∀ {t y}, Q t → Q y → Q (.only t y)
  short : ∀ {test last l r}, Q l → Q r → Q (.short test last l r)
  whileLoop : ∀ {t body}, Q t → Q body → Q (.whileLoop t body)
  doWhile : ∀ {body t}, Q body → Q t → Q (.doWhile body t)
  forLoop : ∀ {t body step}, Q t → Q body → Q step → Q (.forLoop t body step)
  endlessLoop : ∀ {body step}, Q body → Q step → Q (.endlessLoop body step)
  switch : ∀ {v body}, Q v → Q body → Q (.switch v body)
  caseLabel : ∀ {v body}, Q v → Q body → Q (.caseLabel v body)
  defaultLabel : ∀ {body}, Q body → Q (.defaultLabel body)
  breaking : Q .breaking
  continuing : Q .continuing
  goto : ∀ id, Q (.goto id)
  label : ∀ {id body}, Q body → Q (.label id body)

/-- The code of a tree has a property in each place where the tree may stand. -/
structure Codes.Each (Q : Piece → Prop) (c : Codes) : Prop where
  value : Q c.value
  address : Q c.address
  effect : Q c.effect
  initializer : Q c.initializer
  statement : Q c.statement

/-- The leaves that a node emits by itself, as far as they depend on the tables, have a property. -/
structure Rose.Emits (s : Session) (Q : Piece → Prop) (x : Rose) : Prop where
  call : x.kind = .call → Q (.call (s.displacementOf ((x.children.headD default).arg 2)))
  print : x.kind = .builtin → x.builtin = .print → ∀ c ∈ x.children, Q (.op .print [c.exprType])
  printid : x.kind = .builtin → x.builtin = .printid →
    ∀ c ∈ x.children, Q (.op .printIdentifier [c.arg 2])
  getid : x.kind = .builtin → x.builtin = .getid →
    ∀ c ∈ x.children, Q (.op .readIdentifier [c.arg 2])

namespace Piece.Hereditary

open Rose Instruction

variable {Q : Piece → Prop} (handed : Hereditary Q) {s : Session} {r : Rose} {codes : List Codes}

include handed

theorem all {cs : List Piece} (each : ∀ c ∈ cs, Q c) : Q (.all cs) := by
  induction cs with
  | nil => exact handed.skip
  | cons c cs ih =>
    rw [List.forall_mem_cons] at each
    exact handed.seq each.1 (ih each.2)

theorem map {f : Codes → Piece} (each : ∀ c ∈ codes, c.Each Q)
    (take : ∀ c : Codes, c.Each Q → Q (f c)) : Q (.all (codes.map f)) := by
  refine handed.all fun c mem => ?_
  obtain ⟨code, there, rfl⟩ := List.mem_map.mp mem
  exact take code (each code there)

theorem each_default : (default : Codes).Each Q :=
  ⟨handed.skip, handed.skip, handed.skip, handed.skip, handed.skip⟩

theorem getD (each : ∀ c ∈ codes, c.Each Q) (k : Nat) : (codes.getD k default).Each Q := by
  rw [List.getD_eq_getElem?_getD]
  cases found : codes[k]? with
  | none => exact handed.each_default
  | some c => exact each c (List.mem_of_getElem? found)

theorem headD (each : ∀ c ∈ codes, c.Each Q) : (codes.headD default).Each Q := by
  cases codes with
  | nil => exact handed.each_default
  | cons c _ => exact each c List.mem_cons_self

/-! ## Expressions -/

theorem loadCode (type : Int) : Q (loadCode s type) := by
  rw [Rose.loadCode]
  split <;> exact handed.plain rfl

theorem storeCode {target : Rose} {address stored : Piece} (place : Q address)
    (value : Q stored) {i : Instruction} (quiet : i.refers = false) (extra : List Int) :
    Q (storeCode s target address stored i extra) := by
  rw [Rose.storeCode]
  split
  · exact handed.seq value (handed.plain quiet)
  · exact handed.seq place (handed.seq value (handed.plain (refers_stepped quiet _ _)))

theorem assignmentCode {target : Rose} {address stored : Piece} (place : Q address)
    (value : Q stored) (void : Bool) : Q (assignmentCode s r target address stored void) := by
  rw [Rose.assignmentCode]
  split
  · exact handed.storeCode place value (refers_stepped rfl _ _) _
  · exact handed.storeCode place value
      (refers_stepped (refers_stepped (refers_ofBinary _) _ _) _ _) _

theorem unaryCode {operand : Rose} {code : Codes} (each : code.Each Q) (void : Bool) :
    Q (unaryCode s r operand code void) := by
  have quiet := refers_ofUnary r.unaryOp
  simp only [Rose.unaryCode]
  split
  · exact each.address
  split
  · exact handed.seq each.value (handed.loadCode _)
  split
  · exact handed.storeCode each.address handed.skip
      (refers_stepped (refers_stepped quiet _ _) _ _) _
  · exact handed.seq each.value (handed.plain (refers_stepped quiet _ _))

theorem binaryCode {left : Rose} {l e : Codes} (first : l.Each Q) (second : e.Each Q) :
    Q (binaryCode r left l e) := by
  rw [Rose.binaryCode]
  split
  · exact handed.seq first.effect second.value
  · exact handed.short first.value second.value
  · exact handed.short first.value second.value
  · exact handed.seq first.value
      (handed.seq second.value (handed.plain (refers_stepped (refers_ofBinary _) _ _)))

theorem libraryCode (each : ∀ c ∈ codes, c.Each Q) (kind : r.kind = .builtin)
    (emits : r.Emits s Q) : Q (libraryCode s r codes) := by
  have values : Q (.all (codes.map (·.value))) := handed.map each fun _ => Codes.Each.value
  simp only [Rose.libraryCode]
  split
  · exact handed.seq values (handed.plain rfl)
  next isPrint =>
    refine handed.all fun c mem => ?_
    rw [← List.map_uncurry_zip_eq_zipWith] at mem
    obtain ⟨⟨x, value⟩, both, rfl⟩ := List.mem_map.mp mem
    obtain ⟨child, stands⟩ := List.of_mem_zip both
    obtain ⟨code, there, rfl⟩ := List.mem_map.mp stands
    exact handed.seq (each code there).value (emits.print kind isPrint x child)
  next isPrintid =>
    refine handed.all fun c mem => ?_
    obtain ⟨x, child, rfl⟩ := List.mem_map.mp mem
    exact emits.printid kind isPrintid x child
  next isGetid =>
    refine handed.all fun c mem => ?_
    obtain ⟨x, child, rfl⟩ := List.mem_map.mp mem
    exact emits.getid kind isGetid x child
  next notPrint notPrintid notGetid =>
    exact handed.seq values (handed.plain (refers_ofBuiltin ⟨notPrint, notPrintid, notGetid⟩))

theorem addressCode (each : ∀ c ∈ codes, c.Each Q) : Q (addressCode s r codes) := by
  have first := handed.headD each
  have second := handed.getD each 1
  rw [Rose.addressCode]
  split
  · exact handed.plain rfl
  · exact handed.seq first.value (handed.seq second.value (handed.plain rfl))
  · refine handed.seq ?_ (handed.plain rfl)
    split
    · exact first.value
    · exact first.address
  · exact first.value
  · exact handed.skip

theorem valueCode (each : ∀ c ∈ codes, c.Each Q) (emits : r.Emits s Q) :
    Q (valueCode s r codes) := by
  have first := handed.headD each
  have second := handed.getD each 1
  have third := handed.getD each 2
  have place :=
    handed.seq (handed.addressCode (s := s) (r := r) each) (handed.loadCode (s := s) r.exprType)
  rw [Rose.valueCode]
  split
  · exact handed.plain rfl
  · exact handed.text _
  · split <;> exact handed.plain rfl
  · exact handed.seq first.value (handed.plain rfl)
  · exact place
  · split
    · exact handed.seq first.value (handed.plain rfl)
    · exact place
  · exact handed.unaryCode first false
  · exact handed.binaryCode first second
  · exact handed.assignmentCode first.address second.value false
  · exact handed.choose first.value second.value third.value
  next kind =>
    have arguments : Q (.all ((codes.drop 1).map (·.value))) :=
      handed.map (fun c mem => each c (List.mem_of_mem_drop mem)) fun _ => Codes.Each.value
    exact handed.seq (handed.plain rfl) (handed.seq arguments (emits.call kind))
  next kind => exact handed.libraryCode each kind emits
  · exact handed.skip

theorem effectCode (each : ∀ c ∈ codes, c.Each Q) (emits : r.Emits s Q) :
    Q (effectCode s r codes) := by
  have first := handed.headD each
  have second := handed.getD each 1
  have value := handed.valueCode each emits
  rw [Rose.effectCode]
  split
  · exact handed.assignmentCode first.address second.value true
  · split
    · exact handed.unaryCode first true
    · exact value
  · split
    · exact handed.seq first.effect second.effect
    · exact value
  · exact value

/-! ## Declarations and statements -/

theorem initializerCode (each : ∀ c ∈ codes, c.Each Q) (emits : r.Emits s Q) :
    Q (initializerCode s r codes) := by
  rw [Rose.initializerCode]
  split
  · refine handed.seq ?_ (handed.map each fun _ => Codes.Each.initializer)
    split
    · exact handed.plain rfl
    · exact handed.skip
  · exact handed.valueCode each emits

theorem variableCode (each : ∀ c ∈ codes, c.Each Q) : Q (variableCode s r codes) := by
  have init := handed.getD each (r.arg 1).toNat
  simp only [Rose.variableCode]
  split
  · split
    · split
      · exact handed.seq init.initializer (handed.plain (refers_stepped rfl _ _))
      · exact handed.seq init.value (handed.plain (refers_stepped (refers_stepped rfl _ _) _ _))
    · exact handed.skip
  · refine handed.seq (handed.all fun c mem => ?_) (handed.seq (handed.plain rfl) ?_)
    · rw [← List.map_uncurry_zip_eq_zipWith] at mem
      obtain ⟨⟨x, code⟩, both, rfl⟩ := List.mem_map.mp mem
      dsimp only [Function.uncurry]
      split
      · exact handed.skip
      · exact (each code (List.of_mem_zip both).2).value
    · split
      · split
        · exact handed.seq init.value (handed.plain rfl)
        · exact handed.seq init.initializer (handed.plain rfl)
      · exact handed.skip

theorem forCode (each : ∀ c ∈ codes, c.Each Q) : Q (forCode r codes) := by
  have first := handed.headD each
  have cond := handed.getD each (r.arg 0).toNat
  have step := handed.getD each ((r.arg 0).toNat + (r.arg 1).toNat)
  have body := handed.getD each ((r.arg 0).toNat + (r.arg 1).toNat + (r.arg 2).toNat)
  have next : Q (if r.arg 2 = 0 then .skip
    else (codes.getD ((r.arg 0).toNat + (r.arg 1).toNat) default).effect) := by
    split
    · exact handed.skip
    · exact step.effect
  simp only [Rose.forCode]
  refine handed.seq ?_ ?_
  · split
    · exact handed.skip
    · rw [clauseCode]
      split
      · exact first.statement
      · exact first.effect
  · split
    · exact handed.endlessLoop body.statement next
    · exact handed.forLoop cond.value body.statement next

theorem statementCode (each : ∀ c ∈ codes, c.Each Q) (emits : r.Emits s Q) :
    Q (statementCode s r codes) := by
  have first := handed.headD each
  have second := handed.getD each 1
  have third := handed.getD each 2
  have inner := handed.map each fun _ => Codes.Each.statement
  rw [Rose.statementCode]
  split
  · exact inner
  · exact inner
  · exact handed.skip
  · exact handed.skip
  · exact handed.variableCode each
  · split
    · exact handed.only first.value second.statement
    · exact handed.choose first.value second.statement third.statement
  · exact handed.whileLoop first.value second.statement
  · exact handed.doWhile first.statement second.value
  · exact handed.forCode each
  · exact handed.switch first.value second.statement
  · exact handed.caseLabel first.value second.statement
  · exact handed.defaultLabel first.statement
  · exact handed.breaking
  · exact handed.continuing
  · exact handed.goto _
  · exact handed.label first.statement
  · split
    · exact handed.plain rfl
    · exact handed.seq first.value (handed.plain rfl)
  · exact handed.effectCode each emits

/-- The code of a tree has a property if the leaves of its nodes have it. -/
theorem tree (r : Rose) (emits : ∀ x ∈ r.nodes, x.Emits s Q) : (r.codes s).Each Q := by
  induction r using Rose.induction_on with
  | step i type args children each =>
    have below : ∀ c ∈ children.map (Rose.codes s), c.Each Q := fun c mem => by
      obtain ⟨child, there, rfl⟩ := List.mem_map.mp mem
      exact each child there fun x inside => emits x (mem_nodes_child there inside)
    have self := emits _ (mem_nodes_self _)
    rw [codes_eq, children_node]
    exact ⟨handed.valueCode below self, handed.addressCode below, handed.effectCode below self,
      handed.initializerCode below self, handed.statementCode below self⟩

end Piece.Hereditary

end BilingualC
