import Mathlib
import BilingualC.Proofs.Lowering.Flow
import BilingualC.Proofs.Lowering.Program

/-!
# Closed code

The memory of an image is well-formed code: the addresses of its instructions are closed under
control flow. Every function and every variable outside of functions is a unit with a region of its
own, whose ends are those of its code: the jumps and tests in it lead to instructions of the same
region, and the calls in it hold the addresses of the functions that its call nodes call, one by
one.
-/

namespace BilingualC

variable {M : List Int} {S T : Set Nat} {a m b : Nat} {targets targets' : List Int}

/-! ## Regions -/

/-- A span that control leaves at its end only, and whose jumps lead to its own instructions. -/
structure Region (M : List Int) (S : Set Nat) (a b : Nat) (targets : List Int) : Prop where
  span : Span M S a b (fun _ => False) targets
  branches : ∀ p ∈ S, ∀ i operands, instructionAt M p = some (i, operands) → i.isBranch = true →
    ∀ t ∈ operands, ∃ q ∈ S, t = (q : Int)

theorem Instruction.mem_successors {i : Instruction} (branch : i.isBranch = true)
    {operands : List Int} {t : Int} (mem : t ∈ operands) (a : Nat) :
    t ∈ i.successors a operands := by
  cases i with
  | single o => cases o <;> simp_all [successors, isBranch]
  | store f m => simp [isBranch] at branch

theorem Instruction.isBranch_plain {i : Instruction} (plain : i.isPlain = true) :
    i.isBranch = false := by
  cases i with
  | single o => cases o <;> simp_all [isPlain, isBranch, Operation.isControl]
  | store f m => rfl

namespace Region

theorem empty (a : Nat) : Region M ∅ a a [] := ⟨.empty a, nofun⟩

theorem append (first : Region M S a m targets) (second : Region M T m b targets') :
    Region M (S ∪ T) a b (targets ++ targets') where
  span := first.span.append second.span
  branches p mem i operands found branch t there := by
    rcases mem with here | later
    · obtain ⟨q, inside, same⟩ := first.branches p here i operands found branch t there
      exact ⟨q, .inl inside, same⟩
    · obtain ⟨q, inside, same⟩ := second.branches p later i operands found branch t there
      exact ⟨q, .inr inside, same⟩

/-- Code in front of a region that starts with an instruction. -/
theorem after (first : Span M S a m (fun _ => False) targets) (second : Region M T m b targets')
    (start : m ∈ T) : Region M (S ∪ T) a b (targets ++ targets') where
  span := first.append second.span
  branches p mem i operands found branch t there := by
    rcases mem with here | later
    · obtain ⟨j, cells, same, _, _, next⟩ := first.steps p here
      cases same.symm.trans found
      have goal := next t (Instruction.mem_successors branch there p)
      rcases goal.resolve_right id with ⟨q, rfl, inside | rfl⟩
      · exact ⟨q, .inl inside, rfl⟩
      · exact ⟨q, .inr start, rfl⟩
    · obtain ⟨q, inside, same⟩ := second.branches p later i operands found branch t there
      exact ⟨q, .inr inside, same⟩

/-- One instruction that does not jump. -/
theorem single {i : Instruction} {operands : List Int}
    (span : Span M {a} a b (fun _ => False) targets)
    (found : instructionAt M a = some (i, operands)) (noBranch : i.isBranch = false) :
    Region M {a} a b targets where
  span := span
  branches p mem j cells same branch := by
    cases mem
    cases same.symm.trans found
    simp [noBranch] at branch

theorem plain {i : Instruction} {operands : List Int} (cells : CellsAt M a (i.code :: operands))
    (count : operands.length = i.operands) (plain : i.isPlain = true) :
    Region M {a} a (a + 1 + operands.length) [] :=
  single (.plain cells count plain)
    (instructionAt_of_cells (Instruction.mem_all_plain plain) cells count)
    (Instruction.isBranch_plain plain)

end Region

/-! ## Parts -/

section Parts

variable {label function : Int → Int} {L : Links} {s : Session} {r body : Rose}

/-- Code that opens no frames is a span that control leaves at its end only. -/
theorem span_of_flat {c : Piece} {slot : Option Nat} (flat : c.Flat)
    (lay : Lay M ⟨label, function⟩ [] none c a b slot) (room : b ≤ M.length) :
    ∃ S, Span M S a b (fun _ => False) (c.callees.map function) := by
  obtain ⟨S, flow⟩ := lay.flow room
  have closed := lay.slot_of_flat flat
  refine ⟨S, flow.span.widen fun t goal => ?_⟩
  rcases goal with (⟨id, mem, _⟩ | ⟨e, mem, _⟩) | ⟨p, mem, _⟩
  · simp [flat.gotos] at mem
  · exact absurd mem List.not_mem_nil
  · simp [closed] at mem

/-- Wherever a piece of code stands, its jumps stay in it. -/
def Tight (M : List Int) (function : Int → Int) (c : Piece) : Prop :=
  ∀ ⦃label a b slot⦄, Lay M ⟨label, function⟩ [] none c a b slot → b ≤ M.length →
    slot = none ∧ ∃ S, Region M S a b (c.callees.map function)

theorem tight_skip : Tight M function .skip := fun _ _ _ _ lay _ => by
  obtain ⟨rfl, rfl⟩ := lay.skip_inv
  exact ⟨rfl, ∅, .empty _⟩

/-- A last instruction catches the jumps to the end of the code before it. -/
theorem tight_before {c : Piece} {i : Instruction} {operands : List Int} (flat : c.Flat) :
    Tight M function (.seq c (.plain i operands)) := fun _ _ _ _ lay room => by
  obtain ⟨_, _, left, right⟩ := lay.seq_inv
  cases left.slot_of_flat flat
  obtain ⟨cells, count, plain, rfl, rfl⟩ := right.plain_inv
  obtain ⟨S, front⟩ := span_of_flat flat left (by omega)
  rw [Piece.callees, List.map_append]
  exact ⟨rfl, _, .after front (.plain cells count plain) rfl⟩

/-- The same with more code behind the instruction. -/
theorem tight_around {c d : Piece} {i : Instruction} {operands : List Int} (flat : c.Flat)
    (last : Tight M function d) : Tight M function (.seq c (.seq (.plain i operands) d)) :=
  fun _ _ _ _ lay room => by
    obtain ⟨_, _, left, right⟩ := lay.seq_inv
    obtain ⟨_, _, middle, back⟩ := right.seq_inv
    obtain ⟨same, S, front⟩ := tight_before flat (.seq left middle) (back.le.trans room)
    rw [same] at back
    obtain ⟨closed, T, later⟩ := last back room
    have whole := front.append later
    exact ⟨closed, S ∪ T, by simpa [Piece.callees] using whole⟩

/-! ## Declarations outside of functions -/

theorem tight_scalar {init : Rose} (form : init.IsInitializer) (entry : Identifier) :
    Tight M function (Rose.scalarCode s entry init) := by
  rw [Rose.scalarCode]
  split
  · exact tight_before (Rose.flat_initializer form s)
  · exact tight_before (Rose.flat_initializer_value form s)

theorem tight_arrayInit {init : Rose} (form : init.IsInitializer) (entry : Identifier)
    (bounds : List Rose) : Tight M function (Rose.arrayInitCode s entry bounds init) := by
  rw [Rose.arrayInitCode]
  split
  · exact tight_before (Rose.flat_initializer_value form s)
  · exact tight_before (Rose.flat_initializer form s)

theorem tight_variable {bounds : List Rose} {init : Option Rose}
    (form : r.IsVariable bounds init) : Tight M function (r.toStatement s) := by
  rw [Rose.toStatement_variable form]
  split
  · cases init with
    | none => exact tight_skip
    | some i => exact tight_scalar (form.init i rfl) _
  · have flat : ∀ c ∈ bounds.map (Rose.boundCode s), c.Flat := fun c mem => by
      obtain ⟨b, there, rfl⟩ := List.mem_map.mp mem
      exact Rose.flat_bound (form.bounds b there) s
    refine tight_around (Rose.flat_all flat) ?_
    cases init with
    | none => exact tight_skip
    | some i => exact tight_arrayInit (form.init i rfl) _ _

/-- What is declared outside of functions: types, which have no code, and variables, whose jumps
stay in their code. -/
theorem tight_declared (form : r.IsDeclaration) {d : Rose} (mem : d ∈ r.children) :
    d.kind ≠ .functionDefinition ∧ Tight M function (d.toStatement s) := by
  rcases form.all d mem with ⟨kind, _⟩ | ⟨bounds, init, isVariable⟩
  · rw [Rose.toStatement_null (.inr kind)]
    exact ⟨by simp [kind], tight_skip⟩
  · exact ⟨by simp [isVariable.kind], tight_variable isVariable⟩

/-! ## Functions -/

/-- The start of a function that ends at an address. -/
def StartsAt (M : List Int) (a b : Nat) : Prop :=
  ∃ frame, instructionAt M a = some (.single .functionStart, [frame, (b : Int)])

/-- The jumps in a function stay in it. -/
theorem region_function (form : r.IsFunction body)
    (jumps : ∀ id ∈ r.collect .jump, id ∈ r.collect .label) (code : FunctionAt M L s r body a b)
    (room : b ≤ M.length) : StartsAt M a b ∧
      ∃ S, a ∈ S ∧ Region M S a b ((body.toStatement s).callees.map L.function) := by
  obtain ⟨m, lay, back, rfl⟩ := code.code
  obtain ⟨labels, gotos⟩ := names_function form s
  have start := instructionAt_of_cells (Instruction.mem_all_single .functionStart) code.start rfl
  obtain ⟨S, flow⟩ := lay.flow (by omega)
  have inside : Span M S (a + 3) m (fun _ => False)
      ((body.toStatement s).callees.map L.function) := by
    refine flow.span.widen fun t goal => ?_
    rcases goal with (⟨id, mem, same⟩ | ⟨e, mem, _⟩) | ⟨p, mem, _⟩
    · rw [gotos] at mem
      exact .inl (flow.places t ⟨id, labels ▸ jumps id mem, same⟩)
    · exact absurd mem List.not_mem_nil
    · exact absurd mem (by simp)
  have rest : Region M (S ∪ {m}) (a + 3) (m + 1)
      ((body.toStatement s).callees.map L.function) := by
    have last : Region M {m} m (m + 1) [] := .plain (i := .single .returnVoid) back rfl rfl
    simpa using Region.after inside last rfl
  have entry : Span M {a} a (a + 3) (fun t => t = ((m + 1 : Nat) : Int)) [] := by
    refine .single start (Nat.le_refl _) (fun t mem => ?_) (.other start (by decide))
    simpa [Instruction.successors] using mem
  have whole := entry.append (rest.span.widen fun _ => False.elim)
  refine ⟨⟨_, start⟩, {a} ∪ (S ∪ {m}), .inl rfl, ⟨whole.widen fun t same => .inl ?_, ?_⟩⟩
  · rw [same]
    exact Span.meets_stop _ _
  · rintro p (rfl | later) i operands found branch t mem
    · cases start.symm.trans found
      simp [Instruction.isBranch] at branch
    · obtain ⟨q, there, same⟩ := rest.branches p later i operands found branch t mem
      exact ⟨q, .inr there, same⟩

end Parts

/-! ## Whole programs -/

/-- What has code of its own in a part of a program: a function, or each thing that is declared. -/
def Rose.units (r : Rose) : List Rose := if r.kind = .functionDefinition then [r] else r.children

theorem Rose.units_function {r body : Rose} (form : r.IsFunction body) : r.units = [r] :=
  if_pos form.kind

theorem Rose.units_declaration {r : Rose} (form : r.IsDeclaration) : r.units = r.children :=
  if_neg (by simp [form.kind])

/-- A unit of a program between two addresses. A function starts at its address with an instruction
that holds its end; of anything else exactly the code lies there. A jump in the unit leads to an
instruction of the unit. The calls in it are those of its call nodes, in the order of the code, and
hold the addresses of the functions. -/
structure UnitAt (M : List Int) (S : Set Nat) (s : Session) (function : Int → Int) (r : Rose)
    (a b : Nat) : Prop where
  le : a ≤ b
  entry : r.kind = .functionDefinition →
    function (s.displacementOf (r.arg 0)) = a ∧ a ∈ S ∧ StartsAt M a b
  code : r.kind ≠ .functionDefinition →
    ∃ label, Lay M ⟨label, function⟩ [] none (r.toStatement s) a b none
  branches : ∀ p ∈ S, a ≤ p → p < b → ∀ i operands, instructionAt M p = some (i, operands) →
    i.isBranch = true → ∀ t ∈ operands, ∃ q ∈ S, t = (q : Int) ∧ a ≤ q ∧ q < b
  calls : CallsAt M (S ∩ Set.Ico a b) (r.calls.map fun x => function (s.calleeOf x))

/-- The units of a program lie one after the other. -/
inductive Tiled (M : List Int) (S : Set Nat) (s : Session) (function : Int → Int) :
    List Rose → Nat → Nat → Prop
  | nil {a : Nat} : Tiled M S s function [] a a
  | cons {r : Rose} {rest : List Rose} {a m b : Nat} (unit : UnitAt M S s function r a m)
      (later : Tiled M S s function rest m b) : Tiled M S s function (r :: rest) a b

/-- The addresses of the instructions of a memory, closed under control flow: an instruction with
its operands stands at each of them, none overlaps another one, control passes from each of them to
another one, and calls lead to the starts of functions. -/
structure ClosedCode (M : List Int) (S : Set Nat) : Prop where
  start : Image.codeStart ∈ S
  decodes : ∀ p ∈ S, ∃ i operands, instructionAt M p = some (i, operands)
  apart : ∀ p ∈ S, ∀ q ∈ S, p < q → ∀ i operands, instructionAt M p = some (i, operands) →
    p + 1 + operands.length ≤ q
  flows : ∀ p ∈ S, ∀ i operands, instructionAt M p = some (i, operands) →
    ∀ t ∈ i.successors p operands, ∃ q ∈ S, t = (q : Int)
  calls : ∀ p ∈ S, ∀ i operands, instructionAt M p = some (i, operands) →
    ∀ t ∈ i.callees operands, ∃ q ∈ S, t = (q : Int) ∧ ∃ stop, StartsAt M q stop

section Program

variable {L : Links} {function : Int → Int} {s : Session} {root r body : Rose} {rs : List Rose}

/-! ### Units -/

theorem UnitAt.of_region (region : Region M S a b ((r.callees s).map function))
    (entry : r.kind = .functionDefinition →
      function (s.displacementOf (r.arg 0)) = a ∧ a ∈ S ∧ StartsAt M a b)
    (code : r.kind ≠ .functionDefinition →
      ∃ label, Lay M ⟨label, function⟩ [] none (r.toStatement s) a b none) :
    UnitAt M S s function r a b where
  le := region.span.le
  entry := entry
  code := code
  branches p here _ _ i operands found branch t mem := by
    obtain ⟨q, inside, same⟩ := region.branches p here i operands found branch t mem
    exact ⟨q, inside, same, region.span.within q inside, region.span.lt_stop inside⟩
  calls := by
    have all : S ∩ Set.Ico a b = S :=
      Set.inter_eq_left.mpr fun p mem => ⟨region.span.within p mem, region.span.lt_stop mem⟩
    have calls := region.span.calls
    rw [Rose.callees, List.map_map] at calls
    rwa [all]

/-- Instructions outside of a unit do not matter. -/
theorem UnitAt.grow (unit : UnitAt M S s function r a b) (other : ∀ p ∈ T, p < a ∨ b ≤ p) :
    UnitAt M (S ∪ T) s function r a b where
  le := unit.le
  entry kind := (unit.entry kind).imp_right (.imp_left .inl)
  code := unit.code
  branches p mem low high i operands found branch t there := by
    rcases mem with here | away
    · obtain ⟨q, inside, same⟩ := unit.branches p here low high i operands found branch t there
      exact ⟨q, .inl inside, same⟩
    · have := other p away
      omega
  calls := by
    have none : T ∩ Set.Ico a b = ∅ := by
      refine Set.eq_empty_of_forall_notMem fun p ⟨mem, low, high⟩ => ?_
      have := other p mem
      omega
    rw [Set.union_inter_distrib_right, none, Set.union_empty]
    exact unit.calls

theorem Tiled.le (tiled : Tiled M S s function rs a b) : a ≤ b := by
  induction tiled with
  | nil => exact Nat.le_refl _
  | cons unit _ ih => exact unit.le.trans ih

/-- Instructions of other parts do not matter. -/
theorem Tiled.grow (tiled : Tiled M S s function rs a b) (other : ∀ p ∈ T, p < a ∨ b ≤ p) :
    Tiled M (S ∪ T) s function rs a b := by
  induction tiled with
  | nil => exact .nil
  | @cons r rest a m b unit later ih =>
    have := unit.le
    have := later.le
    refine .cons (unit.grow fun p mem => ?_) (ih fun p mem => ?_)
    · have := other p mem
      omega
    · have := other p mem
      omega

theorem Tiled.concat {more : List Rose} (first : Tiled M S s function rs a m)
    (second : Tiled M S s function more m b) : Tiled M S s function (rs ++ more) a b := by
  induction first with
  | nil => exact second
  | cons unit _ ih => exact .cons unit (ih second)

/-- Units in front of other units. -/
theorem Tiled.append {more : List Rose} {before after : Int → Prop}
    (first : Tiled M S s function rs a m) (left : Span M S a m before targets)
    (second : Tiled M T s function more m b) (right : Span M T m b after targets') :
    Tiled M (S ∪ T) s function (rs ++ more) a b := by
  refine (first.grow fun p mem => .inr (right.within p mem)).concat ?_
  rw [Set.union_comm]
  exact second.grow fun p mem => .inl (left.lt_stop mem)

/-! ### Parts of a program -/

/-- The addresses of the functions that the parts of a program call. -/
def targetsOf (s : Session) (function : Int → Int) (rs : List Rose) : List Int :=
  (rs.flatMap (Rose.callees s)).map function

theorem targetsOf_cons (r : Rose) (rs : List Rose) : targetsOf s function (r :: rs) =
    (r.callees s).map function ++ targetsOf s function rs := by
  rw [targetsOf, List.flatMap_cons, List.map_append, targetsOf]

/-- The code of what is declared is closed. -/
theorem tiled_declared {label : Int → Int} {slot : Option Nat} {cs : List Rose}
    (each : ∀ c ∈ cs, (c.kind ≠ .functionDefinition ∧ Tight M function (c.toStatement s)) ∧
      (c.toStatement s).callees = c.callees s)
    (lay : Lay M ⟨label, function⟩ [] none (.all (cs.map (Rose.toStatement s))) a b slot)
    (room : b ≤ M.length) : ∃ S, Span M S a b (fun _ => False) (targetsOf s function cs) ∧
      Tiled M S s function cs a b := by
  induction cs generalizing a with
  | nil =>
    obtain ⟨rfl, -⟩ := lay.skip_inv
    exact ⟨∅, .empty _, .nil⟩
  | cons c cs ih =>
    obtain ⟨⟨⟨other, tight⟩, same⟩, each⟩ := List.forall_mem_cons.mp each
    obtain ⟨m, _, first, later⟩ := lay.seq_inv
    obtain ⟨rfl, S, region⟩ := tight first (later.le.trans room)
    obtain ⟨T, span, tiled⟩ := ih each later
    rw [same] at region
    have unit : UnitAt M S s function c a m :=
      .of_region region (fun kind => absurd kind other) fun _ => ⟨label, first⟩
    rw [targetsOf_cons]
    exact ⟨S ∪ T, region.span.append span, .append (.cons unit .nil) region.span tiled span⟩

/-- The parts of a program are closed, and every function that they define starts among them. -/
theorem closed_parts (parts : PartsAt M L s rs a b) (names : ∀ r ∈ rs, r.TakesNames)
    (ok : ∀ r ∈ rs, s.Accepts r) (jumps : ∀ r ∈ rs, ∀ id ∈ r.collect .jump, id ∈ r.collect .label)
    (room : b ≤ M.length) : ∃ S, Span M S a b (fun _ => False) (targetsOf s L.function rs) ∧
    Tiled M S s L.function (rs.flatMap Rose.units) a b ∧
    ∀ n ∈ functionNumbers s rs, ∃ q ∈ S, L.function n = (q : Int) ∧ ∃ stop, StartsAt M q stop := by
  induction parts with
  | nil => exact ⟨∅, .empty _, .nil, nofun⟩
  | @declaration r rest a m b form code later ih =>
    rw [List.forall_mem_cons] at names ok jumps
    obtain ⟨T, span, tiled, entries⟩ := ih names.2 ok.2 jumps.2 room
    obtain ⟨label, lay⟩ := code
    rw [Rose.toStatement_declaration form.kind] at lay
    obtain ⟨S, front, first⟩ := tiled_declared
      (fun d mem => ⟨tight_declared form mem, Rose.callees_declared form names.1 ok.1 mem⟩) lay
      (span.le.trans room)
    have own : (r.callees s).map L.function = targetsOf s L.function r.children := by
      rw [targetsOf, Rose.callees_other (by simp [form.kind]) (by simp [form.kind])]
    rw [targetsOf_cons, own, List.flatMap_cons, Rose.units_declaration form,
      functionNumbers_declaration form]
    refine ⟨S ∪ T, front.append span, first.append front tiled span, fun n mem => ?_⟩
    obtain ⟨q, there, found⟩ := entries n mem
    exact ⟨q, .inr there, found⟩
  | @function r body rest a m b label form code final later ih =>
    rw [List.forall_mem_cons] at names ok jumps
    obtain ⟨T, span, tiled, entries⟩ := ih names.2 ok.2 jumps.2 room
    obtain ⟨starts, S, first, region⟩ := region_function form jumps.1 code (span.le.trans room)
    have inside : body ∈ r.children := by simp [form.kids]
    have own : (body.toStatement s).callees = r.callees s :=
      (Rose.callees_statement form.body (names.1.child inside) (ok.1.child inside)).trans
        (Rose.callees_one (by simp [form.kind]) (by simp [form.kind]) form.kids).symm
    rw [own] at region
    have unit : UnitAt M S s L.function r a m :=
      .of_region region (fun _ => ⟨code.entry, first, starts⟩) fun other => absurd form.kind other
    rw [targetsOf_cons, List.flatMap_cons, Rose.units_function form, functionNumbers_function form]
    refine ⟨S ∪ T, region.span.append span,
      .append (.cons unit .nil) region.span tiled span, fun n mem => ?_⟩
    rcases List.mem_cons.mp mem with rfl | other
    · exact ⟨a, .inl first, code.entry, m, starts⟩
    · obtain ⟨q, there, found⟩ := entries n other
      exact ⟨q, .inr there, found⟩

/-! ### Programs -/

/-- A memory holds the parts of a program as closed code, unit by unit, and then a call of the entry
point and the end. The tables `s` number the functions, and `function` gives the address of each
number. -/
structure ClosedProgram (M : List Int) (S : Set Nat) (s : Session) (function : Int → Int)
    (parts : List Rose) (stop : Nat) : Prop where
  closed : ClosedCode M S
  tiled : Tiled M S s function (parts.flatMap Rose.units) Image.codeStart stop
  there : stop ∈ S
  last : CellsAt M stop [Operation.code .callStart, Operation.code .callTarget,
    function (s.displacementOf s.main), Operation.code .stop]
  size : M.length = stop + 4

/-- The memory of an image of a well-formed program is closed code that ends with a call of the
entry point. -/
theorem CodeAt.closed {stop : Nat} (code : CodeAt M L s root stop) (wf : WellFormed s root)
    (names : ∀ r ∈ root.children, r.TakesNames) :
    ∃ S, ClosedProgram M S s L.function root.children stop := by
  have size := code.size
  obtain ⟨S, span, tiled, entries⟩ :=
    closed_parts code.parts names (fun _ => wf.ok.child) wf.jumps (by omega)
  have last := code.last
  have open_ : CellsAt M stop [Operation.code .callStart] := ⟨last.1, trivial⟩
  have call : CellsAt M (stop + 1)
      [Operation.code .callTarget, L.function (s.displacementOf s.main)] :=
    ⟨last.2.1, last.2.2.1, trivial⟩
  have end_ : instructionAt M (stop + 3) = some (.single .stop, []) :=
    instructionAt_of_cells (Instruction.mem_all_single .stop) ⟨last.2.2.2.1, trivial⟩ rfl
  have front := (span.append (.simple open_ rfl rfl)).append (.call call)
  -- every target of a call is the address of a function that is defined
  have called (t : Int) (mem : t ∈ targetsOf s L.function root.children ++ [] ++
      [L.function (s.displacementOf s.main)]) :
      ∃ n ∈ functionNumbers s root.children, t = L.function n := by
    rw [List.append_nil, List.mem_append, List.mem_singleton] at mem
    rcases mem with below | rfl
    · obtain ⟨n, inside, rfl⟩ := List.mem_map.mp below
      obtain ⟨r, part, named⟩ := List.mem_flatMap.mp inside
      obtain ⟨x, node, kind, rfl⟩ := Rose.mem_callees named
      exact ⟨_, wf.callee (Rose.mem_nodes_child part node) kind, rfl⟩
    · exact ⟨_, wf.defined _ wf.main, rfl⟩
  refine ⟨S ∪ {stop} ∪ {stop + 1} ∪ {stop + 3}, ⟨?_, ?_, ?_, ?_, ?_⟩, ?_,
    .inl (.inl (.inr rfl)), last, size⟩
  · rcases front.starts with inside | same
    · exact .inl inside
    · exact .inr same
  · rintro p (inside | rfl)
    · obtain ⟨i, operands, found, _⟩ := front.steps p inside
      exact ⟨i, operands, found⟩
    · exact ⟨_, _, end_⟩
  · rintro p (inside | rfl) q other less i operands found
    · obtain ⟨j, cells, same, room, apart, _⟩ := front.steps p inside
      cases same.symm.trans found
      rcases other with near | rfl
      · exact apart q near less
      · exact room
    · rcases other with near | rfl
      · have := front.lt_stop near
        omega
      · omega
  · rintro p (inside | rfl) i operands found t mem
    · obtain ⟨j, cells, same, _, _, next⟩ := front.steps p inside
      cases same.symm.trans found
      obtain ⟨q, rfl, inner | rfl⟩ := (next t mem).resolve_right id
      · exact ⟨q, .inl inner, rfl⟩
      · exact ⟨_, .inr rfl, rfl⟩
    · cases end_.symm.trans found
      exact absurd mem List.not_mem_nil
  · rintro p (inside | rfl) i operands found t mem
    · obtain rfl := Instruction.callTarget_of_mem_callees mem
      obtain ⟨u, target, rfl⟩ := front.calls.mem inside found
      obtain rfl : t = u := by simpa [Instruction.callees] using mem
      obtain ⟨n, defined, rfl⟩ := called t target
      obtain ⟨q, known, address, start⟩ := entries n defined
      exact ⟨q, .inl (.inl (.inl known)), address, start⟩
    · cases end_.symm.trans found
      exact absurd mem List.not_mem_nil
  · rw [Set.union_assoc, Set.union_assoc]
    refine tiled.grow ?_
    rintro p (rfl | rfl | rfl) <;> omega

end Program

end BilingualC
