import Mathlib
import BilingualC.Proofs.Lowering.Choice
import BilingualC.Proofs.Meaning

/-!
# Dispatch in a switch

The tests of a switch stand between its statements. A case with an open test before it has a jump
over its own test, so that control falls through; a failed test leads to the next label.
`Dispatch.taken` says which statements are executed that way, and `linked_items` that the code of a
switch leads through them.

A failed test that leads to the default label never comes back, and a case behind the default label
has no jump over its test. So the rule of the language is met if no label follows the default label
and a label stands in front of the first statement: then the executed statements are those that are
meant (`taken_eq_meant`).
-/

namespace BilingualC

open Rose

/-! ## The statements that the code executes -/

namespace Dispatch

/-- Where control is in front of a label: whether it is there, or comes from a failed test to the
next label; and whether a test is open. -/
structure Spot where
  active : Bool
  isOpen : Bool
deriving DecidableEq, Repr

/-- What a label does. The test of a case is passed over if control falls through and a test is
open. -/
def Spot.pass (v : Int) (p : Spot) : Option Int → Spot
  | some c => ⟨(p.active && p.isOpen) || v == c, true⟩
  | none => ⟨true, false⟩

/-- The place behind some labels. -/
def Spot.passAll (v : Int) (p : Spot) (labels : List (Option Int)) : Spot := labels.foldl (pass v) p

/-- The statements that are executed from a place on. -/
def takenFrom (v : Int) : Spot → List Item → List Rose
  | _, [] => []
  | p, item :: rest =>
    let next := p.passAll v item.labels
    if next.active then item.statement :: takenFrom v next rest else takenFrom v next rest

/-- The place at the start of a switch. -/
def Spot.start : Spot := ⟨true, false⟩

/-- The statements of a switch that its code executes. -/
def taken : Dispatch := fun items v => takenFrom v .start items

/-! ## Switches in order -/

/-- The labels of the statements of a switch are in order: one stands in front of the first
statement, and none follows the default label. -/
def Ordered (labels : List (List (Option Int))) : Prop :=
  (∀ first ∈ labels.head?, first ≠ []) ∧ none ∉ labels.flatten.dropLast

instance (labels : List (List (Option Int))) : Decidable (Ordered labels) :=
  inferInstanceAs
    (Decidable ((∀ first ∈ labels.head?, first ≠ []) ∧ none ∉ labels.flatten.dropLast))

/-- Control passes through the labels that are left: a test is open, or there are none. -/
def Spot.Steady (p : Spot) (labels : List (Option Int)) : Prop :=
  p.active = true ∧ (p.isOpen = true ∨ labels = [])

/-- The place where a failed test leads. -/
def Spot.searching : Spot := ⟨false, true⟩

section Order

variable {v : Int} {p : Spot} {label : Option Int} {labels more : List (Option Int)}
    {items : List Item}

theorem eq_nil_of_default (last : none ∉ (none :: labels).dropLast) : labels = [] := by
  cases labels with
  | nil => rfl
  | cons _ _ => simp at last

theorem dropLast_tail (last : none ∉ (label :: labels).dropLast) : none ∉ labels.dropLast := by
  cases labels with
  | nil => simp
  | cons _ _ =>
    rw [List.dropLast_cons_cons] at last
    exact fun mem => last (List.mem_cons_of_mem _ mem)

theorem Spot.Steady.pass (steady : p.Steady (label :: labels))
    (last : none ∉ (label :: labels).dropLast) : (p.pass v label).Steady labels := by
  obtain ⟨active, opened | empty⟩ := steady
  · cases label with
    | some c => exact ⟨by simp [Spot.pass, active, opened], .inl rfl⟩
    | none => exact ⟨rfl, .inr (eq_nil_of_default last)⟩
  · exact absurd empty (by simp)

theorem Spot.Steady.passAll (steady : p.Steady (labels ++ more))
    (last : none ∉ (labels ++ more).dropLast) : (p.passAll v labels).Steady more := by
  induction labels generalizing p with
  | nil => exact steady
  | cons label labels ih => exact ih (steady.pass last) (dropLast_tail last)

theorem dropLast_append (last : none ∉ (labels ++ more).dropLast) : none ∉ more.dropLast := by
  induction labels with
  | nil => exact last
  | cons label labels ih => exact ih (dropLast_tail last)

/-- Control that passes through the labels executes all statements that are left. -/
theorem takenFrom_steady (steady : p.Steady (items.flatMap (·.labels)))
    (last : none ∉ (items.flatMap (·.labels)).dropLast) :
    takenFrom v p items = items.map (·.statement) := by
  induction items generalizing p with
  | nil => rfl
  | cons item rest ih =>
    rw [List.flatMap_cons] at steady last
    have next : (p.passAll v item.labels).Steady (rest.flatMap (·.labels)) := steady.passAll last
    rw [takenFrom, if_pos next.1, List.map_cons, ih next (dropLast_append last)]

/-- A failed test leads to the label of the value or to the default label, or past all labels. -/
theorem passAll_searching (last : none ∉ (labels ++ more).dropLast) :
    if some v ∈ labels ∨ none ∈ labels then (Spot.searching.passAll v labels).Steady more
    else Spot.searching.passAll v labels = .searching := by
  induction labels with
  | nil => simp [Spot.passAll]
  | cons label labels ih =>
    rw [List.cons_append] at last
    have steady (hit : (Spot.searching.pass v label).Steady (labels ++ more)) :
        (Spot.searching.passAll v (label :: labels)).Steady more := hit.passAll (dropLast_tail last)
    cases label with
    | none =>
      rw [if_pos (by simp)]
      exact steady ⟨rfl, .inr (eq_nil_of_default last)⟩
    | some c =>
      by_cases hit : v = c
      · rw [if_pos (by simp [hit])]
        exact steady ⟨by simp [Spot.pass, hit], .inl rfl⟩
      · have stays : Spot.searching.pass v (some c) = .searching := by
          simp [Spot.pass, Spot.searching, hit]
        have rest := ih (dropLast_tail last)
        rw [show Spot.searching.passAll v (some c :: labels) = Spot.searching.passAll v labels from
          congrArg (Spot.passAll v · labels) stays]
        simpa [hit] using rest

theorem meant_cons_of_not_mem {item : Item} {rest : List Item} (value : some v ∉ item.labels)
    (default : none ∉ item.labels) : meant (item :: rest) v = meant rest v := by
  simp [meant, startAt, value, default]

theorem takenFrom_searching (last : none ∉ (items.flatMap (·.labels)).dropLast) :
    takenFrom v .searching items = meant items v := by
  induction items with
  | nil => rfl
  | cons item rest ih =>
    rw [List.flatMap_cons] at last
    have passed := passAll_searching (v := v) last
    have later := dropLast_append last
    by_cases found : some v ∈ item.labels ∨ none ∈ item.labels
    · rw [if_pos found] at passed
      rw [takenFrom, if_pos passed.1, takenFrom_steady passed later]
      by_cases value : some v ∈ item.labels
      · simp [meant, startAt, value]
      · -- the default label is the last one, so no later label has the value
        have default : none ∈ item.labels := found.resolve_left value
        have no_labels : rest.flatMap (·.labels) = [] := by
          obtain ⟨front, back, split⟩ := List.append_of_mem default
          rw [split, List.append_assoc] at last
          exact (List.append_eq_nil_iff.mp (eq_nil_of_default (dropLast_append last))).2
        have none_later : ∀ other ∈ rest, some v ∉ other.labels := fun other mem there => by
          have inside := List.mem_flatMap.mpr ⟨other, mem, there⟩
          rw [no_labels] at inside
          simp at inside
        have nowhere :
          ((item :: rest).any fun other => other.labels.contains (some v)) = false := by
          simpa [value] using none_later
        rw [meant, nowhere, if_neg (by simp)]
        simp [startAt, default]
    · rw [if_neg found] at passed
      obtain ⟨value, default⟩ := not_or.mp found
      rw [takenFrom, passed, meant_cons_of_not_mem value default, if_neg (by simp [Spot.searching])]
      exact ih later

/-- In a switch whose labels are in order, the executed statements are those that are meant. -/
theorem taken_eq_meant (ordered : Ordered (items.map (·.labels))) (v : Int) :
    taken items v = meant items v := by
  obtain ⟨first, last⟩ := ordered
  rw [← List.flatMap_def] at last
  rw [← takenFrom_searching last, taken]
  cases items with
  | nil => rfl
  | cons item rest =>
    obtain ⟨label, labels, split⟩ := List.exists_cons_of_ne_nil (first item.labels rfl)
    have same : Spot.start.pass v label = Spot.searching.pass v label := by
      cases label <;> rfl
    have passed : Spot.start.passAll v item.labels = Spot.searching.passAll v item.labels := by
      rw [split]
      exact congrArg (Spot.passAll v · labels) same
    rw [takenFrom, takenFrom, passed]

end Order

end Dispatch

/-! ## Open tests -/

/-- The labels in front of a statement. -/
def Rose.caseLabels : Rose → List (Option Int)
  | .node _ type _ [v, b] =>
    if Kind.ofNumber type = .caseLabel then some (v.arg 2) :: b.caseLabels else []
  | .node _ type _ [b] => if Kind.ofNumber type = .defaultLabel then none :: b.caseLabels else []
  | _ => []
termination_by structural r => r

theorem Rose.caseLabels_case {r v b : Rose} (kind : r.kind = .caseLabel)
    (kids : r.children = [v, b]) : r.caseLabels = some (v.arg 2) :: b.caseLabels := by
  obtain ⟨i, type, args, children⟩ := r
  obtain rfl : children = [v, b] := kids
  rw [caseLabels]
  exact if_pos kind

theorem Rose.caseLabels_default {r b : Rose} (kind : r.kind = .defaultLabel)
    (kids : r.children = [b]) : r.caseLabels = none :: b.caseLabels := by
  obtain ⟨i, type, args, children⟩ := r
  obtain rfl : children = [b] := kids
  rw [caseLabels]
  exact if_pos kind

theorem Rose.caseLabels_other {r : Rose} (noCase : r.kind ≠ .caseLabel)
    (noDefault : r.kind ≠ .defaultLabel) : r.caseLabels = [] := by
  obtain ⟨i, type, args, children⟩ := r
  unfold caseLabels
  split
  · next same =>
    cases same
    exact if_neg noCase
  · next same =>
    cases same
    exact if_neg noDefault
  · rfl

theorem Rose.NoCases.kind_ne {r : Rose} (h : r.NoCases) : r.kind ≠ .caseLabel ∧
    r.kind ≠ .defaultLabel := by
  cases h with
  | declaration form => simp [form.kind]
  | expr expr =>
    have kind := (isExpr_kind expr).1
    constructor <;> intro same <;> simp [same, Kind.isExpression] at kind
  | block kind | null kind | ifOnly kind | ifElse kind | whileLoop kind | doWhile kind
      | forLoop kind | switching kind
  | breaking kind | continuing kind | returnVoid kind | returnValue kind => simp [kind]

/-- A statement has the labels that stand in front of it. -/
theorem Labelled.labels_eq {r : Rose} {item : Item} (labelled : Labelled r item) :
    item.labels = r.caseLabels := by
  induction labelled with
  | none noCases => rw [caseLabels_other noCases.kind_ne.1 noCases.kind_ne.2]
  | case kind kids _ _ ih => rw [caseLabels_case kind kids, ← ih]
  | default kind kids _ ih => rw [caseLabels_default kind kids, ← ih]

theorem labels_of_labelled {cs : List Rose} {items : List Item}
    (labelled : List.Forall₂ Labelled cs items) : items.map (·.labels) = cs.map caseLabels := by
  induction labelled with
  | nil => rfl
  | cons first _ ih => rw [List.map_cons, List.map_cons, first.labels_eq, ih]

theorem Labelled.noCases {r : Rose} {item : Item} (labelled : Labelled r item) :
    item.statement.NoCases := by
  induction labelled with
  | none noCases => exact noCases
  | case _ _ _ _ ih => exact ih
  | default _ _ _ ih => exact ih

section Slots

variable {M : List Int} {L : Links} {X : List Exit} {slot slot' : Option Nat} {s : Session}
    {r : Rose} {a b : Nat}

theorem Lay.slot_of_all {cs : List Piece} (lay : Lay M L X slot (.all cs) a b slot')
    (each : ∀ c ∈ cs, ∀ {slot slot' a b}, Lay M L X slot c a b slot' → slot' = slot) :
    slot' = slot := by
  induction cs generalizing slot a with
  | nil => exact lay.skip_inv.2
  | cons c cs ih =>
    obtain ⟨_, _, first, rest⟩ := lay.seq_inv
    rw [ih rest fun d mem => each d (List.mem_cons_of_mem _ mem), each c List.mem_cons_self first]

/-- A statement without labels of the switch around it leaves the open test alone. -/
theorem Rose.NoCases.slot_eq (h : r.NoCases) (lay : Lay M L X slot (r.toStatement s) a b slot') :
    slot' = slot := by
  -- only a label opens or closes a test, and a switch inside has tests of its own
  induction h generalizing X slot slot' a b with
  | @block r kind all ih =>
    rw [toStatement_block kind] at lay
    refine lay.slot_of_all fun c mem => ?_
    obtain ⟨d, there, rfl⟩ := List.mem_map.mp mem
    exact ih d there
  | null kind =>
    rw [toStatement_null (.inl kind)] at lay
    exact lay.skip_inv.2
  | declaration declaration => exact lay.slot_of_flat (flat_declaration declaration s)
  | expr expr =>
    rw [toStatement_expr (isExpr_kind expr).1] at lay
    exact lay.slot_of_flat (flat_expr expr s).2.2
  | ifOnly kind flag kids test _ yes =>
    rw [toStatement_ifOnly kind flag kids] at lay
    obtain ⟨_, _, first, _, second⟩ := lay.only_inv
    exact (yes second).trans (first.slot_of_flat (flat_expr test s).1)
  | ifElse kind flag kids test _ _ yes no =>
    rw [toStatement_ifElse kind flag kids] at lay
    obtain ⟨_, _, _, _, first, _, second, _, third⟩ := lay.choose_inv
    exact (no third).trans ((yes second).trans (first.slot_of_flat (flat_expr test s).1))
  | whileLoop kind kids test _ body =>
    rw [toStatement_whileLoop kind kids] at lay
    obtain ⟨_, _, _, _, first, _, second, _⟩ := lay.whileLoop_inv
    exact (body second).trans (first.slot_of_flat (flat_expr test s).1)
  | doWhile kind kids _ test body =>
    rw [toStatement_doWhile kind kids] at lay
    obtain ⟨_, _, _, _, first, second, _⟩ := lay.doWhile_inv
    exact (second.slot_of_flat (flat_expr test s).1).trans (body first)
  | @forLoop r b init cond step kind kids hasInit hasCond hasStep initForm condForm
      stepForm _ body =>
    rw [toStatement_forLoop kind kids hasInit hasCond hasStep] at lay
    obtain ⟨_, _, start, rounds⟩ := lay.seq_inv
    have flatStep := flat_step stepForm s
    rw [← start.slot_of_flat (flat_init initForm s)]
    cases cond with
    | none =>
      obtain ⟨_, _, _, _, first, second, _⟩ := rounds.endlessLoop_inv
      exact (second.slot_of_flat flatStep).trans (body first)
    | some c =>
      obtain ⟨_, _, _, _, _, _, first, _, second, third, _⟩ := rounds.forLoop_inv
      exact (third.slot_of_flat flatStep).trans
        ((body second).trans (first.slot_of_flat (flat_expr (condForm c rfl) s).1))
  | switching kind kids =>
    rw [toStatement_switching kind kids] at lay
    obtain ⟨_, _, _, _, same, _⟩ := lay.switch_inv
    exact same
  | breaking kind =>
    rw [toStatement_breaking kind] at lay
    obtain ⟨_, _, _, _, _, same⟩ := lay.breaking_inv
    exact same
  | continuing kind =>
    rw [toStatement_continuing kind] at lay
    obtain ⟨_, _, _, _, _, _, _, _, _, same⟩ := lay.continuing_inv
    exact same
  | returnVoid kind kids =>
    rw [toStatement_returnVoid kind kids] at lay
    exact lay.plain_inv.2.2.2.2
  | returnValue kind kids value =>
    rw [toStatement_returnValue kind kids] at lay
    exact lay.slot_of_flat ⟨(flat_expr value s).1, flat_op rfl rfl⟩

end Slots

/-! ## The way through a switch -/

open Machine Dispatch

/-- The comparison tells whether two values are the same. -/
def Arithmetic.Compares (A : Arithmetic) : Prop :=
  ∀ u v, ∃ w, A.binary .equal u v = some w ∧ (w = 0 ↔ u ≠ v)

/-- Control passes from an address to another one and changes nothing. -/
def Silent (A : Arithmetic) (M : List Int) (stack : List Int) (a b : Nat) : Prop :=
  ∀ cells, Leads A M (.running a stack cells) (.running b stack cells)

/-- The code of some statements, with ways between them that change nothing. -/
inductive Linked (A : Arithmetic) (M : List Int) (L : Links) (X : List Exit) (s : Session)
    (stack : List Int) : List Rose → Nat → Nat → Prop
  | nil {a b : Nat} (moves : Silent A M stack a b) : Linked A M L X s stack [] a b
  | cons {r : Rose} {rs : List Rose} {a m k b : Nat}
      {slot slot' : Option Nat} (moves : Silent A M stack a m)
      (code : Lay M L X slot (r.toStatement s) m k slot') (rest : Linked A M L X s stack rs k b) :
      Linked A M L X s stack (r :: rs) a b

/-- Control at a place in front of code: at its start, or where a failed test leads. -/
def Enters (M : List Int) (p : Spot) (slot : Option Nat) (a pc : Nat) : Prop :=
  p.isOpen = slot.isSome ∧
    if p.active then pc = a else ∃ q t, slot = some q ∧ M[q]? = some t ∧ pc = t.toNat

section Switch

variable {A : Arithmetic} {M : List Int} {L : Links} {X : List Exit} {slot slot' : Option Nat}
    {s : Session} {r : Rose} {a b m pc : Nat} {v : Int} {p : Spot} {stack : List Int}

theorem Silent.refl : Silent A M stack a a := fun _ => .refl

theorem Silent.trans (first : Silent A M stack a m) (second : Silent A M stack m b) :
    Silent A M stack a b :=
  fun cells => (first cells).trans (second cells)

theorem Linked.before {rs : List Rose} (moves : Silent A M stack a m)
    (linked : Linked A M L X s stack rs m b) : Linked A M L X s stack rs a b := by
  cases linked with
  | nil rest => exact .nil (moves.trans rest)
  | cons rest code later => exact .cons (moves.trans rest) code later

/-- The test of a case: control goes on behind it if the constant is the value, else where its slot
says. -/
theorem test_leads (compares : A.Compares) {c t : Int} {k : Nat}
    (double : CellsAt M a [Operation.code .duplicate])
    (constant : Lay M L X none (.op .loadConstant [c]) (a + 1) k none)
    (test : CellsAt M k [Operation.code .equal, Operation.code .branchIfZero])
    (target : M[k + 2]? = some t) :
    Silent A M (v :: stack) a (if v = c then k + 3 else t.toNat) := by
  intro cells
  obtain ⟨load, _, _, rfl, _⟩ := constant.plain_inv
  obtain ⟨w, result, zero⟩ := compares v c
  have compared : Operation.compute A .equal (c :: v :: v :: stack) = some (w :: v :: stack) := by
    simp [Operation.compute, Operation.unary?, Operation.binary?, result]
  have branch : CellsAt M (a + 1 + 2 + 1) [Operation.code .branchIfZero, t] :=
    ⟨test.2.1, target, trivial⟩
  have jumped : Leads A M (.running (a + 1 + 2 + 1) (w :: v :: stack) cells)
      (.running (if w = 0 then t.toNat else a + 1 + 2 + 1 + 2) (v :: stack) cells) :=
    leads_step (step_of_cells (Instruction.mem_all_single _) branch rfl)
  have whole := (((leads_duplicate double).trans (leads_constant load)).trans
    (leads_compute ⟨test.1, trivial⟩ compared)).trans jumped
  by_cases same : v = c
  · rw [if_neg fun none => zero.mp none same] at whole
    rw [if_pos same]
    exact whole
  · rw [if_pos (zero.mpr same)] at whole
    rw [if_neg same]
    exact whole

/-- The labels of a statement lead control to the place that `passAll` gives. -/
theorem labels_lead (compares : A.Compares) (stack : List Int) (v : Int) {item : Item}
    (labelled : Labelled r item) (lay : Lay M L X slot (r.toStatement s) a b slot')
    (room : b ≤ M.length) (enters : Enters M p slot a pc) :
    ∃ slot₁ a₁ pc₁, Lay M L X slot₁ (item.statement.toStatement s) a₁ b slot' ∧
    Enters M (p.passAll v item.labels) slot₁ a₁ pc₁ ∧ Silent A M (v :: stack) pc pc₁ := by
  induction labelled generalizing slot a pc p with
  | none noCases => exact ⟨slot, a, pc, lay, enters, .refl⟩
  | @case r w body labels statement kind kids constant rest ih =>
    rw [toStatement_caseLabel kind kids, toValue_literal constant] at lay
    -- behind the test, the slot of the test is open
    have behind (hit : Bool) {k : Nat} {t : Int}
        (inside : Lay M L X (some (k + 2)) (body.toStatement s) (k + 3) b slot')
        (target : M[k + 2]? = some t) {pc' : Nat} (moves : Silent A M (v :: stack) pc pc')
        (reached : pc' = if hit = true then k + 3 else t.toNat)
        (placed : p.pass v (some (w.arg 2)) = ⟨hit, true⟩) :
        ∃ slot₁ a₁ pc₁, Lay M L X slot₁ (statement.toStatement s) a₁ b slot' ∧
        Enters M (p.passAll v (some (w.arg 2) :: labels)) slot₁ a₁ pc₁ ∧
        Silent A M (v :: stack) pc pc₁ := by
      have next : Enters M (p.pass v (some (w.arg 2))) (some (k + 2)) (k + 3) pc' := by
        rw [placed]
        refine ⟨rfl, ?_⟩
        cases hit with
        | true => exact reached
        | false => exact ⟨k + 2, t, rfl, target, reached⟩
      obtain ⟨slot₁, a₁, pc₁, code, there, further⟩ := ih inside next
      exact ⟨slot₁, a₁, pc₁, code, there, moves.trans further⟩
    have cell {k : Nat} (low : k + 3 ≤ b) : ∃ t, M[k + 2]? = some t :=
      ⟨M[k + 2], List.getElem?_eq_getElem (by omega)⟩
    obtain ⟨opened, position⟩ := enters
    cases slot with
    | none =>
      have active : p.active = true := by
        by_contra inactive
        simp [inactive] at position
      rw [if_pos active] at position
      obtain ⟨k, double, value, test, inside⟩ := lay.caseFirst_inv
      obtain ⟨t, target⟩ := cell inside.le
      refine behind (decide (v = w.arg 2)) inside target (position
        ▸ test_leads compares double value test target) (by simp) ?_
      simp [Spot.pass, opened]
      rfl
    | some q =>
      obtain ⟨k, across, fails, double, value, test, inside⟩ := lay.caseNext_inv
      obtain ⟨t, target⟩ := cell inside.le
      by_cases active : p.active = true
      · rw [if_pos active] at position
        have crossing : Silent A M (v :: stack) pc (k + 3) :=
          fun cells => position ▸ leads_branch across
        exact behind true inside target crossing rfl (by simp [Spot.pass, opened, active])
      · rw [if_neg active] at position
        obtain ⟨q', t', same, found, reached⟩ := position
        cases same
        have at_ : pc = a + 2 := by
          rw [reached]
          cases fails.symm.trans found
          rfl
        refine behind (decide (v = w.arg 2)) inside target (at_
          ▸ test_leads compares double value test target) (by simp) ?_
        simp [Spot.pass, active]
        rfl
  | @default r body labels statement kind kids rest ih =>
    rw [toStatement_defaultLabel kind kids] at lay
    obtain ⟨fails, inside⟩ := lay.defaultLabel_inv
    have here : pc = a := by
      obtain ⟨_, position⟩ := enters
      split at position
      · exact position
      · obtain ⟨q, t, same, found, reached⟩ := position
        cases (fails q same).symm.trans found
        exact reached
    exact ih inside ⟨rfl, here⟩

/-- The code of the statements of a switch leads through those that are taken. -/
theorem linked_items (compares : A.Compares) {rs : List Rose} {items : List Item}
    (labelled : List.Forall₂ Labelled rs items)
    (lay : Lay M L X slot (.all (rs.map (toStatement s))) a b slot') (room : b ≤ M.length)
    (last : ∀ q ∈ slot', M[q]? = some (b : Int)) (enters : Enters M p slot a pc) :
    Linked A M L X s (v :: stack) (takenFrom v p items) pc b := by
  induction labelled generalizing slot a pc p with
  | nil =>
    obtain ⟨rfl, rfl⟩ := lay.skip_inv
    obtain ⟨_, position⟩ := enters
    have there : pc = b := by
      split at position
      · exact position
      · obtain ⟨q, t, same, found, reached⟩ := position
        cases (last q same).symm.trans found
        exact reached
    rw [there]
    exact .nil .refl
  | @cons r item rs items first rest ih =>
    obtain ⟨m, slot₁, code, later⟩ := lay.seq_inv
    obtain ⟨slot₂, a₂, pc₂, statement, next, moves⟩ :=
      labels_lead compares stack v first code (later.le.trans room) enters
    have kept : slot₁ = slot₂ := first.noCases.slot_eq statement
    obtain ⟨opened, position⟩ := next
    rw [takenFrom]
    by_cases active : (p.passAll v item.labels).active = true
    · rw [if_pos active] at position ⊢
      rw [position] at moves
      refine .cons moves statement (ih later ⟨kept ▸ opened, ?_⟩)
      rw [if_pos active]
    · rw [if_neg active] at position ⊢
      refine .before moves (ih later ⟨kept ▸ opened, ?_⟩)
      rw [if_neg active, kept]
      exact position

end Switch

end BilingualC
