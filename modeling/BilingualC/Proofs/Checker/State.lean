import Mathlib
import BilingualC.Checker
import BilingualC.Proofs.Arena.Waiting
import BilingualC.Proofs.Session.Tables
import BilingualC.Proofs.Tree.Names

/-!
# States of the checker

The trees that the checker has built and not yet moved under a node wait under the root like values
on a stack, the last one on top. `Checker.State` says what they are: a slot for every tree, with its
handle and what is known of the tree. Once an error was reported nothing has to be said any more, so
that a rule may leave whatever it likes behind after a report.

A rule takes the slots of its operands from the stack and puts the slot of its result in their place
(`Checker.Effect`). Effects of rules compose, and leave the slots below alone.
-/

namespace BilingualC

/-! ## Finished parts -/

/-- The definitions among some parts of a program. -/
def definitions (parts : List Rose) : List Int :=
  (parts.filter fun r => r.kind == .functionDefinition).map (·.arg 0)

/-- The labels that some trees place. -/
def labelsIn (trees : List Rose) : List Int := trees.flatMap (Rose.collect .label)

/-- The labels that some trees jump to. -/
def jumpsIn (trees : List Rose) : List Int := trees.flatMap (Rose.collect .jump)

namespace Session

variable {s t : Session} {parts : List Rose}

/-- The finished parts of a program: jumps lead to labels of their own function, a function has no
two labels of one spelling, and the functions that are counted as defined are those that have a
definition. -/
structure PartsOk (s : Session) (parts : List Rose) : Prop where
  form : ∀ r ∈ parts, r.IsPart
  covers : ∀ r ∈ parts, s.Covers r
  jumps : ∀ r ∈ parts, ∀ id ∈ r.collect .jump, id ∈ r.collect .label
  spellings : ∀ r ∈ parts, ∀ i ∈ r.collect .label, ∀ j ∈ r.collect .label,
    (s.identifier i).spelling = (s.identifier j).spelling → i = j
  labels : (labelsIn parts).Nodup
  once : (definitions parts).Nodup
  defined : ∀ id, (s.identifier id).kind = .function →
    ((s.identifier id).defined = true ↔ id ∈ definitions parts)

/-- A node that names something of a kind is a node of the kind. -/
theorem mem_collect {k : Kind} {r : Rose} {id : Int} (mem : id ∈ r.collect k) :
    ∃ x ∈ r.nodes, x.kind = k ∧ x.arg 0 = id := by
  obtain ⟨x, found, same⟩ := List.mem_map.mp mem
  obtain ⟨inside, kind⟩ := List.mem_filter.mp found
  exact ⟨x, inside, by simpa using kind, same⟩

theorem Covers.label {r : Rose} (covers : s.Covers r) {id : Int} (mem : id ∈ r.collect .label) :
    s.IsLabel id := by
  obtain ⟨x, inside, kind, rfl⟩ := mem_collect mem
  exact (covers x inside).label kind

theorem PartsOk.grow (ok : s.PartsOk parts) (grows : s.Grows t) (tables : s.Tables)
    (defined : ∀ id, (t.identifier id).defined = (s.identifier id).defined) : t.PartsOk parts where
  form := ok.form
  covers r mem := (ok.covers r mem).grow grows tables
  jumps := ok.jumps
  spellings r mem i first j second same := by
    have labels {k : Int} (inside : k ∈ r.collect .label) := (ok.covers r mem).label inside
    rw [grows.spelling (labels first).2.1, grows.spelling (labels second).2.1] at same
    exact ok.spellings r mem i first j second same
  labels := ok.labels
  once := ok.once
  defined id kind := by
    rw [defined]
    by_cases old : id < s.identifiers.size
    · rw [grows.kind old] at kind
      exact ok.defined id kind
    · rw [identifier_of_out (by omega)]
      refine iff_of_false (by simp [Identifier.none]) fun mem => ?_
      obtain ⟨r, found, rfl⟩ := List.mem_map.mp mem
      obtain ⟨part, isFunction⟩ := List.mem_filter.mp found
      have declared := ((ok.covers r part).self.function (by simpa using isFunction)).1
      exact old (declared_of_kind (by simp [declared])).2

end Session

/-! ## Labels of a function -/

namespace Checker

variable {c c₀ c₁ c₂ : Checker}

/-- The labels of the function that is checked. -/
def labelList (c : Checker) : List Label := (c.labels.getD #[]).toList

def labelIds (c : Checker) : List Int := c.labelList.map (·.identifier)

/-- The labels that were placed. -/
def placedIds (c : Checker) : List Int := (c.labelList.filter (·.defined)).map (·.identifier)

/-- The labels of the function that is checked: those that were placed are the ones that the waiting
trees place, and the waiting trees jump to no others. -/
structure LabelsOk (c : Checker) (parts trees : List Rose) : Prop where
  spellings : (c.labelList.map (·.spelling)).Nodup
  known : ∀ l ∈ c.labelList,
    c.session.IsLabel l.identifier ∧ (c.session.identifier l.identifier).spelling = l.spelling
  placed : (labelsIn trees).Perm c.placedIds
  jumps : ∀ id ∈ jumpsIn trees, id ∈ c.labelIds
  apart : (labelsIn parts ++ c.labelIds).Nodup

theorem LabelsOk.congr {parts trees trees' : List Rose}
    (ok : c₀.LabelsOk parts trees) (same : c.labels = c₀.labels)
    (grows : c₀.session.Grows c.session) (labels : (labelsIn trees').Perm (labelsIn trees))
    (jumps : ∀ id ∈ jumpsIn trees', id ∈ jumpsIn trees) : c.LabelsOk parts trees' := by
  have list : c.labelList = c₀.labelList := by rw [labelList, same, labelList]
  have ids : c.labelIds = c₀.labelIds := by rw [labelIds, list, labelIds]
  have placed : c.placedIds = c₀.placedIds := by rw [placedIds, list, placedIds]
  refine ⟨list ▸ ok.spellings, fun l mem => ?_, placed ▸ labels.trans ok.placed,
    fun id mem => ids ▸ ok.jumps id (jumps id mem), ids ▸ ok.apart⟩
  obtain ⟨isLabel, spelling⟩ := ok.known l (list ▸ mem)
  exact ⟨isLabel.grow grows, (grows.spelling isLabel.2.1).trans spelling⟩

/-! ## States -/

/-- A tree that waits under the root: its handle and what is known of the tree. -/
structure Slot where
  handle : Handle
  form : Rose → Prop

/-- An expression that waits. -/
def Slot.expr (n : Handle) : Slot := ⟨n, Rose.IsExpr⟩

/-- Trees that wait, the last one on top, of all of which the same is known. -/
def Slot.each (form : Rose → Prop) (ns : List Handle) : List Slot :=
  (ns.map fun n => ⟨n, form⟩).reverse

theorem Slot.each_cons (form : Rose → Prop) (n : Handle) (ns : List Handle) :
    each form (n :: ns) = each form ns ++ [⟨n, form⟩] := by
  rw [each, List.map_cons, List.reverse_cons, each]

/-- Expressions that wait, the last one on top. -/
abbrev exprs (ns : List Handle) : List Slot := Slot.each Rose.IsExpr ns

theorem exprs_cons (n : Handle) (ns : List Handle) : exprs (n :: ns) = exprs ns ++ [.expr n] :=
  Slot.each_cons _ n ns

/-- What stays as it is while a rule is applied: an earlier state, from which the tables have only
grown, and the finished parts of the program. -/
structure World where
  before : Checker
  parts : List Rose

/-- Nothing was declared anew or left since an earlier state. -/
structure Keeps (before c : Checker) : Prop where
  grows : before.session.Grows c.session
  stringType : c.stringType = before.stringType
  function : c.function = before.function
  resultType : c.resultType = before.resultType
  loops : c.loops = before.loops
  switches : c.switches = before.switches

theorem Keeps.refl (c : Checker) : c.Keeps c := ⟨.refl _, rfl, rfl, rfl, rfl, rfl⟩

theorem Keeps.trans (first : c₀.Keeps c₁) (second : c₁.Keeps c₂) : c₀.Keeps c₂ :=
  ⟨first.grows.trans second.grows, second.stringType.trans first.stringType,
    second.function.trans first.function, second.resultType.trans first.resultType,
    second.loops.trans first.loops, second.switches.trans first.switches⟩

/-- A state without an error: the trees, last one first, wait under the root behind the finished
parts. -/
structure Stands (w : World) (trees : List Rose) (c : Checker) : Prop where
  holds : c.session.tree.Holds (.unit (w.parts ++ trees.reverse))
  covers : ∀ r ∈ trees, c.session.Covers r
  tables : c.session.Tables
  string : c.session.types.Valid c.stringType
  result : c.session.types.Valid c.resultType
  loops : 0 ≤ c.loops
  switches : 0 ≤ c.switches
  labels : c.LabelsOk w.parts trees
  parts : c.session.PartsOk w.parts
  keeps : w.before.Keeps c

/-- The trees are those of some slots. -/
def Fits (c : Checker) (slots : List Slot) (trees : List Rose) : Prop :=
  List.Forall₂ (fun slot r => slot.handle = c.session.tree.handle r.index ∧ slot.form r) slots trees

/-- An error was reported. -/
def Dirty (c : Checker) : Prop := c.session.journal.hadError = true

/-- The state of the checker: an error was reported, or trees for the slots wait under the root. -/
def State (w : World) (slots : List Slot) (c : Checker) : Prop :=
  c.Dirty ∨ ∃ trees, c.Stands w trees ∧ c.Fits slots trees

/-- A step of the checker takes some slots from the top and puts others in their place, seen from an
earlier state. -/
def EffectIn (c₀ : Checker) (w : World) (ins outs : List Slot) (c : Checker) : Prop :=
  ∀ base, c₀.State w (ins ++ base) → c.State w (outs ++ base)

/-- A step of the checker takes some slots from the top and puts others in their place. -/
def Effect (c₀ : Checker) (ins outs : List Slot) (c : Checker) : Prop :=
  ∀ w, c₀.EffectIn w ins outs c

namespace EffectIn

variable {w : World} {ins mid outs : List Slot}

theorem trans (first : c₀.EffectIn w ins mid c₁) (second : c₁.EffectIn w mid outs c₂) :
    c₀.EffectIn w ins outs c₂ :=
  fun base state => second base (first base state)

theorem of_dirty (dirty : c.Dirty) : c₀.EffectIn w ins outs c := fun _ _ => .inl dirty

/-- Slots below those that a step takes stay where they are. -/
theorem frame (effect : c₀.EffectIn w ins outs c) (more : List Slot) :
    c₀.EffectIn w (ins ++ more) (outs ++ more) c := by
  intro base state
  rw [List.append_assoc] at state ⊢
  exact effect (more ++ base) state

end EffectIn

namespace Effect

variable {ins mid outs more : List Slot}

theorem refl : c₀.Effect ins ins c₀ := fun _ _ state => state

theorem trans (first : c₀.Effect ins mid c₁) (second : c₁.Effect mid outs c₂) :
    c₀.Effect ins outs c₂ :=
  fun w => (first w).trans (second w)

theorem of_dirty (dirty : c.Dirty) : c₀.Effect ins outs c := fun _ _ _ => .inl dirty

/-- Slots below those that a step takes stay where they are. -/
theorem frame (effect : c₀.Effect ins outs c) (more : List Slot) :
    c₀.Effect (ins ++ more) (outs ++ more) c :=
  fun w => (effect w).frame more

end Effect

/-- A step that is possible in every world keeps errors. -/
theorem dirty_of_effects {ins outs : World → List Slot}
    (effect : ∀ w, c₀.EffectIn w (ins w) (outs w) c) (dirty : c₀.Dirty) : c.Dirty := by
  -- In a world with another function nothing can stand.
  rcases effect ⟨{ c with function := c.function + 1 }, []⟩ [] (.inl dirty) with dirty
    | ⟨trees, stands, -⟩
  · exact dirty
  · have same : c.function = c.function + 1 := stands.keeps.function
    omega

/-! ## Slots and trees -/

section Slots

variable {w : World} {slots : List Slot} {slot : Slot} {trees rest : List Rose}

theorem fits_nil : c.Fits [] trees ↔ trees = [] := List.forall₂_nil_left_iff

theorem fits_cons : c.Fits (slot :: slots) trees ↔ ∃ r rest, trees = r :: rest ∧
    slot.handle = c.session.tree.handle r.index ∧ slot.form r ∧ c.Fits slots rest := by
  rw [Fits, List.forall₂_cons_left_iff]
  constructor
  · rintro ⟨r, rest, ⟨handle, form⟩, later, same⟩
    exact ⟨r, rest, same, handle, form, later⟩
  · rintro ⟨r, rest, same, handle, form, later⟩
    exact ⟨r, rest, ⟨handle, form⟩, later, same⟩

theorem fits_append {more : List Slot} : c.Fits (slots ++ more) trees ↔
    ∃ upper lower, trees = upper ++ lower ∧ c.Fits slots upper ∧ c.Fits more lower := by
  induction slots generalizing trees with
  | nil => simp [fits_nil]
  | cons slot slots ih =>
    simp only [List.cons_append, fits_cons, ih]
    constructor
    · rintro ⟨r, _, rfl, handle, form, upper, lower, rfl, first, second⟩
      exact ⟨r :: upper, lower, rfl, ⟨r, upper, rfl, handle, form, first⟩, second⟩
    · rintro ⟨_, lower, rfl, ⟨r, upper, rfl, handle, form, first⟩, second⟩
      exact ⟨r, upper ++ lower, rfl, handle, form, upper, lower, rfl, first, second⟩

theorem fits_one : c.Fits [slot] trees ↔ ∃ x, trees = [x] ∧
    slot.handle = c.session.tree.handle x.index ∧ slot.form x := by
  simp only [fits_cons, fits_nil]
  constructor
  · rintro ⟨x, _, rfl, handle, form, rfl⟩
    exact ⟨x, rfl, handle, form⟩
  · rintro ⟨x, rfl, handle, form⟩
    exact ⟨x, [], rfl, handle, form, rfl⟩

theorem fits_two {below : Slot} : c.Fits [slot, below] trees ↔ ∃ y x, trees = [y, x] ∧
    slot.handle = c.session.tree.handle y.index ∧ slot.form y ∧
    below.handle = c.session.tree.handle x.index ∧ below.form x := by
  rw [fits_cons]
  constructor
  · rintro ⟨y, _, rfl, handle, form, later⟩
    obtain ⟨x, rfl, second⟩ := fits_one.1 later
    exact ⟨y, x, rfl, handle, form, second⟩
  · rintro ⟨y, x, rfl, handle, form, second⟩
    exact ⟨y, [x], rfl, handle, form, fits_one.2 ⟨x, rfl, second⟩⟩

/-- Trees keep their slots as long as their handles stay the same. -/
theorem Fits.keep (fits : c₀.Fits slots trees)
    (kept : ∀ r ∈ trees, c.session.tree.generation r.index = c₀.session.tree.generation r.index) :
    c.Fits slots trees := by
  induction fits with
  | nil => exact .nil
  | @cons slot r slots rest first later ih =>
    refine .cons ⟨first.1.trans ?_, first.2⟩ (ih fun x mem => kept x (List.mem_cons_of_mem r mem))
    rw [Arena.handle, Arena.handle, kept r List.mem_cons_self]

/-- Slots that say less fit as well. -/
theorem Fits.weaken {more : List Slot} (fits : c.Fits slots trees)
    (weaker : List.Forall₂ (fun a b => a.handle = b.handle ∧ ∀ r, a.form r → b.form r) slots more) :
    c.Fits more trees := by
  induction weaker generalizing trees with
  | nil => exact fits
  | cons first _ ih =>
    obtain ⟨r, rest, rfl, handle, form, later⟩ := fits_cons.1 fits
    exact fits_cons.2 ⟨r, rest, rfl, first.1 ▸ handle, first.2 r form, ih later⟩

theorem Fits.handles (fits : c.Fits slots trees) :
    slots.map (·.handle) = trees.map fun r => c.session.tree.handle r.index := by
  induction fits with
  | nil => rfl
  | cons first _ ih => rw [List.map_cons, List.map_cons, first.1, ih]

theorem handles_each (form : Rose → Prop) (ns : List Handle) :
    (Slot.each form ns).map (·.handle) = ns.reverse := by
  rw [Slot.each, List.map_reverse, List.map_map]
  exact congrArg List.reverse (List.map_id ns)

theorem fits_each {form : Rose → Prop} {ns : List Handle} : c.Fits (Slot.each form ns) trees ↔
    ns = trees.reverse.map (fun r => c.session.tree.handle r.index) ∧ ∀ r ∈ trees, form r := by
  constructor
  · intro fits
    refine ⟨?_, fun r mem => ?_⟩
    · rw [List.map_reverse, ← fits.handles, handles_each, List.reverse_reverse]
    · obtain ⟨i, low, rfl⟩ := List.mem_iff_getElem.mp mem
      have inside : i < (Slot.each form ns).length := fits.length_eq.symm ▸ low
      have known := (List.forall₂_iff_get.mp fits).2 i inside low
      simpa [Slot.each] using known.2
  · rintro ⟨rfl, all⟩
    rw [Slot.each, List.map_map, ← List.map_reverse, List.reverse_reverse, Fits,
      List.forall₂_map_left_iff, List.forall₂_same]
    exact fun r mem => ⟨rfl, all r mem⟩

theorem Stands.mem_unit (_ : c.Stands w trees) {r : Rose} (mem : r ∈ trees) :
    r ∈ w.parts ++ trees.reverse :=
  List.mem_append_right _ (List.mem_reverse.mpr mem)

theorem Stands.has (stands : c.Stands w trees) {r : Rose} (mem : r ∈ trees) :
    c.session.tree.Has r :=
  stands.holds.waiting (stands.mem_unit mem)

theorem Stands.live (stands : c.Stands w trees) {r : Rose} (mem : r ∈ trees) :
    c.session.tree.isBroken (c.session.tree.handle r.index) = false :=
  stands.holds.isBroken_waiting (stands.mem_unit mem)

theorem Stands.ne_broken (stands : c.Stands w trees) {r : Rose} (mem : r ∈ trees) :
    c.session.tree.handle r.index ≠ .broken :=
  stands.holds.handle_ne_broken (stands.mem_unit mem)

/-! ## Reading trees that wait -/

section Reading

variable {r : Rose} {n : Handle} (stands : c.Stands w trees) (mem : r ∈ trees)
    (named : n = c.session.tree.handle r.index)

include stands mem named

theorem Stands.type {type : TypeId} (read : c.session.tree.exprType n = .ok type) :
    r.exprType = type := by
  rw [named] at read
  exact Except.ok.inj (((stands.has mem).arg 0).symm.trans read)

theorem Stands.place {place : Bool} (read : c.session.tree.isPlace n = .ok place) :
    r.isPlace = place := by
  rw [named] at read
  exact Except.ok.inj ((stands.has mem).isPlace.symm.trans read)

theorem Stands.kind : r.kind = c.session.tree.kind n := by
  rw [named]
  exact (stands.has mem).kind.symm

/-- A tree that waits is not broken. -/
theorem Stands.not_broken (broken : c.session.tree.isBroken n = true) : False := by
  rw [named, stands.live mem] at broken
  cases broken

end Reading

/-- The type of an expression that waits is valid. -/
theorem Stands.valid {r : Rose} (stands : c.Stands w trees) (mem : r ∈ trees) (expr : r.IsExpr) :
    c.session.types.Valid r.exprType :=
  (stands.covers r mem).self.type (Rose.isExpression_of_mem expr r r.mem_nodes_self)

theorem Fits.mem (fits : c.Fits slots trees) {n : Handle} (inside : n ∈ slots.map (·.handle)) :
    ∃ r ∈ trees, n = c.session.tree.handle r.index := by
  rw [fits.handles, List.mem_map] at inside
  obtain ⟨r, mem, same⟩ := inside
  exact ⟨r, mem, same.symm⟩

/-- A slot for a broken node is left only after an error. -/
theorem State.dirty {n : Handle} (state : c.State w slots) (inside : n ∈ slots.map (·.handle))
    (broken : c.session.tree.isBroken n = true) : c.Dirty := by
  obtain dirty | ⟨trees, stands, fits⟩ := state
  · exact dirty
  · obtain ⟨r, mem, named⟩ := fits.mem inside
    exact (stands.not_broken mem named broken).elim

theorem Effect.of_broken {ins outs : List Slot} {n : Handle} (inside : n ∈ ins.map (·.handle))
    (broken : c.session.tree.isBroken n = true) : c.Effect ins outs c :=
  fun _ _ state =>
    .inl (state.dirty (by rw [List.map_append]; exact List.mem_append_left _ inside) broken)

/-- What is known of the trees in some slots can be read off them. -/
theorem Effect.learn {ins outs : List Slot}
    (known : ∀ w trees rest, c.Stands w (trees ++ rest) → c.Fits ins trees → c.Fits outs trees) :
    c.Effect ins outs c := by
  rintro w base (dirty | ⟨trees, stands, fits⟩)
  · exact .inl dirty
  · obtain ⟨upper, lower, rfl, first, later⟩ := fits_append.1 fits
    exact .inr ⟨upper ++ lower, stands,
      fits_append.2 ⟨upper, lower, rfl, known w upper lower stands first, later⟩⟩

/-- What is known of the expression on top of the stack. -/
theorem Effect.learn₁ {n : Handle} {form : Rose → Prop}
    (known : ∀ w x rest, c.Stands w (x :: rest) → n = c.session.tree.handle x.index → x.IsExpr →
      form x) : c.Effect [.expr n] [⟨n, form⟩] c := by
  refine .learn fun w trees rest stands fits => ?_
  obtain ⟨x, rfl, named, expr⟩ := fits_one.1 fits
  exact fits_one.2 ⟨x, rfl, named, known w x rest stands named expr⟩

/-- Slots may say less. -/
theorem Effect.weaken {ins outs : List Slot}
    (weaker : List.Forall₂ (fun a b => a.handle = b.handle ∧ ∀ r, a.form r → b.form r) ins outs) :
    c.Effect ins outs c :=
  .learn fun _ _ _ _ fits => fits.weaken weaker

/-- None of the trees that wait has a broken handle. -/
theorem Stands.filter_handles {kids : List Rose}
    (stands : c.Stands w trees) (inside : ∀ r ∈ kids, r ∈ trees) :
    (kids.map fun r => c.session.tree.handle r.index).filter (· ≠ .broken) =
    kids.map fun r => c.session.tree.handle r.index := by
  rw [List.filter_eq_self]
  intro m mem
  obtain ⟨r, child, rfl⟩ := List.mem_map.mp mem
  simpa using stands.ne_broken (inside r child)

/-- The handles of trees that wait, in the order in which they were built. -/
theorem Fits.live (fits : c.Fits slots trees) (stands : c.Stands w (trees ++ rest)) :
    (slots.map (·.handle)).reverse.filter (· ≠ .broken) = trees.reverse.map fun r =>
    c.session.tree.handle r.index := by
  rw [fits.handles, ← List.map_reverse]
  exact stands.filter_handles fun r mem => List.mem_append_left _ (List.mem_reverse.mp mem)

end Slots

/-! ## Changed trees and tables -/

/-- The state with another tree. -/
def withTree (c : Checker) (t : Arena) : Checker :=
  { c with session := { c.session with tree := t } }

/-- The state with another session. -/
def withSession (c : Checker) (s : Session) : Checker := { c with session := s }

section Changes

variable {w : World} {trees trees' : List Rose} {t : Arena} {s : Session}

theorem grows_withTree (c : Checker) (t : Arena) : c.session.Grows (c.withTree t).session :=
  ⟨.refl _, le_refl _, fun _ _ => rfl, le_refl _⟩

/-- The tree and the labels change together. -/
theorem Stands.relabel (stands : c.Stands w trees) (L : Option (Array Label))
    (holds : t.Holds (.unit (w.parts ++ trees'.reverse)))
    (covers : ∀ r ∈ trees', c.session.Covers r)
    (labels : LabelsOk { c with labels := L } w.parts trees') :
    Stands w trees' { c.withTree t with labels := L } where
  holds := holds
  covers r mem := (covers r mem).grow (c.grows_withTree t) stands.tables
  tables :=
    (stands.tables.of_same (t := (c.withTree t).session) rfl rfl rfl rfl stands.tables.shown).2
  string := stands.string
  result := stands.result
  loops := stands.loops
  switches := stands.switches
  labels := labels.congr rfl (c.grows_withTree t) (.refl _) fun _ mem => mem
  parts := stands.parts.grow (c.grows_withTree t) stands.tables fun _ => rfl
  keeps := stands.keeps.trans ⟨c.grows_withTree t, rfl, rfl, rfl, rfl, rfl⟩

theorem Stands.withTree (stands : c.Stands w trees)
    (holds : t.Holds (.unit (w.parts ++ trees'.reverse)))
    (covers : ∀ r ∈ trees', c.session.Covers r) (labels : (labelsIn trees').Perm (labelsIn trees))
    (jumps : ∀ id ∈ jumpsIn trees', id ∈ jumpsIn trees) : (c.withTree t).Stands w trees' :=
  stands.relabel c.labels holds covers (stands.labels.congr rfl (.refl _) labels jumps)

theorem Stands.update (stands : c.Stands w trees) (updates : c.session.Updates s) :
    (c.withSession s).Stands w trees where
  holds := updates.tree.symm ▸ stands.holds
  covers r mem := (stands.covers r mem).grow updates.grows stands.tables
  tables := updates.tables
  string := stands.string.continue updates.grows.types
  result := stands.result.continue updates.grows.types
  loops := stands.loops
  switches := stands.switches
  labels := stands.labels.congr rfl updates.grows (.refl _) fun _ mem => mem
  parts := stands.parts.grow updates.grows stands.tables updates.defined
  keeps := stands.keeps.trans ⟨updates.grows, rfl, rfl, rfl, rfl, rfl⟩

/-- A step on the tables. -/
theorem Effect.update {slots : List Slot} (errors : c.Dirty → s.journal.hadError = true)
    (updates : ∀ w trees rest, c.Stands w (trees ++ rest) → c.Fits slots trees →
      c.session.Updates s) : c.Effect slots slots (c.withSession s) := by
  rintro w base (dirty | ⟨trees, stands, fits⟩)
  · exact .inl (errors dirty)
  · obtain ⟨upper, lower, rfl, first, -⟩ := fits_append.1 fits
    have step := updates w upper lower stands first
    refine .inr ⟨upper ++ lower, stands.update step, fits.keep fun r _ => ?_⟩
    rw [show (c.withSession s).session.tree = c.session.tree from step.tree]

end Changes

end Checker

end BilingualC
