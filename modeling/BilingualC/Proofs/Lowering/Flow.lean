import Mathlib
import BilingualC.Proofs.Lowering.Layout

/-!
# Control flow of code in memory

A `Span` is a set of addresses between two addresses of a memory: an instruction stands at each of
them, the instructions do not overlap, and control passes from each of them to another one, to the
end of the span, or to a goal outside of it. The calls among the instructions hold known targets, in
their order (`CallsAt`). Spans that follow each other are one span.

`Lay.flow`: code that is laid out in a memory is a span. The goals outside of it are the exits that
surround the code and the labels that it jumps to.
-/

namespace BilingualC

/-! ## Instructions in memory -/

namespace Instruction

/-- Every operation has an opcode. -/
theorem mem_all_operation (o : Operation) : o ∈ Operation.all := by
  cases o <;> decide

theorem mem_all_single (o : Operation) : Instruction.single o ∈ all := by
  rw [all, List.append_assoc]
  exact List.mem_append_left _ (List.mem_map_of_mem (mem_all_operation o))

theorem mem_all_store {f : Family} {m : Member} (listed : (f.hasFloat || !m.float) = true) :
    Instruction.store f m ∈ all := by
  have families : f ∈ Family.all := by cases f <;> decide
  have members : m ∈ membersOf f := by
    refine List.mem_filter.mpr ⟨?_, listed⟩
    rcases m with ⟨_ | _, _ | _, _ | _⟩ <;> decide
  have split : membersOf f = .base :: (membersOf f).drop 1 := by cases f <;> rfl
  rw [split, List.mem_cons] at members
  rw [all, List.append_assoc]
  rcases members with rfl | later
  · exact List.mem_append_right _ (List.mem_append_left _ (List.mem_map.mpr ⟨f, families, rfl⟩))
  · refine List.mem_append_right _
      (List.mem_append_right _ (List.mem_flatMap.mpr ⟨f, families, ?_⟩))
    exact List.mem_map_of_mem later

theorem mem_all_plain {i : Instruction} (plain : i.isPlain = true) : i ∈ all := by
  cases i with
  | single o => exact mem_all_single o
  | store f m => exact mem_all_store plain

/-- An instruction is known by its opcode. -/
theorem ofCode?_code {i : Instruction} (listed : i ∈ all) : ofCode? i.code = some i := by
  have place : (i.code - firstCode).toNat = all.idxOf i := by
    rw [code]
    omega
  have high : ¬ i.code < firstCode := by
    rw [code]
    omega
  rw [ofCode?, if_neg high, place, table, List.getElem?_toArray]
  exact List.getElem?_idxOf listed

/-- The addresses to which control may pass after an instruction at an address, within its
function. -/
def successors (a : Nat) : Instruction → List Int → List Int
  | .single .branch, operands => operands
  | .single .branchIfZero, operands | .single .branchUnlessZero, operands =>
    (a + 2 : Nat) :: operands
  | .single .functionStart, operands => (a + 3 : Nat) :: operands.drop 1
  | .single .returnVoid, _ | .single .returnValue, _ | .single .stop, _ => []
  | _, operands => [((a + 1 + operands.length : Nat) : Int)]

/-- The functions that an instruction calls, by their addresses. -/
def callees : Instruction → List Int → List Int
  | .single .callTarget, operands => operands
  | _, _ => []

theorem callTarget_of_mem_callees {i : Instruction} {operands : List Int} {t : Int}
    (mem : t ∈ i.callees operands) : i = .single .callTarget := by
  cases i with
  | single o => cases o <;> first | rfl | exact absurd mem List.not_mem_nil
  | store f m => exact absurd mem List.not_mem_nil

/-- Says whether an instruction is a jump or a test. -/
def isBranch : Instruction → Bool
  | .single .branch | .single .branchIfZero | .single .branchUnlessZero => true
  | _ => false

theorem successors_plain {i : Instruction} (plain : i.isPlain = true) (a : Nat)
    (operands : List Int) : ∀ t ∈ successors a i operands, t = (a + 1 + operands.length : Nat) := by
  cases i with
  | single o => cases o <;> simp_all [successors, isPlain, Operation.isControl]
  | store f m => simp [successors]

end Instruction

/-- The instruction at an address, with its operands inside the memory. -/
def instructionAt (M : List Int) (a : Nat) : Option (Instruction × List Int) :=
  match M.drop a with
  | [] => none
  | cell :: rest =>
    match Instruction.ofCode? cell with
    | none => none
    | some i => if rest.length < i.operands then none else some (i, rest.take i.operands)

variable {M : List Int}

theorem drop_of_cellsAt {a : Nat} {cells : List Int} (h : CellsAt M a cells) :
    M.drop a = cells ++ M.drop (a + cells.length) := by
  induction cells generalizing a with
  | nil => simp
  | cons x xs ih =>
    obtain ⟨first, later⟩ := h
    obtain ⟨inside, rfl⟩ := List.getElem?_eq_some_iff.mp first
    rw [List.drop_eq_getElem_cons inside, ih later, List.cons_append, List.length_cons]
    congr 3
    omega

theorem instructionAt_of_drop {a : Nat} {cell : Int} {rest : List Int}
    {i : Instruction} (dropped : M.drop a = cell :: rest)
    (known : Instruction.ofCode? cell = some i) (room : i.operands ≤ rest.length) :
    instructionAt M a = some (i, rest.take i.operands) := by
  simp only [instructionAt, dropped, known]
  rw [if_neg (Nat.not_lt.mpr room)]

theorem instructionAt_of_cells {a : Nat} {i : Instruction}
    {operands : List Int} (listed : i ∈ Instruction.all)
    (cells : CellsAt M a (i.code :: operands)) (count : operands.length = i.operands) :
    instructionAt M a = some (i, operands) := by
  have dropped := drop_of_cellsAt cells
  rw [List.cons_append] at dropped
  rw [instructionAt_of_drop dropped (Instruction.ofCode?_code listed) (by simp [← count]), ← count,
    List.take_left]

/-! ## Calls in memory -/

/-- The calls among the instructions at some addresses: in the order of the addresses they hold the
given targets, one each. -/
def CallsAt (M : List Int) (S : Set Nat) (targets : List Int) : Prop :=
  ∃ places : List Nat, places.Pairwise (· < ·) ∧ (∀ p, p ∈ places ↔
    p ∈ S ∧ ∃ operands, instructionAt M p = some (.single .callTarget, operands)) ∧
    places.map (instructionAt M) = targets.map fun t => some (.single .callTarget, [t])

namespace CallsAt

variable {S T : Set Nat} {a : Nat} {targets others : List Int}

theorem none
    (noCall : ∀ p ∈ S, ∀ operands, instructionAt M p ≠ some (.single .callTarget, operands)) :
    CallsAt M S [] :=
  ⟨[], .nil, fun p => by simpa using noCall p, rfl⟩

/-- An instruction of another kind. -/
theorem other {i : Instruction} {operands : List Int}
    (found : instructionAt M a = some (i, operands))
    (noCall : i ≠ .single .callTarget) : CallsAt M {a} [] := by
  refine none fun p here cells same => ?_
  cases here
  cases found.symm.trans same
  exact noCall rfl

/-- A call. -/
theorem call {t : Int} (found : instructionAt M a = some (.single .callTarget, [t])) :
    CallsAt M {a} [t] := by
  refine ⟨[a], List.pairwise_singleton _ _, fun p => ?_, by simp [found]⟩
  rw [List.mem_singleton, Set.mem_singleton_iff]
  refine ⟨?_, And.left⟩
  rintro rfl
  exact ⟨rfl, _, found⟩

/-- Calls at addresses in front of others. -/
theorem append (first : CallsAt M S targets) (second : CallsAt M T others)
    (before : ∀ p ∈ S, ∀ q ∈ T, p < q) : CallsAt M (S ∪ T) (targets ++ others) := by
  obtain ⟨places, sorted, all, hold⟩ := first
  obtain ⟨places', sorted', all', hold'⟩ := second
  refine ⟨places ++ places', List.pairwise_append.mpr ⟨sorted, sorted', fun p mem q later => ?_⟩,
    fun p => ?_, ?_⟩
  · exact before p ((all p).mp mem).1 q ((all' q).mp later).1
  · rw [List.mem_append, all, all', ← or_and_right]
    exact Iff.rfl
  · rw [List.map_append, List.map_append, hold, hold']

/-- Each call holds one of the targets. -/
theorem mem (calls : CallsAt M S targets) {p : Nat} (inside : p ∈ S) {operands : List Int}
    (found : instructionAt M p = some (.single .callTarget, operands)) :
    ∃ t ∈ targets, operands = [t] := by
  obtain ⟨places, -, all, hold⟩ := calls
  have listed : some (Instruction.single .callTarget, operands) ∈ places.map (instructionAt M) :=
    found ▸ List.mem_map_of_mem ((all p).mpr ⟨inside, operands, found⟩)
  rw [hold] at listed
  obtain ⟨t, mem, same⟩ := List.mem_map.mp listed
  cases same
  exact ⟨t, mem, rfl⟩

end CallsAt

/-! ## Spans -/

/-- An address among some addresses, or the one behind them. -/
def Meets (S : Set Nat) (b : Nat) (t : Int) : Prop := ∃ q : Nat, t = q ∧ (q ∈ S ∨ q = b)

/-- The instructions between two addresses. Control stays among them, passes to the end, or goes
`out`; the calls among them hold the `targets`. -/
structure Span (M : List Int) (S : Set Nat) (a b : Nat) (out : Int → Prop)
    (targets : List Int) : Prop where
  le : a ≤ b
  within : ∀ p ∈ S, a ≤ p
  starts : a ∈ S ∨ a = b
  steps : ∀ p ∈ S, ∃ i operands, instructionAt M p = some (i, operands) ∧
    p + 1 + operands.length ≤ b ∧ (∀ q ∈ S, p < q → p + 1 + operands.length ≤ q) ∧
    ∀ t ∈ i.successors p operands, Meets S b t ∨ out t
  calls : CallsAt M S targets

namespace Span

variable {S T : Set Nat} {a m b : Nat} {out out' : Int → Prop} {targets targets' : List Int}

theorem meets_start (span : Span M S a b out targets) : Meets S b a := ⟨a, rfl, span.starts⟩

theorem meets_stop (S : Set Nat) (b : Nat) : Meets S b b := ⟨b, rfl, .inr rfl⟩

theorem empty (a : Nat) : Span M ∅ a a out [] :=
  ⟨Nat.le_refl _, nofun, .inr rfl, nofun, .none nofun⟩

/-- One instruction; the cells behind it are not reached by falling through unless it is the last
one. -/
theorem single {i : Instruction} {operands : List Int}
    (found : instructionAt M a = some (i, operands)) (room : a + 1 + operands.length ≤ b)
    (next : ∀ t ∈ i.successors a operands, t = (b : Int) ∨ out t)
    (calls : CallsAt M {a} targets) : Span M {a} a b out targets where
  le := by omega
  within p mem := by rw [Set.mem_singleton_iff.mp mem]
  starts := .inl rfl
  steps p mem := by
    cases mem
    refine ⟨i, operands, found, room, ?_, ?_⟩
    · intro q there less
      cases there
      omega
    · intro t mem
      refine (next t mem).imp_left fun same => ?_
      rw [same]
      exact meets_stop _ _
  calls := calls

theorem lt_stop (span : Span M S a b out targets) {p : Nat} (mem : p ∈ S) : p < b := by
  obtain ⟨_, _, _, room, _⟩ := span.steps p mem
  omega

theorem append (first : Span M S a m out targets) (second : Span M T m b out targets') :
    Span M (S ∪ T) a b out (targets ++ targets') where
  le := first.le.trans second.le
  within p mem := mem.elim (first.within p) fun later => first.le.trans (second.within p later)
  starts := by
    rcases first.starts with inside | empty
    · exact .inl (.inl inside)
    · rcases second.starts with there | none
      · exact .inl (.inr (empty ▸ there))
      · exact .inr (empty.trans none)
  steps p mem := by
    rcases mem with here | later
    · obtain ⟨i, operands, found, room, apart, next⟩ := first.steps p here
      refine ⟨i, operands, found, room.trans second.le, ?_, ?_⟩
      · intro q there less
        exact there.elim (fun near => apart q near less) fun far => room.trans (second.within q far)
      · intro t mem
        refine (next t mem).imp_left ?_
        rintro ⟨q, rfl, inside | rfl⟩
        · exact ⟨q, rfl, .inl (.inl inside)⟩
        · exact ⟨q, rfl, second.starts.imp_left .inr⟩
    · obtain ⟨i, operands, found, room, apart, next⟩ := second.steps p later
      refine ⟨i, operands, found, room, ?_, ?_⟩
      · intro q there less
        rcases there with near | far
        · have := first.lt_stop near
          have := second.within p later
          omega
        · exact apart q far less
      · intro t mem
        refine (next t mem).imp_left ?_
        rintro ⟨q, rfl, inside | rfl⟩
        · exact ⟨q, rfl, .inl (.inr inside)⟩
        · exact meets_stop _ _
  calls := first.calls.append second.calls fun p here q later =>
    Nat.lt_of_lt_of_le (first.lt_stop here) (second.within q later)

/-- A goal outside may turn out to be inside. -/
theorem widen (span : Span M S a b out targets) (outer : ∀ t, out t → Meets S b t ∨ out' t) :
    Span M S a b out' targets where
  le := span.le
  within := span.within
  starts := span.starts
  steps p mem := by
    obtain ⟨i, operands, found, room, apart, next⟩ := span.steps p mem
    exact ⟨i, operands, found, room, apart, fun t mem => (next t mem).elim .inl (outer t)⟩
  calls := span.calls

/-! ### Single instructions -/

theorem plain {i : Instruction} {operands : List Int} (cells : CellsAt M a (i.code :: operands))
    (count : operands.length = i.operands) (plain : i.isPlain = true) :
    Span M {a} a (a + 1 + operands.length) out [] := by
  have found := instructionAt_of_cells (Instruction.mem_all_plain plain) cells count
  have noCall : i ≠ .single .callTarget := by
    rintro rfl
    exact absurd plain (by decide)
  exact single found (Nat.le_refl _) (fun t mem =>
    .inl (Instruction.successors_plain plain a operands t mem)) (.other found noCall)

theorem simple {o : Operation} (cells : CellsAt M a [o.code]) (count : o.operands = 0)
    (noControl : o.isControl = false) : Span M {a} a (a + 1) out [] :=
  plain (i := .single o) cells count.symm (by simp [Instruction.isPlain, noControl])

/-- A jump to an address, over the cells up to the end. -/
theorem jump {t : Int} (cells : CellsAt M a [Operation.code .branch, t]) (room : a + 2 ≤ b)
    (goal : t = (b : Int) ∨ out t) : Span M {a} a b out [] := by
  have found := instructionAt_of_cells (Instruction.mem_all_single .branch) cells rfl
  refine single found room ?_ (.other found (by decide))
  simpa [Instruction.successors] using goal

/-- A test that may jump to an address. -/
theorem test {o : Operation} {t : Int} (kind : o = .branchIfZero ∨ o = .branchUnlessZero)
    (cells : CellsAt M a [o.code, t]) (goal : t = ((a + 2 : Nat) : Int) ∨ out t) :
    Span M {a} a (a + 2) out [] := by
  rcases kind with rfl | rfl
  all_goals
    have found := instructionAt_of_cells (Instruction.mem_all_single _) cells rfl
    refine single found (Nat.le_refl _) ?_ (.other found (by decide))
    simpa [Instruction.successors] using goal

theorem call {t : Int} (cells : CellsAt M a [Operation.code .callTarget, t]) :
    Span M {a} a (a + 2) out [t] := by
  have found := instructionAt_of_cells (Instruction.mem_all_single .callTarget) cells rfl
  refine single found (Nat.le_refl _) ?_ (.call found)
  simp only [Instruction.successors, List.mem_singleton]
  rintro t rfl
  exact .inl rfl

end Span

/-! ## Code that is laid out -/

/-- What the slot of an open case test holds. -/
def Waits (M : List Int) (slot : Option Nat) (t : Int) : Prop := ∃ p ∈ slot, M[p]? = some t

/-- Code between two addresses as a span. The goal of a case test that is open behind the code is
left open; the one that is open before the code lies in it or is still open. The addresses with the
property `placed` lie in the code. -/
structure Flow (M : List Int) (out placed : Int → Prop) (targets : List Int) (s : Option Nat)
    (a b : Nat) (s' : Option Nat) (S : Set Nat) : Prop where
  span : Span M S a b (fun t => out t ∨ Waits M s' t) targets
  waits : ∀ t, Waits M s t → Meets S b t ∨ Waits M s' t
  places : ∀ t, placed t → Meets S b t

namespace Flow

variable {S T : Set Nat} {a m b : Nat} {out placed out' placed' : Int → Prop}
    {targets targets' : List Int} {s s₁ s₂ : Option Nat}

/-- A span that has nothing to do with the tests of a switch. -/
theorem ofSpan (span : Span M S a b out targets) : Flow M out (fun _ => False) targets s a b s S :=
  ⟨span.widen fun _ goal => .inr (.inl goal), fun _ => .inr, fun _ => False.elim⟩

theorem append (first : Flow M out placed targets s a m s₁ S)
    (second : Flow M out placed' targets' s₁ m b s₂ T) :
    Flow M out (fun t => placed t ∨ placed' t) (targets ++ targets') s a b s₂ (S ∪ T) := by
  have right {t : Int} : Meets T b t → Meets (S ∪ T) b t := by
    rintro ⟨q, rfl, inside | rfl⟩
    · exact ⟨q, rfl, .inl (.inr inside)⟩
    · exact Span.meets_stop _ _
  have left {t : Int} : Meets S m t → Meets (S ∪ T) b t := by
    rintro ⟨q, rfl, inside | rfl⟩
    · exact ⟨q, rfl, .inl (.inl inside)⟩
    · exact right second.span.meets_start
  refine ⟨?_, fun t waiting => ?_, fun t known =>
    known.elim (fun l => left (first.places t l)) fun r =>
    right (second.places t r)⟩
  · have front : Span M S a m (fun t => out t ∨ Waits M s₁ t ∨ Waits M s₂ t) targets :=
      first.span.widen fun t goal => .inr (goal.imp_right .inl)
    have back : Span M T m b (fun t => out t ∨ Waits M s₁ t ∨ Waits M s₂ t) targets' :=
      second.span.widen fun t goal => .inr (goal.imp_right .inr)
    refine (front.append back).widen fun t goal => ?_
    rcases goal with outer | waiting | waiting
    · exact .inr (.inl outer)
    · exact (second.waits t waiting).imp right .inr
    · exact .inr (.inr waiting)
  · rcases first.waits t waiting with inside | still
    · exact .inl (left inside)
    · exact (second.waits t still).imp_left right

theorem widen (flow : Flow M out placed targets s a b s₁ S)
    (outer : ∀ t, out t → Meets S b t ∨ out' t) (same : targets' = targets)
    (places : ∀ t, placed' t → placed t) : Flow M out' placed' targets' s a b s₁ S where
  span := same ▸ flow.span.widen fun t goal =>
    goal.elim (fun outside => (outer t outside).imp_right .inl) fun waiting => .inr (.inr waiting)
  waits := flow.waits
  places t known := flow.places t (places t known)

/-- The last test of a switch is closed at the end of the switch. -/
theorem close (flow : Flow M out placed targets none a b s₁ S)
    (closed : ∀ t, Waits M s₁ t → Meets S b t) : Flow M out placed targets s a b s S where
  span := flow.span.widen fun t goal =>
    goal.elim (fun outside => .inr (.inl outside)) fun waiting => .inl (closed t waiting)
  waits _ := .inr
  places := flow.places

end Flow

/-- Laid out code ends where it starts or later. -/
theorem Lay.le {L : Links} {X : List Exit} {s s' : Option Nat} {c : Piece} {a b : Nat}
    (lay : Lay M L X s c a b s') : a ≤ b := by
  induction lay <;> omega

/-- The addresses that code leaves to: labels that it jumps to, and the exits around it. -/
def Leaves (L : Links) (X : List Exit) (c : Piece) (t : Int) : Prop :=
  (∃ id ∈ c.gotos, t = L.label id) ∨ ∃ e ∈ X, t = e.breakTo ∨ (e.isLoop = true ∧ t = e.continueTo)

/-- The addresses of the labels in the code. -/
def Places (L : Links) (labels : List Int) (t : Int) : Prop := ∃ id ∈ labels, t = L.label id

/-- A piece of code inside another one jumps where that one does. -/
def Piece.PartOf (d c : Piece) : Prop := d.gotos ⊆ c.gotos

section Parts

variable {L : Links} {X : List Exit} {c d e : Piece} {t : Int}

theorem Places.append {ls ks : List Int} (h : Places L (ls ++ ks) t) : Places L ls t ∨
    Places L ks t := by
  obtain ⟨id, mem, same⟩ := h
  exact (List.mem_append.mp mem).imp (fun l => ⟨id, l, same⟩) fun r => ⟨id, r, same⟩

theorem Leaves.ofPart (part : d.PartOf c) (h : Leaves L X d t) : Leaves L X c t :=
  h.imp_left fun ⟨id, mem, same⟩ => ⟨id, part mem, same⟩

/-- Code inside a loop or a switch leaves to its exit, or it leaves the loop or the switch. -/
theorem Leaves.ofInner {x : Exit} (part : d.PartOf c) (h : Leaves L (x :: X) d t) :
    (t = x.breakTo ∨ (x.isLoop = true ∧ t = x.continueTo)) ∨ Leaves L X c t := by
  rcases h with ⟨id, mem, same⟩ | ⟨e, mem, same⟩
  · exact .inr (.inl ⟨id, part mem, same⟩)
  · rcases List.mem_cons.mp mem with rfl | outer
    · exact .inl same
    · exact .inr (.inr ⟨e, outer, same⟩)

namespace Piece.PartOf

variable {xs ys : List Int}

theorem left (gotos : c.gotos = d.gotos ++ xs) : d.PartOf c := fun id mem => by simp [gotos, mem]

theorem right (gotos : c.gotos = xs ++ d.gotos) : d.PartOf c := fun id mem => by simp [gotos, mem]

theorem middle (gotos : c.gotos = xs ++ d.gotos ++ ys) : d.PartOf c :=
  fun id mem => by simp [gotos, mem]

theorem first (gotos : c.gotos = d.gotos ++ xs ++ ys) : d.PartOf c :=
  fun id mem => by simp [gotos, mem]

theorem same (gotos : c.gotos = d.gotos) : d.PartOf c := fun id mem => by rwa [gotos]

end Piece.PartOf

end Parts

theorem Meets.mono {S T : Set Nat} {b : Nat} {t : Int} (h : Meets S b t) (sub : S ⊆ T) :
    Meets T b t := by
  obtain ⟨q, same, there⟩ := h
  exact ⟨q, same, there.imp_left (@sub q)⟩

/-- The code of a piece as a span. -/
def FlowOf (M : List Int) (L : Links) (X : List Exit) (s : Option Nat) (c : Piece) (a b : Nat)
    (s' : Option Nat) (S : Set Nat) : Prop :=
  Flow M (Leaves L X c) (Places L c.labels) (c.callees.map L.function) s a b s' S

namespace FlowOf

variable {L : Links} {X : List Exit} {c d t y n body step v : Piece} {s s₁ s₂ s₃ : Option Nat}
    {a m k b e : Nat} {S T U : Set Nat} {out : Int → Prop}

-- the calls of a piece are those of its parts, one after the other
attribute [local simp] Piece.callees

/-- A span that places no labels. -/
theorem ofSpan (span : Span M S a b (Leaves L X c) (c.callees.map L.function))
    (noLabel : c.labels = []) : FlowOf M L X s c a b s S :=
  (Flow.ofSpan span).widen (fun _ => .inr) rfl fun t known => by simp [Places, noLabel] at known

/-- Code inside other code. -/
theorem part (flow : FlowOf M L X s d a b s₁ S)
    (part : d.PartOf c) (outer : ∀ t, Leaves L X c t → out t) :
    Flow M out (Places L d.labels) (d.callees.map L.function) s a b s₁ S :=
  flow.widen (fun t goal => .inr (outer t (goal.ofPart part))) rfl fun _ => id

/-- Code inside a loop or a switch, whose exits are goals. -/
theorem inner {x : Exit} (flow : FlowOf M L (x :: X) s d a b s₁ S) (part : d.PartOf c)
    (exit : ∀ t, t = x.breakTo ∨ (x.isLoop = true ∧ t = x.continueTo) → out t)
    (outer : ∀ t, Leaves L X c t → out t) :
    Flow M out (Places L d.labels) (d.callees.map L.function) s a b s₁ S :=
  flow.widen (fun t goal => .inr ((goal.ofInner part).elim (exit t) (outer t))) rfl fun _ => id

theorem seq (first : FlowOf M L X s c a m s₁ S) (second : FlowOf M L X s₁ d m b s₂ T) :
    FlowOf M L X s (.seq c d) a b s₂ (S ∪ T) :=
  ((first.part (c := .seq c d) (.left rfl) fun _ => id).append (second.part (.right rfl) fun _ =>
    id)).widen (fun _ => .inr) (by simp) fun _ => Places.append

theorem choose (test : FlowOf M L X s t a m s₁ S)
    (branch : CellsAt M m [Operation.code .branchIfZero, (k + 2 : Nat)])
    (yes : FlowOf M L X s₁ y (m + 2) k s₂ T)
    (across : CellsAt M k [Operation.code .branch, b]) (no : FlowOf M L X s₂ n (k + 2) b s₃ U) :
    FlowOf M L X s (.choose t y n) a b s₃ (S ∪ {m} ∪ T ∪ {k} ∪ U) := by
  have start := no.span.meets_start
  have inside : ∀ x, x = ((k + 2 : Nat) : Int) ∨ x = (b : Int) ∨ Leaves L X (.choose t y n) x →
      Meets (S ∪ {m} ∪ T ∪ {k} ∪ U) b x ∨ Leaves L X (.choose t y n) x := by
    rintro x (rfl | rfl | goal)
    · exact .inl (start.mono Set.subset_union_right)
    · exact .inl (Span.meets_stop _ _)
    · exact .inr goal
  refine (((((test.part (.first rfl) fun _ g => .inr (.inr g)).append
    (.ofSpan (.test (.inl rfl) branch (.inr (.inl rfl))))).append
    (yes.part (.middle rfl) fun _ g => .inr (.inr g))).append
    (.ofSpan (.jump across (Nat.le_refl _) (.inr (.inr (.inl rfl)))))).append
    (no.part (.right rfl) fun _ g => .inr (.inr g))).widen inside (by simp) fun x known => ?_
  rcases Places.append known with both | last
  · exact .inl (.inl ((Places.append both).imp_left .inl))
  · exact .inr last

theorem only (test : FlowOf M L X s t a m s₁ S)
    (branch : CellsAt M m [Operation.code .branchIfZero, b])
    (yes : FlowOf M L X s₁ y (m + 2) b s₂ T) : FlowOf M L X s (.only t y) a b s₂ (S ∪ {m} ∪ T) := by
  have inside : ∀ x, x = (b : Int) ∨ Leaves L X (.only t y) x →
      Meets (S ∪ {m} ∪ T) b x ∨ Leaves L X (.only t y) x := by
    rintro x (rfl | goal)
    · exact .inl (Span.meets_stop _ _)
    · exact .inr goal
  refine (((test.part (.left rfl) fun _ => .inr).append
    (.ofSpan (.test (.inl rfl) branch (.inr (.inl rfl))))).append
    (yes.part (.right rfl) fun _ => .inr)).widen inside (by simp) fun x known => ?_
  exact (Places.append known).imp_left .inl

theorem short {test last : Operation} (kind : test = .branchIfZero ∨ test = .branchUnlessZero)
    (ends : last = .logicalAnd ∨ last = .logicalOr) (left : FlowOf M L X s t a m s₁ S)
    (skip : CellsAt M m [Operation.code .duplicate, test.code, (k + 1 : Nat)])
    (right : FlowOf M L X s₁ y (m + 3) k s₂ T) (final : CellsAt M k [last.code]) :
    FlowOf M L X s (.short test last t y) a (k + 1) s₂ (S ∪ {m} ∪ {m + 1} ∪ T ∪ {k}) := by
  have listed : last.isControl = false ∧ last.operands = 0 := by
    rcases ends with rfl | rfl <;> exact ⟨rfl, rfl⟩
  have inside : ∀ x, x = ((k + 1 : Nat) : Int) ∨ Leaves L X (.short test last t y) x →
      Meets (S ∪ {m} ∪ {m + 1} ∪ T ∪ {k}) (k + 1) x ∨ Leaves L X (.short test last t y) x := by
    rintro x (rfl | goal)
    · exact .inl (Span.meets_stop _ _)
    · exact .inr goal
  have double : CellsAt M m [Operation.code .duplicate] := ⟨skip.1, trivial⟩
  refine (((((left.part (.left rfl) fun _ => .inr).append
    (.ofSpan (.simple double rfl rfl))).append
    (.ofSpan (.test kind skip.2 (.inr (.inl rfl))))).append
    (right.part (.right rfl) fun _ => .inr)).append
    (.ofSpan (.simple final listed.2 listed.1))).widen inside (by simp) fun x known => ?_
  exact .inl ((Places.append known).imp_left fun h => .inl (.inl h))

/-! ### Loops -/

theorem whileLoop
    (test : FlowOf M L (⟨true, (k + 2 : Nat), a⟩ :: X) s t a m s₁ S)
    (leave : CellsAt M m [Operation.code .branchIfZero, (k + 2 : Nat)])
    (inside : FlowOf M L (⟨true, (k + 2 : Nat), a⟩ :: X) s₁ body (m + 2) k s₂ T)
    (back : CellsAt M k [Operation.code .branch, a]) :
    FlowOf M L X s (.whileLoop t body) a (k + 2) s₂ (S ∪ {m} ∪ T ∪ {k}) := by
  have goals : ∀ x : Int, x = ((k + 2 : Nat) : Int) ∨ (true = true ∧ x = (a : Int)) →
      (x = ((k + 2 : Nat) : Int) ∨ x = (a : Int)) ∨ Leaves L X (.whileLoop t body) x :=
    fun x goal => .inl (goal.imp_right And.right)
  have whole := ((((test.inner (.left rfl) goals fun _ => .inr).append
    (.ofSpan (.test (.inl rfl) leave (.inr (.inl (.inl rfl)))))).append
    (inside.inner (.right rfl) goals fun _ => .inr)).append
    (.ofSpan (.jump back (Nat.le_refl _) (.inr (.inl (.inr rfl))))))
  refine whole.widen (fun x goal => ?_) (by simp) fun x known =>
    .inl ((Places.append known).imp_left .inl)
  rcases goal with (rfl | rfl) | outer
  · exact .inl (Span.meets_stop _ _)
  · exact .inl whole.span.meets_start
  · exact .inr outer

theorem doWhile (inside : FlowOf M L (⟨true, (k + 2 : Nat), m⟩ :: X) s body a m s₁ S)
    (test : FlowOf M L (⟨true, (k + 2 : Nat), m⟩ :: X) s₁ t m k s₂ T)
    (back : CellsAt M k [Operation.code .branchUnlessZero, a]) :
    FlowOf M L X s (.doWhile body t) a (k + 2) s₂ (S ∪ T ∪ {k}) := by
  have goals : ∀ x : Int, x = ((k + 2 : Nat) : Int) ∨ (true = true ∧ x = (m : Int)) →
      (x = ((k + 2 : Nat) : Int) ∨ x = (m : Int) ∨ x = (a : Int)) ∨
      Leaves L X (.doWhile body t) x :=
    fun x goal => .inl (goal.imp_right fun both => .inl both.2)
  have whole := ((inside.inner (.left rfl) goals fun _ => .inr).append
    (test.inner (.right rfl) goals fun _ => .inr)).append
    (.ofSpan (.test (.inr rfl) back (.inr (.inl (.inr (.inr rfl))))))
  refine whole.widen (fun x goal => ?_) (by simp) fun x known => .inl (Places.append known)
  rcases goal with (rfl | rfl | rfl) | outer
  · exact .inl (Span.meets_stop _ _)
  · exact .inl ⟨m, rfl, .inl (test.span.starts.imp .inr id)⟩
  · exact .inl whole.span.meets_start
  · exact .inr outer

theorem forLoop {l : Nat} (test : FlowOf M L (⟨true, (k + 2 : Nat), l⟩ :: X) s t a m s₁ S)
    (leave : CellsAt M m [Operation.code .branchIfZero, (k + 2 : Nat)])
    (inside : FlowOf M L (⟨true, (k + 2 : Nat), l⟩ :: X) s₁ body (m + 2) l s₂ T)
    (next : FlowOf M L (⟨true, (k + 2 : Nat), l⟩ :: X) s₂ step l k s₃ U)
    (back : CellsAt M k [Operation.code .branch, a]) :
    FlowOf M L X s (.forLoop t body step) a (k + 2) s₃ (S ∪ {m} ∪ T ∪ U ∪ {k}) := by
  have goals : ∀ x : Int, x = ((k + 2 : Nat) : Int) ∨ (true = true ∧ x = (l : Int)) →
      (x = ((k + 2 : Nat) : Int) ∨ x = (l : Int) ∨ x = (a : Int)) ∨
      Leaves L X (.forLoop t body step) x :=
    fun x goal => .inl (goal.imp_right fun both => .inl both.2)
  have whole := ((((test.inner (.first rfl) goals fun _ => .inr).append
    (.ofSpan (.test (.inl rfl) leave (.inr (.inl (.inl rfl)))))).append
    (inside.inner (.middle rfl) goals fun _ => .inr)).append
    (next.inner (.right rfl) goals fun _ => .inr)).append
    (.ofSpan (.jump back (Nat.le_refl _) (.inr (.inl (.inr (.inr rfl))))))
  refine whole.widen (fun x goal => ?_) (by simp) fun x known => ?_
  · rcases goal with (rfl | rfl | rfl) | outer
    · exact .inl (Span.meets_stop _ _)
    · exact .inl ⟨l, rfl, .inl (next.span.starts.imp .inr id)⟩
    · exact .inl whole.span.meets_start
    · exact .inr outer
  · rcases Places.append known with both | last
    · exact .inl (.inl ((Places.append both).imp_left .inl))
    · exact .inl (.inr last)

theorem endlessLoop (inside : FlowOf M L (⟨true, (k + 2 : Nat), m⟩ :: X) s body a m s₁ S)
    (next : FlowOf M L (⟨true, (k + 2 : Nat), m⟩ :: X) s₁ step m k s₂ T)
    (back : CellsAt M k [Operation.code .branch, a]) :
    FlowOf M L X s (.endlessLoop body step) a (k + 2) s₂ (S ∪ T ∪ {k}) := by
  have goals : ∀ x : Int, x = ((k + 2 : Nat) : Int) ∨ (true = true ∧ x = (m : Int)) →
      (x = ((k + 2 : Nat) : Int) ∨ x = (m : Int) ∨ x = (a : Int)) ∨
      Leaves L X (.endlessLoop body step) x :=
    fun x goal => .inl (goal.imp_right fun both => .inl both.2)
  have whole := ((inside.inner (.left rfl) goals fun _ => .inr).append
    (next.inner (.right rfl) goals fun _ => .inr)).append
    (.ofSpan (.jump back (Nat.le_refl _) (.inr (.inl (.inr (.inr rfl))))))
  refine whole.widen (fun x goal => ?_) (by simp) fun x known => .inl (Places.append known)
  rcases goal with (rfl | rfl | rfl) | outer
  · exact .inl (Span.meets_stop _ _)
  · exact .inl ⟨m, rfl, .inl (next.span.starts.imp .inr id)⟩
  · exact .inl whole.span.meets_start
  · exact .inr outer

/-! ### Switches -/

theorem switch (value : FlowOf M L (⟨false, e, 0⟩ :: X) none v a m s₁ S)
    (inside : FlowOf M L (⟨false, e, 0⟩ :: X) s₁ body m e s₂ T)
    (fails : ∀ p ∈ s₂, M[p]? = some (e : Int))
    (drop : CellsAt M e [Operation.code .branchIfZero, (e + 2 : Nat)]) :
    FlowOf M L X s (.switch v body) a (e + 2) s (S ∪ T ∪ {e}) := by
  have goals : ∀ x : Int, x = (e : Int) ∨ (false = true ∧ x = 0) → x = (e : Int) ∨
    Leaves L X (.switch v body) x :=
    fun x goal => .inl (goal.resolve_right (by simp))
  have last : Meets (S ∪ T ∪ {e}) (e + 2) e := ⟨e, rfl, .inl (.inr rfl)⟩
  have whole := ((value.inner (.left rfl) goals fun _ => .inr).append
    (inside.inner (.right rfl) goals fun _ => .inr)).append
    (.ofSpan (.test (.inl rfl) drop (.inl rfl)))
  refine (whole.close fun x waiting => ?_).widen (fun x goal => ?_) (by simp) fun x known =>
    .inl (Places.append known)
  · obtain ⟨p, mem, found⟩ := waiting
    have same := (fails p mem).symm.trans found
    cases same
    exact last
  · rcases goal with rfl | outer
    · exact .inl last
    · exact .inr outer

/-- A case from its test on. -/
theorem tested {x : Int} (double : CellsAt M a [Operation.code .duplicate])
    (value : FlowOf M L X none v (a + 1) m none S)
    (test : CellsAt M m [Operation.code .equal, Operation.code .branchIfZero])
    (slot : M[m + 2]? = some x) (inside : FlowOf M L X (some (m + 2)) body (m + 3) b s₁ T) :
    FlowOf M L X none (.caseLabel v body) a b s₁ ({a} ∪ S ∪ {m} ∪ {m + 1} ∪ T) := by
  have fork : Flow M (Leaves L X (.caseLabel v body)) (fun _ => False) [] none (m + 1) (m + 3)
    (some (m + 2)) {m + 1} := by
    refine ⟨.test (.inl rfl) ⟨test.2.1, slot, trivial⟩ (.inr (.inr ⟨m + 2, rfl, slot⟩)), ?_,
      fun _ => False.elim⟩
    rintro t ⟨p, mem, _⟩
    exact absurd mem (by simp)
  refine ((((((Flow.ofSpan (.simple double rfl rfl)).append (value.part (.left rfl) fun _ =>
    id)).append (.ofSpan (.simple ⟨test.1, trivial⟩ rfl rfl))).append fork).append
    (inside.part (.right rfl) fun _ => id))).widen (fun _ => .inr) (by simp) fun x known => ?_
  exact (Places.append known).imp_left fun first => .inl (.inl (.inr first))

theorem caseNext {p : Nat} {x : Int} (across : CellsAt M a [Operation.code .branch, (m + 3 : Nat)])
    (fails : M[p]? = some ((a + 2 : Nat) : Int))
    (double : CellsAt M (a + 2) [Operation.code .duplicate])
    (value : FlowOf M L X none v (a + 3) m none S)
    (test : CellsAt M m [Operation.code .equal, Operation.code .branchIfZero])
    (slot : M[m + 2]? = some x) (inside : FlowOf M L X (some (m + 2)) body (m + 3) b s₁ T) :
    FlowOf M L X (some p) (.caseLabel v body) a b s₁ ({a} ∪ ({a + 2} ∪ S ∪ {m} ∪ {m + 1} ∪ T)) := by
  have rest := tested double value test slot inside
  have start := inside.span.meets_start
  have crossing : Span M {a} a (a + 2) (fun t => t = ((m + 3 : Nat) : Int) ∨
    Leaves L X (.caseLabel v body) t) [] :=
    .jump across (Nat.le_refl _) (.inr (.inl rfl))
  have whole := (Flow.ofSpan (s := none) crossing).append (rest.part (.same rfl) fun _ => .inr)
  refine ⟨whole.span.widen fun t goal => ?_, fun t waiting => .inl ?_,
    fun t known => whole.places t (.inr known)⟩
  · rcases goal with (rfl | outer) | waiting
    · exact .inl (start.mono fun q there => .inr (.inr there))
    · exact .inr (.inl outer)
    · exact .inr (.inr waiting)
  · obtain ⟨q, mem, found⟩ := waiting
    cases mem
    have same := fails.symm.trans found
    cases same
    exact ⟨a + 2, rfl, .inl (.inr (.inl (.inl (.inl (.inl rfl)))))⟩

theorem defaultLabel (fails : ∀ p ∈ s, M[p]? = some (a : Int))
    (inside : FlowOf M L X none body a b s₁ S) : FlowOf M L X s (.defaultLabel body) a b s₁ S := by
  refine ⟨(inside.part (.same rfl) fun _ => id).span, fun t waiting => .inl ?_, inside.places⟩
  obtain ⟨p, mem, found⟩ := waiting
  have same := (fails p mem).symm.trans found
  cases same
  exact inside.span.meets_start

/-! ### Jumps -/

theorem drops {n : Nat} (h : DropsAt M a n) (out : Int → Prop) :
    ∃ S, Span M S a (a + 2 * n) out [] := by
  induction n generalizing a with
  | zero => exact ⟨∅, .empty a⟩
  | succ n ih =>
    obtain ⟨S, rest⟩ := ih h.2
    refine ⟨{a} ∪ S, ?_⟩
    rw [show a + 2 * (n + 1) = a + 2 + 2 * n by omega]
    exact (Span.test (.inl rfl) h.1 (.inl rfl)).append rest

end FlowOf

/-- Laid out code is a span. -/
theorem Lay.flow {L : Links} {X : List Exit} {s s' : Option Nat} {c : Piece} {a b : Nat}
    (lay : Lay M L X s c a b s') (room : b ≤ M.length) : ∃ S, FlowOf M L X s c a b s' S := by
  -- the slot of a case test lies in the memory, because the body of the case ends there
  have slot {m b : Nat} (le : m + 3 ≤ b) (room : b ≤ M.length) : ∃ x, M[m + 2]? = some x :=
    ⟨M[m + 2], List.getElem?_eq_getElem (by omega)⟩
  induction lay with
  | skip => exact ⟨∅, .ofSpan (.empty _) rfl⟩
  | plain cells count plain => exact ⟨_, .ofSpan (.plain cells count plain) rfl⟩
  | @text X s a t cells =>
    have constant : CellsAt M a [Operation.code .loadConstant, (a + 5 : Nat)] :=
      ⟨cells.1, cells.2.1, trivial⟩
    have push : Span M {a} a (a + 2) (Leaves L X (.text t)) [] := .plain constant rfl rfl
    have across : Span M {a + 2} (a + 2) (a + 5 + t.length) (Leaves L X (.text t)) [] :=
      .jump ⟨cells.2.2.1, cells.2.2.2.1, trivial⟩ (by omega) (.inl rfl)
    exact ⟨_, .ofSpan (push.append across) rfl⟩
  | call cells => exact ⟨_, .ofSpan (.call cells) rfl⟩
  | seq _ second first later =>
    obtain ⟨S, left⟩ := first (second.le.trans room)
    obtain ⟨T, right⟩ := later room
    exact ⟨_, left.seq right⟩
  | choose _ branch yes across no first second third =>
    have := yes.le
    have := no.le
    obtain ⟨S, test⟩ := first (by omega)
    obtain ⟨T, left⟩ := second (by omega)
    obtain ⟨U, right⟩ := third room
    exact ⟨_, .choose test branch left across right⟩
  | only _ branch yes first second =>
    have := yes.le
    obtain ⟨S, test⟩ := first (by omega)
    obtain ⟨T, taken⟩ := second room
    exact ⟨_, .only test branch taken⟩
  | short kind ends _ skip right final first second =>
    have := right.le
    obtain ⟨S, left⟩ := first (by omega)
    obtain ⟨T, right⟩ := second (by omega)
    exact ⟨_, .short kind ends left skip right final⟩
  | whileLoop _ leave inside back first second =>
    have := inside.le
    obtain ⟨S, test⟩ := first (by omega)
    obtain ⟨T, body⟩ := second (by omega)
    exact ⟨_, .whileLoop test leave body back⟩
  | doWhile _ test back first second =>
    have := test.le
    obtain ⟨S, body⟩ := first (by omega)
    obtain ⟨T, test⟩ := second (by omega)
    exact ⟨_, .doWhile body test back⟩
  | forLoop _ leave inside next back first second third =>
    have := inside.le
    have := next.le
    obtain ⟨S, test⟩ := first (by omega)
    obtain ⟨T, body⟩ := second (by omega)
    obtain ⟨U, step⟩ := third (by omega)
    exact ⟨_, .forLoop test leave body step back⟩
  | endlessLoop _ next back first second =>
    have := next.le
    obtain ⟨S, body⟩ := first (by omega)
    obtain ⟨T, step⟩ := second (by omega)
    exact ⟨_, .endlessLoop body step back⟩
  | switch _ inside fails drop first second =>
    have := inside.le
    obtain ⟨S, value⟩ := first (by omega)
    obtain ⟨T, body⟩ := second (by omega)
    exact ⟨_, .switch value body fails drop⟩
  | caseFirst double _ test inside first second =>
    have := inside.le
    obtain ⟨S, value⟩ := first (by omega)
    obtain ⟨T, body⟩ := second room
    obtain ⟨x, found⟩ := slot inside.le room
    exact ⟨_, .tested double value test found body⟩
  | caseNext across fails double _ test inside first second =>
    have := inside.le
    obtain ⟨S, value⟩ := first (by omega)
    obtain ⟨T, body⟩ := second room
    obtain ⟨x, found⟩ := slot inside.le room
    exact ⟨_, .caseNext across fails double value test found body⟩
  | defaultLabel fails _ ih =>
    obtain ⟨S, body⟩ := ih room
    exact ⟨S, .defaultLabel fails body⟩
  | @breaking e X s a cells =>
    have goal : Leaves L (e :: X) .breaking e.breakTo := .inr ⟨e, List.mem_cons_self, .inl rfl⟩
    exact ⟨_, .ofSpan (.jump cells (Nat.le_refl _) (.inr goal)) rfl⟩
  | @continuing switches e X s a inner loop drops cells =>
    have goal : Leaves L (switches ++ e :: X) .continuing e.continueTo :=
      .inr ⟨e, by simp, .inr ⟨loop, rfl⟩⟩
    obtain ⟨S, dropped⟩ := FlowOf.drops drops (Leaves L (switches ++ e :: X) .continuing)
    exact ⟨_, .ofSpan (dropped.append (.jump cells (Nat.le_refl _) (.inr goal))) rfl⟩
  | @goto X s name a cells =>
    have goal : Leaves L X (.goto name) (L.label name) :=
      .inl ⟨name, List.mem_singleton_self _, rfl⟩
    exact ⟨_, .ofSpan (.jump cells (Nat.le_refl _) (.inr goal)) rfl⟩
  | @label X s name body s₁ a b here _ ih =>
    obtain ⟨S, inside⟩ := ih room
    refine ⟨S, (inside.part (.same rfl) fun _ => id).span, inside.waits, ?_⟩
    rintro t ⟨k, mem, rfl⟩
    rcases List.mem_cons.mp mem with rfl | later
    · rw [here]
      exact inside.span.meets_start
    · exact inside.places _ ⟨k, later, rfl⟩

end BilingualC
