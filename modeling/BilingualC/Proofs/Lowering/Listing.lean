import Mathlib
import BilingualC.Proofs.Lowering.Closed

/-!
# Listings of memory

A memory can be read from its first instruction to its end: instructions follow each other without a
gap, and a text stands between the jump over it and the next instruction. A `Listing` is such a
reading in which all instructions have a property.

The operands that jump or call were looked at with the control flow. What remains are the
instructions that name an entry of a table, and those are the leaves of the code (`Piece.Each`). So
the memory of a program has a listing in which these have a property if the nodes of the program
emit such instructions only (`CodeAt.listing`).
-/

namespace BilingualC

variable {M : List Int} {good : Instruction → List Int → Prop} {a m b : Nat}

/-! ## Reading a memory -/

/-- The cells of a text: its address is loaded, a jump leads over it, and it has its length in
front. -/
def textCells (a : Nat) (t : String) : List Int :=
  [Operation.code .loadConstant, (a + 5 : Nat), Operation.code .branch, (a + 5 + t.length : Nat),
    t.length] ++ t.toList.map fun c => (c.toNat : Int)

/-- Between two addresses a memory reads as texts and as instructions that have a property. -/
inductive Listing (M : List Int) (good : Instruction → List Int → Prop) : Nat → Nat → Prop
  | done {a : Nat} : Listing M good a a
  | instruction {a b : Nat} {i : Instruction} {operands : List Int}
      (found : instructionAt M a = some (i, operands)) (fine : good i operands)
      (rest : Listing M good (a + 1 + operands.length) b) : Listing M good a b
  | text {a b : Nat} {t : String} (cells : CellsAt M a (textCells a t))
      (rest : Listing M good (a + 5 + t.length) b) : Listing M good a b

namespace Listing

theorem append (first : Listing M good a m) (second : Listing M good m b) : Listing M good a b := by
  induction first with
  | done => exact second
  | instruction found fine _ ih => exact .instruction found fine (ih second)
  | text cells _ ih => exact .text cells (ih second)

theorem single {i : Instruction} {operands : List Int} (listed : i ∈ Instruction.all)
    (cells : CellsAt M a (i.code :: operands)) (count : operands.length = i.operands)
    (fine : good i operands) : Listing M good a (a + 1 + operands.length) :=
  .instruction (instructionAt_of_cells listed cells count) fine .done

end Listing

/-! ## Leaves of code -/

/-- The instructions that a piece of code has by itself have a property. Jumps, tests and calls are
left out. -/
def Piece.Each (good : Instruction → List Int → Prop) : Piece → Prop
  | .plain i operands => good i operands
  | .seq c d | .only c d | .short _ _ c d | .whileLoop c d | .doWhile c d | .endlessLoop c d
  | .switch c d | .caseLabel c d => c.Each good ∧ d.Each good
  | .choose c d e | .forLoop c d e => c.Each good ∧ d.Each good ∧ e.Each good
  | .defaultLabel c | .label _ c => c.Each good
  | _ => True

section Leaves

variable (other : ∀ i operands, i.refers = false → good i operands)

include other

theorem Piece.hereditary_each : Piece.Hereditary (Piece.Each good) where
  skip := trivial
  plain := other _ _
  text _ := trivial
  seq := And.intro
  choose first second third := ⟨first, second, third⟩
  only := And.intro
  short := And.intro
  whileLoop := And.intro
  doWhile := And.intro
  forLoop first second third := ⟨first, second, third⟩
  endlessLoop := And.intro
  switch := And.intro
  caseLabel := And.intro
  defaultLabel := id
  breaking := trivial
  continuing := trivial
  goto _ := trivial
  label := id

/-! ## Laid out code -/

namespace Listing

/-- An operation that names no entry. -/
theorem op {o : Operation} {operands : List Int} (quiet : (Instruction.single o).refers = false)
    (cells : CellsAt M a (o.code :: operands))
    (count : operands.length = (Instruction.single o).operands) :
    Listing M good a (a + 1 + operands.length) :=
  single (Instruction.mem_all_single o) cells count (other _ _ quiet)

theorem test {o : Operation} {t : Int} (kind : o = .branchIfZero ∨ o = .branchUnlessZero)
    (cells : CellsAt M a [o.code, t]) : Listing M good a (a + 2) := by
  rcases kind with rfl | rfl
  · exact op other rfl cells rfl
  · exact op other rfl cells rfl

theorem jump {t : Int} (cells : CellsAt M a [Operation.code .branch, t]) :
    Listing M good a (a + 2) :=
  op other rfl cells rfl

theorem drops {n : Nat} (h : DropsAt M a n) : Listing M good a (a + 2 * n) := by
  induction n generalizing a with
  | zero => exact .done
  | succ n ih =>
    obtain ⟨first, later⟩ := h
    have rest := ih later
    rw [show a + 2 + 2 * n = a + 2 * (n + 1) by omega] at rest
    exact (test other (.inl rfl) first).append rest

/-- A case from its test on. The slot of the test lies in the memory, because the body of the case
ends there. -/
theorem tested (double : CellsAt M a [Operation.code .duplicate]) (value : Listing M good (a + 1) m)
    (test : CellsAt M m [Operation.code .equal, Operation.code .branchIfZero])
    (inside : Listing M good (m + 3) b) (room : m + 2 < M.length) : Listing M good a b := by
  have slot : M[m + 2]? = some M[m + 2] := List.getElem?_eq_getElem room
  have same : CellsAt M m [Operation.code .equal] := ⟨test.1, trivial⟩
  have compare : Listing M good m (m + 1) := op other (o := .equal) rfl same rfl
  have fork : Listing M good (m + 1) (m + 3) :=
    Listing.test other (.inl rfl) ⟨test.2.1, slot, trivial⟩
  have copy : Listing M good a (a + 1) := op other (o := .duplicate) rfl double rfl
  exact copy.append (value.append (compare.append (fork.append inside)))

end Listing

/-- Code that is laid out in a memory can be read. -/
theorem Lay.listing {L : Links} {X : List Exit}
    {s s' : Option Nat} {c : Piece} (lay : Lay M L X s c a b s')
    (room : b ≤ M.length) (each : c.Each good) : Listing M good a b := by
  -- by induction on the layout: the parts are lined up, each up to where the next one begins
  induction lay with
  | skip => exact .done
  | plain cells count plain => exact .single (Instruction.mem_all_plain plain) cells count each
  | text cells => exact .text cells .done
  | call cells => exact .op other rfl cells rfl
  | seq _ second first later =>
    have low := second.le
    exact (first (by omega) each.1).append (later room each.2)
  | choose _ branch yes across no first second third =>
    have low := yes.le
    have high := no.le
    have left := (first (by omega) each.1).append (.test other (.inl rfl) branch)
    have middle := (second (by omega) each.2.1).append (.jump other across)
    exact left.append (middle.append (third room each.2.2))
  | only _ branch yes first second =>
    have low := yes.le
    exact ((first (by omega) each.1).append (.test other (.inl rfl) branch)).append
      (second room each.2)
  | @short X s test last l r s₁ s₂ a m n kind ends _ skip right final first second =>
    have low := right.le
    -- the copy of the value and the test of it are laid as three cells
    have double : CellsAt M m [Operation.code .duplicate] := ⟨skip.1, trivial⟩
    have copy : Listing M good m (m + 1) := .op other (o := .duplicate) rfl double rfl
    have decide : Listing M good (m + 1) (m + 3) := .test other kind skip.2
    have close : Listing M good n (n + 1) := by
      rcases ends with rfl | rfl
      · exact .op other (o := .logicalAnd) rfl final rfl
      · exact .op other (o := .logicalOr) rfl final rfl
    exact (first (by omega) each.1).append
      (copy.append (decide.append ((second (by omega) each.2).append close)))
  | whileLoop _ leave inside back first second =>
    have low := inside.le
    have test := (first (by omega) each.1).append (.test other (.inl rfl) leave)
    exact test.append ((second (by omega) each.2).append (.jump other back))
  | doWhile _ test back first second =>
    have low := test.le
    exact (first (by omega) each.1).append
      ((second (by omega) each.2).append (.test other (.inr rfl) back))
  | forLoop _ leave inside next back first second third =>
    have low := inside.le
    have high := next.le
    have test := (first (by omega) each.1).append (.test other (.inl rfl) leave)
    have step := (third (by omega) each.2.2).append (.jump other back)
    exact test.append ((second (by omega) each.2.1).append step)
  | endlessLoop _ next back first second =>
    have low := next.le
    exact (first (by omega) each.1).append ((second (by omega) each.2).append (.jump other back))
  | switch _ inside _ drop first second =>
    have low := inside.le
    exact (first (by omega) each.1).append
      ((second (by omega) each.2).append (.test other (.inl rfl) drop))
  | caseFirst double _ test inside first second =>
    have low := inside.le
    exact .tested other double (first (by omega) each.1) test (second room each.2) (by omega)
  | caseNext across _ double _ test inside first second =>
    have low := inside.le
    exact (Listing.jump other across).append
      (.tested other double (first (by omega) each.1) test (second room each.2) (by omega))
  | defaultLabel _ _ ih => exact ih room each
  | breaking cells => exact .jump other cells
  | continuing _ _ drops cells => exact (Listing.drops other drops).append (.jump other cells)
  | goto cells => exact .jump other cells
  | label _ _ ih => exact ih room each

/-! ## Whole programs -/

section Program

variable {L : Links} {s : Session} {root r body : Rose} {rs : List Rose}

theorem Rose.each_codes (emits : ∀ x ∈ r.nodes, x.Emits s (Piece.Each good)) :
    (r.codes s).Each (Piece.Each good) :=
  (Piece.hereditary_each other).tree r emits

theorem FunctionAt.listing (code : FunctionAt M L s r body a b)
    (form : r.IsFunction body) (room : b ≤ M.length)
    (emits : ∀ x ∈ r.nodes, x.Emits s (Piece.Each good)) : Listing M good a b := by
  obtain ⟨m, lay, back, rfl⟩ := code.code
  have inner : ∀ x ∈ body.nodes, x.Emits s (Piece.Each good) :=
    fun x mem => emits x (Rose.mem_nodes_child (by simp [form.kids]) mem)
  have start : Listing M good a (a + 3) := .op other (o := .functionStart) rfl code.start rfl
  have last : Listing M good m (m + 1) := .op other (o := .returnVoid) rfl back rfl
  exact start.append
    ((lay.listing other (by omega) (Rose.each_codes other inner).statement).append last)

theorem PartsAt.listing (parts : PartsAt M L s rs a b) (room : b ≤ M.length)
    (emits : ∀ r ∈ rs, ∀ x ∈ r.nodes, x.Emits s (Piece.Each good)) :
    Listing M good a b ∧ a ≤ b := by
  induction parts with
  | nil => exact ⟨.done, le_refl _⟩
  | declaration _ code _ ih =>
    obtain ⟨first, later⟩ := List.forall_mem_cons.mp emits
    obtain ⟨rest, le⟩ := ih room later
    obtain ⟨label, lay⟩ := code
    have low := lay.le
    exact ⟨(lay.listing other (by omega) (Rose.each_codes other first).statement).append rest,
      by omega⟩
  | function form code _ _ ih =>
    obtain ⟨first, later⟩ := List.forall_mem_cons.mp emits
    obtain ⟨rest, le⟩ := ih room later
    obtain ⟨m, lay, back, same⟩ := code.code
    have low := lay.le
    exact ⟨(code.listing other form (by omega) first).append rest, by omega⟩

/-- The memory of a program can be read to its end. -/
theorem CodeAt.listing {stop : Nat} (code : CodeAt M L s root stop)
    (emits : ∀ r ∈ root.children, ∀ x ∈ r.nodes, x.Emits s (Piece.Each good)) :
    Listing M good Image.codeStart M.length := by
  have size := code.size
  obtain ⟨first, second, third, fourth, -⟩ := code.last
  have opened : CellsAt M stop [Operation.code .callStart] := ⟨first, trivial⟩
  have called :
      CellsAt M (stop + 1) [Operation.code .callTarget, L.function (s.displacementOf s.main)] :=
    ⟨second, third, trivial⟩
  have stopped : CellsAt M (stop + 3) [Operation.code .stop] := ⟨fourth, trivial⟩
  have start : Listing M good stop (stop + 1) := .op other (o := .callStart) rfl opened rfl
  have call : Listing M good (stop + 1) (stop + 3) := .op other (o := .callTarget) rfl called rfl
  have ending : Listing M good (stop + 3) (stop + 4) := .op other (o := .stop) rfl stopped rfl
  rw [size]
  exact (code.parts.listing other (by omega) emits).1.append (start.append (call.append ending))

end Program

end Leaves

end BilingualC
