import Mathlib
import BilingualC.Proofs.Lowering.Effects

/-!
# Pieces of code stand in the finished memory

`lands`: a proper piece of code that is appended to a tidy state leaves a tidy state, and every
finished memory that fits the state after it holds the piece where it was appended.

The proof goes along the piece. For every form of control flow there is one lemma that takes the
parts as given, so the induction only puts them together.
-/

namespace BilingualC

open Lowering

namespace Lowering

variable {g : Lowering} {held : List Nat} {M : List Int} {X : List Exit} {L : Links}

/-! ## Closing frames -/

theorem neat_loop : JumpFrame.loop.Neat := ⟨rfl, fun _ => rfl, fun _ => rfl⟩
theorem neat_switch : JumpFrame.switch.Neat := ⟨rfl, fun _ => rfl, fun _ => rfl⟩

theorem top_of_frames {f : JumpFrame} {rest : List JumpFrame} (frames : g.frames = f :: rest) :
    g.top = f := by
  rw [top, frames, List.headD_cons]

theorem frames_of_shape {kind : Bool} {kinds : List Bool} (shape : g.shape = kind :: kinds) :
    ∃ f rest, g.frames = f :: rest ∧ f.isLoop = kind := by
  cases frames : g.frames with
  | nil => simp [Lowering.shape, frames] at shape
  | cons f rest =>
    simp only [Lowering.shape, frames, List.map_cons, List.cons.injEq] at shape
    exact ⟨f, rest, rfl, shape.1⟩

theorem frames_ne_nil {kind : Bool} {kinds : List Bool} (shape : g.shape = kind :: kinds) :
    g.frames ≠ [] := by
  obtain ⟨f, rest, frames, _⟩ := frames_of_shape shape
  rw [frames]
  exact List.cons_ne_nil _ _

@[simp] theorem here_testLoop : g.testLoop.here = g.here + 2 := here_fork _
@[simp] theorem shape_testLoop : g.testLoop.shape = g.shape := by
  rw [testLoop, shape_breakAt, shape_fork]
@[simp] theorem tests_testLoop : g.testLoop.tests = g.tests := by
  rw [testLoop, tests_breakAt, tests_fork]

theorem Tidy.testLoop (tidy : g.Tidy held) (some : g.frames ≠ []) : g.testLoop.Tidy held :=
  (tidy.fork _).breakAt some

theorem Fits.testLoop {e : Exit} (tidy : g.Tidy held) (some : g.frames ≠ [])
    (fits : Fits M (e :: X) L g.testLoop held) :
    Fits M (e :: X) L g held ∧ CellsAt M g.here [Operation.code .branchIfZero, e.breakTo] := by
  obtain ⟨forked, out, Y, same, leave⟩ := Fits.breakAt fits some
  cases same
  obtain ⟨before, op⟩ := forked.fork tidy
  exact ⟨before, op, leave, trivial⟩

@[simp] theorem here_settle (target : Nat) : (g.settle target).here = g.here := here_fill _ _

@[simp] theorem shape_settle (target : Nat) : (g.settle target).shape = g.shape :=
  map_changeFirst fun _ => rfl

@[simp] theorem tests_settle (target : Nat) : (g.settle target).tests = g.tests :=
  caseSlots_changeFirst fun _ => rfl

theorem frames_settle {f : JumpFrame} {rest : List JumpFrame} (frames : g.frames = f :: rest)
    (target : Nat) : (g.settle target).frames = { f with continues := [] } :: rest := by
  rw [settle, frames_fill, forgetContinues, frames_withFrames, frames, changeFirst_here rfl]

theorem forget_perm {f : JumpFrame} {rest : List JumpFrame} (frames : g.frames = f :: rest) :
    (g.forgetContinues.frames.flatMap JumpFrame.slots ++ (f.continues ++ held)).Perm
      (g.frames.flatMap JumpFrame.slots ++ held) := by
  rw [forgetContinues, frames_withFrames, frames, changeFirst_here rfl, List.perm_iff_count]
  intro p
  simp only [List.flatMap_cons, JumpFrame.slots, List.append_nil, List.count_append]
  omega

theorem Tidy.forget {f : JumpFrame} {rest : List JumpFrame} (tidy : g.Tidy held)
    (frames : g.frames = f :: rest) : g.forgetContinues.Tidy (f.continues ++ held) :=
  tidy.moveFrames (forget_perm frames)
    (neat_changeFirst tidy.neat fun _ _ neat => ⟨neat.falls, neat.loop, fun _ => rfl⟩)

theorem Tidy.settle {f : JumpFrame} {rest : List JumpFrame} (tidy : g.Tidy held)
    (frames : g.frames = f :: rest) (target : Nat) : (g.settle target).Tidy held := by
  rw [Lowering.settle, top_of_frames frames]
  exact (tidy.forget frames).fill _

theorem Fits.settle {f : JumpFrame} {rest : List JumpFrame}
    {e : Exit} {target : Nat} (tidy : g.Tidy held)
    (frames : g.frames = f :: rest) (fits : Fits M (e :: X) L (g.settle target) held)
    (goal : e.continueTo = target) : Fits M (e :: X) L g held := by
  have exits := fits.exits
  rw [frames_settle frames] at exits
  rw [Lowering.settle, top_of_frames frames] at fits
  obtain ⟨before, filled⟩ := fits.fill (tidy.forget frames)
  refine before.moveFrames (forget_perm frames) ?_
  rw [frames]
  cases exits with
  | cons head tail => exact .cons ⟨head.isLoop, head.breaks, by rw [goal]; exact filled⟩ tail

@[simp] theorem here_closeLoop (op : Operation) (start : Nat) :
    (g.closeLoop op start).here = g.here + 2 := by
  rw [closeLoop, here_fill, here_push]
  rfl

theorem slots_loop {f : JumpFrame} (neat : f.Neat) (loop : f.isLoop = true)
    (none : f.continues = []) : f.slots = f.breaks := by
  simp [JumpFrame.slots, none, neat.loop loop]

theorem Tidy.closeLoop {f : JumpFrame} {rest : List JumpFrame}
    (tidy : g.Tidy held) (frames : g.frames = f :: rest)
    (loop : f.isLoop = true) (none : f.continues = []) (op : Operation) (start : Nat) :
    (g.closeLoop op start).Tidy held := by
  have left := tidy.leave frames
  rw [slots_loop (tidy.neat f (by simp [frames])) loop none] at left
  rw [Lowering.closeLoop, top_of_frames frames]
  exact (left.push _).fill _

theorem Fits.closeLoop {f : JumpFrame} {rest : List JumpFrame}
    {op : Operation} {start : Nat} (tidy : g.Tidy held)
    (frames : g.frames = f :: rest) (loop : f.isLoop = true) (none : f.continues = [])
    (fits : Fits M X L (g.closeLoop op start) held) (target : Int) :
    Fits M (⟨true, (g.here + 2 : Nat), target⟩ :: X) L g held ∧
    CellsAt M g.here [op.code, start] := by
  have slots := slots_loop (tidy.neat f (by simp [frames])) loop none
  have left := tidy.leave frames
  rw [slots] at left
  rw [Lowering.closeLoop, top_of_frames frames] at fits
  obtain ⟨pushed, filled⟩ := fits.fill (left.push _)
  obtain ⟨before, cells⟩ := pushed.push left
  rw [← slots] at before
  exact ⟨before.leave frames ⟨loop.symm, filled, by simp [none]⟩, cells⟩

theorem tests_closeLoop {f : JumpFrame} {rest : List JumpFrame} (frames : g.frames = f :: rest)
    (loop : f.isLoop = true) (op : Operation) (start : Nat) :
    (g.closeLoop op start).tests = g.tests := by
  rw [closeLoop, tests_fill, tests_push, tests_leave frames, loop, if_pos rfl]

@[simp] theorem shape_closeLoop (op : Operation) (start : Nat) :
    (g.closeLoop op start).shape = g.shape.tail := by
  rw [closeLoop, shape_fill, shape_push, shape_leave]

@[simp] theorem here_closeSwitch : g.closeSwitch.here = g.here + 2 := by
  rw [closeSwitch, here_push, here_fill]
  rfl

@[simp] theorem shape_closeSwitch : g.closeSwitch.shape = g.shape.tail := by
  rw [closeSwitch, shape_push, shape_fill, shape_leave]

theorem tests_closeSwitch {f : JumpFrame} {rest : List JumpFrame} (frames : g.frames = f :: rest)
    (switch : f.isLoop = false) : g.closeSwitch.tests = g.tests.tail := by
  rw [closeSwitch, tests_push, tests_fill, tests_leave frames, switch, if_neg (by decide)]

theorem slots_switch_perm {f : JumpFrame} (neat : f.Neat)
    (switch : f.isLoop = false) (held : List Nat) :
    (f.slots ++ held).Perm (f.caseSlot.toList ++ f.fallThrough ++ f.breaks ++ held) := by
  rw [List.perm_iff_count]
  intro p
  simp only [JumpFrame.slots, neat.switch switch, neat.falls, List.append_nil, List.count_append]
  omega

theorem Tidy.closeSwitch {f : JumpFrame} {rest : List JumpFrame} (tidy : g.Tidy held)
    (frames : g.frames = f :: rest) (switch : f.isLoop = false) : g.closeSwitch.Tidy held := by
  have left :=
    (tidy.leave frames).perm (slots_switch_perm (tidy.neat f (by simp [frames])) switch held)
  rw [Lowering.closeSwitch, top_of_frames frames]
  exact (left.fill _).push _

theorem Fits.closeSwitch {f : JumpFrame} {rest : List JumpFrame} (tidy : g.Tidy held)
    (frames : g.frames = f :: rest) (switch : f.isLoop = false)
    (fits : Fits M X L g.closeSwitch held) :
    Fits M (⟨false, g.here, 0⟩ :: X) L g held ∧ (∀ p ∈ f.caseSlot, M[p]? = some (g.here : Int)) ∧
    CellsAt M g.here [Operation.code .branchIfZero, (g.here + 2 : Nat)] := by
  have neat := tidy.neat f (by simp [frames])
  have order := slots_switch_perm neat switch held
  have left := (tidy.leave frames).perm order
  rw [Lowering.closeSwitch, top_of_frames frames] at fits
  obtain ⟨filled, cells⟩ := fits.push (left.fill _)
  obtain ⟨before, targets⟩ := filled.fill left
  have outside := before.perm order.symm
  rw [here_fill] at cells
  refine ⟨outside.leave frames ⟨switch.symm, fun p mem => targets p (by simp [mem]),
    by simp [neat.switch switch]⟩, fun p mem => targets p ?_, cells⟩
  simp [Option.mem_def.mp mem]

/-! ## Cases -/

theorem fallThrough_eq (tidy : g.Tidy held) : g.fallThrough = [] := by
  rw [fallThrough]
  cases found : g.frames.find? isSwitch with
  | none => rfl
  | some f => exact (tidy.neat f (List.mem_of_find?_eq_some found)).falls

theorem inSwitch_of_shape {h : Lowering} (inside : g.InSwitch) (shape : h.shape = g.shape) :
    h.InSwitch := by
  rw [inSwitch_iff] at inside ⊢
  rwa [shape]

theorem caseSlot_setCase {slot : Option Nat} (inside : g.InSwitch) :
    (g.setCase slot).caseSlot = slot := by
  obtain ⟨old, rest, tests⟩ := tests_ne_nil inside
  rw [caseSlot_eq, tests_setCase tests]
  rfl

theorem tail_tests_setCase (slot : Option Nat) : (g.setCase slot).tests.tail = g.tests.tail := by
  rw [tests, tests, setCase, frames_withFrames, caseSlots_setCase]
  cases caseSlots g.frames <;> rfl

@[simp] theorem shape_openCase : g.openCase.shape = g.shape := by
  rw [openCase]
  split
  · rfl
  · rw [shape_land, shape_setCase, shape_fork]

theorem tail_tests_openCase : g.openCase.tests.tail = g.tests.tail := by
  rw [openCase]
  split
  · rfl
  · rw [tests_land, tail_tests_setCase, tests_fork]

theorem here_openCase {failed : Nat} (slot : g.caseSlot = some failed) :
    g.openCase.here = g.here + 2 := by
  simp only [openCase, slot]
  exact (here_land _ _).trans (here_fork _)

theorem caseSlot_openCase (inside : g.InSwitch) : g.openCase.caseSlot = none := by
  rw [openCase]
  cases slot : g.caseSlot with
  | none => exact slot
  | some failed => exact caseSlot_setCase (g := g.fork _) inside

theorem Tidy.openCase (tidy : g.Tidy held) (inside : g.InSwitch) :
    g.openCase.Tidy (g.caseJumps ++ held) := by
  rw [Lowering.openCase, caseJumps, fallThrough_eq tidy]
  cases slot : g.caseSlot with
  | none => exact tidy
  | some failed =>
    have moved := (tidy.fork .branch).setCase none inside
    rw [caseSlot_fork, slot] at moved
    exact moved.land _

theorem Fits.openCase (tidy : g.Tidy held) (inside : g.InSwitch)
    (fits : Fits M X L g.openCase (g.caseJumps ++ held)) :
    Fits M X L g held ∧ ∀ failed ∈ g.caseSlot, M[g.here]? = some (Operation.code .branch) ∧
    M[failed]? = some ((g.here + 2 : Nat) : Int) := by
  rw [Lowering.openCase, caseJumps, fallThrough_eq tidy] at fits
  cases slot : g.caseSlot with
  | none =>
    rw [slot] at fits
    exact ⟨fits, by simp⟩
  | some failed =>
    rw [slot] at fits
    have moved := (tidy.fork .branch).setCase none inside
    rw [caseSlot_fork, slot] at moved
    obtain ⟨before, filled⟩ := Fits.land moved fits
    have taken : Fits M X L (g.fork .branch) ((g.here + 1) :: held) :=
      Fits.setCase none (by rw [caseSlot_fork, slot]; exact before) inside
    obtain ⟨first, op⟩ := taken.fork tidy
    refine ⟨first, fun p mem => ?_⟩
    cases mem
    exact ⟨op, filled⟩

@[simp] theorem shape_closeCase (jumps : List Nat) : (g.closeCase jumps).shape = g.shape := by
  rw [closeCase, shape_setCase, shape_fill, shape_push]

@[simp] theorem here_closeCase (jumps : List Nat) : (g.closeCase jumps).here = g.here + 3 := by
  show ((g.push _).fill jumps _).here = _
  rw [here_fill, here_push]
  rfl

theorem tail_tests_closeCase (jumps : List Nat) :
    (g.closeCase jumps).tests.tail = g.tests.tail := by
  rw [closeCase, tail_tests_setCase, tests_fill, tests_push]

theorem caseSlot_closeCase (inside : g.InSwitch) (jumps : List Nat) :
    (g.closeCase jumps).caseSlot = some (g.here + 2) :=
  caseSlot_setCase (g := (g.push _).fill _ _) inside

theorem Tidy.testCase {jumps : List Nat} (tidy : g.Tidy (jumps ++ held)) :
    (g.push [Operation.code .equal, Operation.code .branchIfZero, 0]).Tidy
    (jumps ++ (g.here + 2) :: held) :=
  (tidy.reserve [Operation.code .equal, Operation.code .branchIfZero]).perm List.perm_middle.symm

theorem Tidy.closeCase {jumps : List Nat} (tidy : g.Tidy (jumps ++ held)) (inside : g.InSwitch)
    (none : g.caseSlot = none) : (g.closeCase jumps).Tidy held := by
  have filled := tidy.testCase.fill ((g.here + 3 : Nat) : Int)
  have set := Tidy.setCase (some (g.here + 2)) filled inside
  rw [caseSlot_fill, caseSlot_push, none] at set
  exact set

theorem Fits.closeCase {jumps : List Nat} (tidy : g.Tidy (jumps ++ held)) (inside : g.InSwitch)
    (none : g.caseSlot = none) (fits : Fits M X L (g.closeCase jumps) held) :
    Fits M X L g (jumps ++ held) ∧
    CellsAt M g.here [Operation.code .equal, Operation.code .branchIfZero] ∧
    ∀ p ∈ jumps, M[p]? = some ((g.here + 3 : Nat) : Int) := by
  have turned := tidy.testCase
  rw [show held = g.caseSlot.toList ++ held by rw [none]; rfl, Lowering.closeCase] at fits
  have filled := Fits.setCase (some (g.here + 2)) fits inside
  obtain ⟨tested, targets⟩ := filled.fill turned
  have reserved : Fits M X L (g.push ([Operation.code .equal, Operation.code .branchIfZero] ++ [0]))
      ((g.here + 2) :: (jumps ++ held)) := tested.perm List.perm_middle
  obtain ⟨before, cells⟩ := reserved.reserve tidy
  exact ⟨before, cells, targets⟩

/-! ## Dropping the values of switches -/

@[simp] theorem here_dropAll (n : Nat) : (dropAll n g).here = g.here + 2 * n := by
  induction n generalizing g with
  | zero => rfl
  | succ n ih =>
    rw [dropAll, ih, here_push]
    simp only [List.length_cons, List.length_nil]
    omega

@[simp] theorem frames_dropAll (n : Nat) : (dropAll n g).frames = g.frames := by
  induction n generalizing g with
  | zero => rfl
  | succ n ih => rw [dropAll, ih, frames_push]

theorem Tidy.dropAll (tidy : g.Tidy held) (n : Nat) : (Lowering.dropAll n g).Tidy held := by
  induction n generalizing g with
  | zero => exact tidy
  | succ n ih => exact ih (tidy.push _)

theorem Fits.dropAll {n : Nat} (tidy : g.Tidy held)
    (fits : Fits M X L (Lowering.dropAll n g) held) : Fits M X L g held ∧ DropsAt M g.here n := by
  induction n generalizing g with
  | zero => exact ⟨fits, trivial⟩
  | succ n ih =>
    obtain ⟨after, drops⟩ := ih (tidy.push _) fits
    obtain ⟨before, cells⟩ := after.push tidy
    exact ⟨before, cells, by simpa using drops⟩

end Lowering

/-! ## Appending a piece of code -/

/-- What appending a piece of code comes to: the frames keep their kinds, only the innermost switch
has another case test, the state stays tidy, and a finished memory that fits it holds the piece. -/
structure Lands (c : Piece) (g : Lowering) : Prop where
  shape : (c.put g).shape = g.shape
  tests : (c.put g).tests.tail = g.tests.tail
  tidy : ∀ {held}, g.Tidy held → (c.put g).Tidy held
  lays : ∀ {held M X L}, g.Tidy held → Fits M X L (c.put g) held →
    Fits M X L g held ∧ Lay M L X g.caseSlot c g.here (c.put g).here (c.put g).caseSlot

namespace Lands

open Piece

variable {g : Lowering} {c d t y n body step v : Piece}

theorem skip : Lands .skip g where
  shape := rfl
  tests := rfl
  tidy := id
  lays _ fits := ⟨fits, .skip⟩

theorem plain {i : Instruction} {operands : List Int} (count : operands.length = i.operands)
    (plain : i.isPlain = true) : Lands (.plain i operands) g where
  shape := rfl
  tests := rfl
  tidy tidy := tidy.push _
  lays {held M X L} tidy fits := by
    obtain ⟨before, cells⟩ := Fits.push tidy fits
    refine ⟨before, ?_⟩
    have stop : ((Piece.plain i operands).put g).here = g.here + 1 + operands.length := by
      rw [put, here_push, List.length_cons]
      omega
    rw [stop]
    exact .plain cells count plain

theorem length_textCells (a : Nat) (t : String) : (textCells a t).length = 5 + t.length := by
  rw [textCells, List.length_append, List.length_map]
  rfl

theorem text {s : String} : Lands (.text s) g where
  shape := rfl
  tests := rfl
  tidy tidy := tidy.push _
  lays {held M X L} tidy fits := by
    obtain ⟨before, cells⟩ := Fits.push tidy fits
    refine ⟨before, ?_⟩
    have stop : ((Piece.text s).put g).here = g.here + 5 + s.length := by
      rw [put, here_push, length_textCells]
      omega
    rw [stop]
    exact .text cells

theorem call {number : Int} : Lands (.call number) g where
  shape := by rw [put, Lowering.shape, frames_callTo, Lowering.shape]
  tests := by rw [put, Lowering.tests, frames_callTo, Lowering.tests]
  tidy tidy := tidy.callTo _
  lays {held M X L} tidy fits := by
    obtain ⟨before, cells⟩ := Fits.callTo tidy fits
    refine ⟨before, ?_⟩
    have same : ((Piece.call number).put g).caseSlot = g.caseSlot := by
      rw [put, Lowering.caseSlot, frames_callTo, Lowering.caseSlot]
    rw [same, put, here_callTo]
    exact .call cells

theorem seq (first : Lands c g) (second : Lands d (c.put g)) : Lands (.seq c d) g where
  shape := second.shape.trans first.shape
  tests := second.tests.trans first.tests
  tidy tidy := second.tidy (first.tidy tidy)
  lays tidy fits := by
    obtain ⟨between, right⟩ := second.lays (first.tidy tidy) fits
    obtain ⟨before, left⟩ := first.lays tidy between
    exact ⟨before, .seq left right⟩

theorem choose (test : Lands t g) (yes : Lands y ((t.put g).fork .branchIfZero))
    (no : Lands n (((y.put ((t.put g).fork .branchIfZero)).fork .branch).land ((t.put g).here + 1)
      ((y.put ((t.put g).fork .branchIfZero)).here + 2))) : Lands (.choose t y n) g where
  shape := no.shape.trans (yes.shape.trans test.shape)
  tests := no.tests.trans (yes.tests.trans test.tests)
  tidy tidy := by
    have taken := (yes.tidy ((test.tidy tidy).fork _)).fork .branch
    exact (no.tidy ((taken.perm (.swap _ _ _)).land _)).land _
  lays tidy fits := by
    have forked := (test.tidy tidy).fork .branchIfZero
    have taken := ((yes.tidy forked).fork .branch).perm (.swap _ _ _)
    obtain ⟨after, stop⟩ := Fits.land (no.tidy (taken.land _)) fits
    obtain ⟨landed, right⟩ := no.lays (taken.land _) after
    obtain ⟨across, other⟩ := landed.land taken
    obtain ⟨chosen, jump⟩ := (across.perm (.swap _ _ _)).fork (yes.tidy forked)
    obtain ⟨tested, left⟩ := yes.lays forked chosen
    obtain ⟨asked, branch⟩ := tested.fork (test.tidy tidy)
    obtain ⟨before, first⟩ := test.lays tidy asked
    rw [here_land, here_fork] at right
    rw [here_fork] at left
    have both := Lay.choose first ⟨branch, other, trivial⟩ left ⟨jump, stop, trivial⟩ right
    exact ⟨before, by rw [put, here_land]; exact both⟩

theorem only (test : Lands t g) (yes : Lands y ((t.put g).fork .branchIfZero)) :
    Lands (.only t y) g where
  shape := yes.shape.trans test.shape
  tests := yes.tests.trans test.tests
  tidy tidy := (yes.tidy ((test.tidy tidy).fork _)).land _
  lays tidy fits := by
    have forked := (test.tidy tidy).fork .branchIfZero
    obtain ⟨after, stop⟩ := Fits.land (yes.tidy forked) fits
    obtain ⟨tested, left⟩ := yes.lays forked after
    obtain ⟨asked, branch⟩ := tested.fork (test.tidy tidy)
    obtain ⟨before, first⟩ := test.lays tidy asked
    rw [here_fork] at left
    have both := Lay.only first ⟨branch, stop, trivial⟩ left
    exact ⟨before, by rw [put, here_land]; exact both⟩

theorem short {op last : Operation} {l r : Piece}
    (kind : op = .branchIfZero ∨ op = .branchUnlessZero)
    (ends : last = .logicalAnd ∨ last = .logicalOr) (left : Lands l g)
    (right : Lands r (((l.put g).push [Operation.code .duplicate]).fork op)) :
    Lands (.short op last l r) g := by
  have forked {held : List Nat} (tidy : g.Tidy held) :
      (((l.put g).push [Operation.code .duplicate]).fork op).Tidy (((l.put g).here + 2) :: held) :=
      by
    have slot := ((left.tidy tidy).push [Operation.code .duplicate]).fork op
    rwa [here_push] at slot
  refine ⟨right.shape.trans left.shape, right.tests.trans left.tests,
    fun tidy => ((right.tidy (forked tidy)).push _).land _, fun tidy fits => ?_⟩
  have doubled := (left.tidy tidy).push [Operation.code .duplicate]
  obtain ⟨after, stop⟩ := Fits.land ((right.tidy (forked tidy)).push _) fits
  obtain ⟨ended, final⟩ := after.push (right.tidy (forked tidy))
  obtain ⟨tested, second⟩ := right.lays (forked tidy) ended
  obtain ⟨asked, branch⟩ := Fits.fork doubled (by rw [here_push]; exact tested)
  obtain ⟨plain, double⟩ := asked.push (left.tidy tidy)
  obtain ⟨before, first⟩ := left.lays tidy plain
  rw [here_fork, here_push] at second
  rw [here_push] at branch
  have both := Lay.short kind ends first ⟨double.1, branch, stop, trivial⟩ second final
  exact ⟨before, by rw [put, here_land, here_push]; exact both⟩

/-! ### Loops -/

section LoopEnd

variable {done : Lowering} {kinds : List Bool} {target start : Nat} {op : Operation}

/-- At the end of a loop its frame has no slots that go on with it. -/
theorem frames_end (shape : done.shape = true :: kinds) (flat : step.Flat) (target : Nat) :
    ∃ f rest, (step.put (done.settle target)).frames = f :: rest ∧ f.isLoop = true ∧
    f.continues = [] := by
  obtain ⟨f, rest, frames, loop⟩ := frames_of_shape shape
  exact ⟨_, rest, (flat.frames_put _).trans (frames_settle frames target), loop, rfl⟩

theorem tidy_end {held : List Nat} (shape : done.shape = true :: kinds) (flat : step.Flat)
    (next : Lands step (done.settle target)) (tidy : done.Tidy held) :
    ((step.put (done.settle target)).closeLoop op start).Tidy held := by
  obtain ⟨_, _, frames, _⟩ := frames_of_shape shape
  obtain ⟨_, _, stepped, loop, none⟩ := frames_end shape flat target
  exact (next.tidy (tidy.settle frames target)).closeLoop stepped loop none op start

theorem tests_end (shape : done.shape = true :: kinds) (flat : step.Flat) :
    ((step.put (done.settle target)).closeLoop op start).tests = done.tests := by
  obtain ⟨_, _, stepped, loop, _⟩ := frames_end shape flat target
  rw [tests_closeLoop stepped loop, Lowering.tests, flat.frames_put]
  exact tests_settle target

/-- The last part of a loop: it is reached by the jumps that go on with the loop, and control goes
back from its end. -/
theorem lays_end {held : List Nat} {M : List Int} {X : List Exit} {L : Links}
    (shape : done.shape = true :: kinds) (flat : step.Flat) (next : Lands step (done.settle target))
    (tidy : done.Tidy held)
    (fits : Fits M X L ((step.put (done.settle target)).closeLoop op start) held) :
    Fits M (⟨true, ((step.put (done.settle target)).here + 2 : Nat), target⟩ :: X) L done held ∧
    Lay M L (⟨true, ((step.put (done.settle target)).here + 2 : Nat), target⟩ :: X)
    done.caseSlot step done.here (step.put (done.settle target)).here
    ((step.put (done.settle target)).closeLoop op start).caseSlot ∧
    CellsAt M (step.put (done.settle target)).here [op.code, start] := by
  obtain ⟨_, _, frames, _⟩ := frames_of_shape shape
  obtain ⟨_, _, stepped, loop, none⟩ := frames_end shape flat target
  have settled := tidy.settle frames target
  obtain ⟨open_, back⟩ := fits.closeLoop (next.tidy settled) stepped loop none target
  obtain ⟨before, code⟩ := next.lays settled open_
  have slot : (done.settle target).caseSlot = done.caseSlot := by
    rw [caseSlot_eq, tests_settle, caseSlot_eq]
  have slot' : ((step.put (done.settle target)).closeLoop op start).caseSlot =
      (step.put (done.settle target)).caseSlot := by
    rw [caseSlot_eq, tests_closeLoop stepped loop, caseSlot_eq]
  rw [slot, here_settle, ← slot'] at code
  exact ⟨before.settle tidy frames rfl, code, back⟩

end LoopEnd

theorem caseSlot_of_tests {h k : Lowering} (same : h.tests = k.tests) :
    h.caseSlot = k.caseSlot := by
  rw [caseSlot_eq, same, caseSlot_eq]

theorem tests_flat (flat : t.Flat) (g : Lowering) : (t.put g).tests = g.tests := by
  rw [Lowering.tests, flat.frames_put, Lowering.tests]

theorem tail_tests_testLoop : g.testLoop.tests.tail = g.tests.tail := by rw [tests_testLoop]

theorem whileLoop (test : Lands t (g.enter .loop))
    (inside : Lands body (t.put (g.enter .loop)).testLoop) : Lands (.whileLoop t body) g := by
  have shape := inside.shape.trans (shape_testLoop.trans test.shape)
  have opened := frames_ne_nil test.shape
  have entered {held : List Nat} (tidy : g.Tidy held) := test.tidy (tidy.enter rfl neat_loop)
  have done {held : List Nat} (tidy : g.Tidy held) := inside.tidy ((entered tidy).testLoop opened)
  have nothing : Piece.skip.Flat := trivial
  have tests :
    ((Piece.whileLoop t body).put g).tests = (body.put (t.put (g.enter .loop)).testLoop).tests := by
    rw [put_whileLoop, tests_end shape nothing]
  refine ⟨by rw [put, shape_closeLoop, shape_settle, shape]; rfl, ?_, ?_, ?_⟩
  · rw [tests, inside.tests, tests_testLoop, test.tests]
    rfl
  · intro held tidy
    rw [put_whileLoop]
    exact tidy_end shape nothing .skip (done tidy)
  · intro held M X L tidy fits
    rw [put_whileLoop] at fits
    obtain ⟨after, _, back⟩ := lays_end shape nothing .skip (done tidy) fits
    rw [put_skip, here_settle] at after back
    obtain ⟨tested, second⟩ := inside.lays ((entered tidy).testLoop opened) after
    obtain ⟨asked, leave⟩ := tested.testLoop (entered tidy) opened
    obtain ⟨before, first⟩ := test.lays (tidy.enter rfl neat_loop) asked
    rw [caseSlot_of_tests tests_testLoop, here_testLoop] at second
    rw [caseSlot_of_tests tests, put, here_closeLoop, here_settle]
    exact ⟨before.enter rfl, .whileLoop first leave second back⟩

theorem doWhile (flat : t.Flat) (inside : Lands body (g.enter .loop))
    (test : Lands t ((body.put (g.enter .loop)).settle (body.put (g.enter .loop)).here)) :
    Lands (.doWhile body t) g := by
  have shape := inside.shape
  have entered {held : List Nat} (tidy : g.Tidy held) := tidy.enter rfl neat_loop
  refine ⟨by rw [put, shape_closeLoop, test.shape, shape_settle, shape]; rfl,
    (congrArg List.tail (tests_end shape flat)).trans inside.tests,
    fun tidy => tidy_end shape flat test (inside.tidy (entered tidy)), fun tidy fits => ?_⟩
  obtain ⟨after, second, back⟩ := lays_end shape flat test (inside.tidy (entered tidy)) fits
  obtain ⟨before, first⟩ := inside.lays (entered tidy) after
  exact ⟨before.enter rfl, by rw [put, here_closeLoop]; exact .doWhile first second back⟩

theorem forLoop (flat : step.Flat) (test : Lands t (g.enter .loop))
    (inside : Lands body (t.put (g.enter .loop)).testLoop)
    (next : Lands step ((body.put (t.put (g.enter .loop)).testLoop).settle
      (body.put (t.put (g.enter .loop)).testLoop).here)) : Lands (.forLoop t body step) g := by
  have shape := inside.shape.trans (shape_testLoop.trans test.shape)
  have opened := frames_ne_nil test.shape
  have entered {held : List Nat} (tidy : g.Tidy held) := test.tidy (tidy.enter rfl neat_loop)
  have done {held : List Nat} (tidy : g.Tidy held) := inside.tidy ((entered tidy).testLoop opened)
  refine ⟨by rw [put, shape_closeLoop, next.shape, shape_settle, shape]; rfl,
    (congrArg List.tail (tests_end shape flat)).trans
      (inside.tests.trans (tail_tests_testLoop.trans test.tests)),
    fun tidy => tidy_end shape flat next (done tidy), fun tidy fits => ?_⟩
  obtain ⟨after, third, back⟩ := lays_end shape flat next (done tidy) fits
  obtain ⟨tested, second⟩ := inside.lays ((entered tidy).testLoop opened) after
  obtain ⟨asked, leave⟩ := tested.testLoop (entered tidy) opened
  obtain ⟨before, first⟩ := test.lays (tidy.enter rfl neat_loop) asked
  rw [caseSlot_of_tests tests_testLoop, here_testLoop] at second
  exact ⟨before.enter rfl,
    by rw [put, here_closeLoop]; exact .forLoop first leave second third back⟩

theorem endlessLoop (flat : step.Flat) (inside : Lands body (g.enter .loop))
    (next : Lands step ((body.put (g.enter .loop)).settle (body.put (g.enter .loop)).here)) :
    Lands (.endlessLoop body step) g := by
  have shape := inside.shape
  have entered {held : List Nat} (tidy : g.Tidy held) := tidy.enter rfl neat_loop
  refine ⟨by rw [put, shape_closeLoop, next.shape, shape_settle, shape]; rfl,
    (congrArg List.tail (tests_end shape flat)).trans inside.tests,
    fun tidy => tidy_end shape flat next (inside.tidy (entered tidy)), fun tidy fits => ?_⟩
  obtain ⟨after, second, back⟩ := lays_end shape flat next (inside.tidy (entered tidy)) fits
  obtain ⟨before, first⟩ := inside.lays (entered tidy) after
  exact ⟨before.enter rfl, by rw [put, here_closeLoop]; exact .endlessLoop first second back⟩

/-! ### Switches -/

theorem switch (flat : v.Flat) (value : Lands v (g.enter .switch))
    (inside : Lands body (v.put (g.enter .switch))) : Lands (.switch v body) g := by
  have shape := inside.shape.trans value.shape
  obtain ⟨f, rest, frames, kind⟩ :
      ∃ f rest, (body.put (v.put (g.enter .switch))).frames = f :: rest ∧ f.isLoop = false :=
    frames_of_shape shape
  have entered {held : List Nat} (tidy : g.Tidy held) := tidy.enter rfl neat_switch
  have tests : ((Piece.switch v body).put g).tests = g.tests := by
    rw [put, tests_closeSwitch frames kind, inside.tests, value.tests]
    rfl
  have fresh : (g.enter .switch).caseSlot = none := rfl
  have asked : (v.put (g.enter .switch)).caseSlot = none := by
    rw [caseSlot_of_tests (tests_flat flat _)]
    exact fresh
  have top : (body.put (v.put (g.enter .switch))).caseSlot = f.caseSlot := by
    rw [caseSlot_eq, Lowering.tests, frames]
    exact caseSlot_of_find (by rw [List.find?_cons_of_pos]; simp [isSwitch, kind])
  refine ⟨by rw [put, shape_closeSwitch, shape]; rfl, by rw [tests], fun tidy =>
    (inside.tidy (value.tidy (entered tidy))).closeSwitch frames kind, fun tidy fits => ?_⟩
  obtain ⟨after, fails, drop⟩ :=
    Fits.closeSwitch (inside.tidy (value.tidy (entered tidy))) frames kind fits
  obtain ⟨between, second⟩ := inside.lays (value.tidy (entered tidy)) after
  obtain ⟨before, first⟩ := value.lays (entered tidy) between
  rw [← top] at fails
  rw [asked] at second
  rw [fresh, asked] at first
  refine ⟨before.enter rfl, ?_⟩
  rw [caseSlot_of_tests tests, put, here_closeSwitch]
  exact .switch first second fails drop

theorem caseLabel (inside : g.InSwitch) (flat : v.Flat)
    (value : Lands v (g.openCase.push [Operation.code .duplicate])) (then_ :
      Lands body ((v.put (g.openCase.push [Operation.code .duplicate])).closeCase g.caseJumps)) :
    Lands (.caseLabel v body) g := by
  have tested : (v.put (g.openCase.push [Operation.code .duplicate])).shape = g.shape :=
    value.shape.trans shape_openCase
  have there := inSwitch_of_shape inside tested
  have none : (v.put (g.openCase.push [Operation.code .duplicate])).caseSlot = none := by
    rw [caseSlot_of_tests (tests_flat flat _)]
    exact caseSlot_openCase inside
  have asked {held : List Nat} (tidy : g.Tidy held) :=
    value.tidy ((tidy.openCase inside).push [Operation.code .duplicate])
  refine ⟨then_.shape.trans ((shape_closeCase _).trans tested),
    then_.tests.trans ((tail_tests_closeCase _).trans (value.tests.trans tail_tests_openCase)),
    fun tidy => then_.tidy ((asked tidy).closeCase there none), fun tidy fits => ?_⟩
  obtain ⟨after, second⟩ := then_.lays ((asked tidy).closeCase there none) fits
  obtain ⟨doubled, test, jumps⟩ := after.closeCase (asked tidy) there none
  obtain ⟨pushed, first⟩ := value.lays ((tidy.openCase inside).push _) doubled
  obtain ⟨opened, double⟩ := pushed.push (tidy.openCase inside)
  obtain ⟨before, across⟩ := opened.openCase tidy inside
  rw [caseSlot_closeCase there, here_closeCase] at second
  rw [caseSlot_push, caseSlot_openCase inside, here_push, none] at first
  refine ⟨before, ?_⟩
  cases slot : g.caseSlot with
  | none =>
    have same : g.openCase = g := by rw [openCase, slot]
    rw [same] at first second test double
    rw [put, same]
    exact .caseFirst double first test second
  | some failed =>
    have skip : g.here + 1 ∈ g.caseJumps := by
      simp only [caseJumps, slot]
      simp
    obtain ⟨op, fails⟩ := across failed slot
    rw [here_openCase slot] at first double
    exact .caseNext ⟨op, jumps _ skip, trivial⟩ fails double first test second

theorem defaultLabel (inside : g.InSwitch) (then_ : Lands body g.openDefault) :
    Lands (.defaultLabel body) g := by
  have opened {held : List Nat} (tidy : g.Tidy held) : g.openDefault.Tidy held := by
    rw [openDefault, fallThrough_eq tidy, List.append_nil]
    exact (Tidy.setCase none tidy inside).fill _
  refine ⟨then_.shape.trans (shape_setCase none), then_.tests.trans (tail_tests_setCase none),
    fun tidy => then_.tidy (opened tidy), fun tidy fits => ?_⟩
  obtain ⟨after, code⟩ := then_.lays (opened tidy) fits
  have start : g.openDefault.here = g.here := here_fill _ _
  have cleared : g.openDefault.caseSlot = none := caseSlot_setCase inside
  rw [cleared, start] at code
  rw [openDefault, fallThrough_eq tidy, List.append_nil] at after
  obtain ⟨before, fails⟩ := after.fill (Tidy.setCase none tidy inside)
  refine ⟨Fits.setCase none before inside, .defaultLabel (fun p mem => fails p ?_) code⟩
  simp [Option.mem_def.mp mem]

/-! ### Jumps -/

theorem breaking (some : g.frames ≠ []) : Lands .breaking g where
  shape := by rw [put, shape_breakAt, shape_fork]
  tests := by rw [put, tests_breakAt, tests_fork]
  tidy tidy := (tidy.fork _).breakAt some
  lays tidy fits := by
    obtain ⟨forked, e, Y, same, leave⟩ := Fits.breakAt fits some
    obtain ⟨before, op⟩ := forked.fork tidy
    subst same
    have slot : (Piece.breaking.put g).caseSlot = g.caseSlot :=
      caseSlot_of_tests (by rw [put, tests_breakAt, tests_fork])
    rw [slot, show (Piece.breaking.put g).here = g.here + 2 from here_fork _]
    exact ⟨before, .breaking ⟨op, leave, trivial⟩⟩

theorem continuing (inside : g.InLoop) : Lands .continuing g := by
  have frames := frames_dropAll (g := g) (g.frames.takeWhile fun f => !f.isLoop).length
  have there :
    ((dropAll (g.frames.takeWhile fun f => !f.isLoop).length g).fork .branch).InLoop := by
    rw [InLoop, frames_fork, frames]
    exact inside
  have tests : (Piece.continuing.put g).tests = g.tests := by
    rw [put, tests_continueAt, tests_fork, Lowering.tests, frames, Lowering.tests]
  refine ⟨by rw [put, shape_continueAt, shape_fork, Lowering.shape, frames, Lowering.shape],
    by rw [tests], fun tidy => ((tidy.dropAll _).fork _).continueAt there, fun tidy fits => ?_⟩
  obtain ⟨forked, switches, e, Y, same, inner, loop, count, filled⟩ := Fits.continueAt fits there
  obtain ⟨dropped, op⟩ := forked.fork (tidy.dropAll _)
  obtain ⟨before, drops⟩ := dropped.dropAll tidy
  rw [frames_fork, frames] at count
  have stop : (Piece.continuing.put g).here = g.here + 2 * switches.length + 2 := by
    rw [put, count]
    exact (here_fork _).trans (by rw [here_dropAll])
  rw [← count] at drops op filled
  rw [here_dropAll] at op filled
  subst same
  rw [caseSlot_of_tests tests, stop]
  exact ⟨before, .continuing inner loop drops ⟨op, filled, trivial⟩⟩

theorem goto {id : Int} : Lands (.goto id) g where
  shape := by rw [put, Lowering.shape, frames_jumpTo, Lowering.shape]
  tests := by rw [put, Lowering.tests, frames_jumpTo, Lowering.tests]
  tidy tidy := tidy.jumpTo id
  lays tidy fits := by
    obtain ⟨before, cells⟩ := Fits.jumpTo tidy fits
    have slot : ((Piece.goto id).put g).caseSlot = g.caseSlot := by
      rw [put, Lowering.caseSlot, frames_jumpTo, Lowering.caseSlot]
    rw [slot, put, here_jumpTo]
    exact ⟨before, .goto cells⟩

theorem label {id : Int} (unplaced : (g.labelOf id).address = none)
    (then_ : Lands body (g.place id)) : Lands (.label id body) g where
  shape := then_.shape
  tests := then_.tests
  tidy tidy := then_.tidy (tidy.place id)
  lays tidy fits := by
    obtain ⟨after, code⟩ := then_.lays (tidy.place id) fits
    obtain ⟨before, here⟩ := after.place tidy unplaced
    rw [here_place] at code
    exact ⟨before, .label here code⟩

end Lands

/-! ## The whole piece -/

/-- The labels of a piece of code are different and not placed yet. -/
structure Fresh (labels : List Int) (g : Lowering) : Prop where
  nodup : labels.Nodup
  unplaced : ∀ id ∈ labels, (g.labelOf id).address = none

namespace Fresh

variable {ls ls' gs cs : List Int} {g h : Lowering}

theorem nil (g : Lowering) : Fresh [] g := ⟨List.nodup_nil, by simp⟩

theorem left (fresh : Fresh (ls ++ ls') g) : Fresh ls g :=
  ⟨(List.nodup_append.mp fresh.nodup).1,
    fun id mem => fresh.unplaced id (List.mem_append_left _ mem)⟩

/-- The labels of the second part are still free after the first part. -/
theorem right (fresh : Fresh (ls ++ ls') g) (first : Follows ls gs cs g h) : Fresh ls' h := by
  obtain ⟨_, second, apart⟩ := List.nodup_append.mp fresh.nodup
  refine ⟨second, fun id mem => ?_⟩
  rw [first.address id fun early => apart id early id mem rfl]
  exact fresh.unplaced id (List.mem_append_right _ mem)

theorem quiet (fresh : Fresh ls g) (step : Follows [] [] [] g h) : Fresh ls h :=
  ⟨fresh.nodup, fun id mem => (step.address id (by simp)).trans (fresh.unplaced id mem)⟩

end Fresh

/-- A proper piece of code stands in every finished memory that fits the state after it. -/
theorem lands {c : Piece} {inLoop inSwitch : Bool}
    (proper : c.Proper inLoop inSwitch) (g : Lowering)
    (ready : Ready g.shape inLoop inSwitch) (fresh : Fresh c.labels g) : Lands c g := by
  -- by induction on the code: between two parts the open loops and switches are those of the
  -- beginning, and the labels of the part that follows have no place yet
  induction c generalizing g inLoop inSwitch with
  | skip => exact .skip
  | plain i operands => exact .plain proper.1 proper.2
  | text t => exact .text
  | call number => exact .call
  | seq c d first second =>
    have left := first proper.1 g ready fresh.left
    exact .seq left (second proper.2 _ (left.shape ▸ ready) (fresh.right (follows_put c g)))
  | choose t y n test yes no =>
    have asked := (follows_put t g).then_quiet (.fork _ .branchIfZero)
    have tested := test (proper.1.proper _ _) g ready fresh.left.left
    have taken := yes proper.2.1 _ (tested.shape ▸ ready) (fresh.left.right asked)
    refine .choose tested taken (no proper.2.2 _ ?_ (fresh.right (asked.trans
      (((follows_put y _).then_quiet (.fork _ _)).then_quiet (.land _ _ _)))))
    rw [shape_land, shape_fork, taken.shape, shape_fork, tested.shape]
    exact ready
  | only t y test yes =>
    have asked := (follows_put t g).then_quiet (.fork _ .branchIfZero)
    have tested := test (proper.1.proper _ _) g ready fresh.left
    exact .only tested (yes proper.2 _ (tested.shape ▸ ready) (fresh.right asked))
  | short op last l r left right =>
    obtain ⟨kind, ends, flatLeft, flatRight⟩ := proper
    have first := left (flatLeft.proper inLoop inSwitch) g ready fresh.left
    refine .short kind ends
      first (right (flatRight.proper inLoop inSwitch) _ (first.shape ▸ ready) ?_)
    exact fresh.right (((follows_put l g).then_quiet (.push _ _)).then_quiet (.fork _ _))
  -- in a loop the parts are laid with one more exit open, which closing the loop takes away again
  | whileLoop t body test inside =>
    have entered := ready.enterLoop
    have asked := (Follows.enter g .loop).after_quiet ((follows_put t _).then_quiet (.testLoop _))
    have tested :=
      test (proper.1.proper true inSwitch) (g.enter .loop) entered (fresh.left.quiet (.enter _ _))
    refine .whileLoop tested (inside proper.2 _ ?_ (fresh.right asked))
    rw [shape_testLoop, tested.shape]
    exact entered
  | doWhile body t inside test =>
    have entered := ready.enterLoop
    have done := inside proper.1 (g.enter .loop) entered (fresh.left.quiet (.enter _ _))
    refine .doWhile proper.2 done (test (proper.2.proper true inSwitch) _ ?_ ?_)
    · rw [shape_settle, done.shape]
      exact entered
    · exact fresh.right
        ((Follows.enter g .loop).after_quiet ((follows_put body _).then_quiet (.settle _ _)))
  | forLoop t body step test inside next =>
    have entered := ready.enterLoop
    have asked := (Follows.enter g .loop).after_quiet ((follows_put t _).then_quiet (.testLoop _))
    have tested := test (proper.1.proper true inSwitch) (g.enter .loop) entered
      (fresh.left.left.quiet (.enter _ _))
    have shape : (t.put (g.enter .loop)).testLoop.shape = true :: g.shape := by
      rw [shape_testLoop, tested.shape]
      rfl
    have done := inside proper.2.1 _ (shape.symm ▸ entered) (fresh.left.right asked)
    refine .forLoop proper.2.2 tested done (next (proper.2.2.proper true inSwitch) _ ?_ ?_)
    · rw [shape_settle, done.shape, shape]
      exact entered
    · exact fresh.right (asked.trans ((follows_put body _).then_quiet (.settle _ _)))
  | endlessLoop body step inside next =>
    have entered := ready.enterLoop
    have done := inside proper.1 (g.enter .loop) entered (fresh.left.quiet (.enter _ _))
    refine .endlessLoop proper.2 done (next (proper.2.proper true inSwitch) _ ?_ ?_)
    · rw [shape_settle, done.shape]
      exact entered
    · exact fresh.right
        ((Follows.enter g .loop).after_quiet ((follows_put body _).then_quiet (.settle _ _)))
  | switch v body value inside =>
    have entered := ready.enterSwitch
    have asked :=
      value (proper.1.proper inLoop true) (g.enter .switch) entered (fresh.left.quiet (.enter _ _))
    refine .switch proper.1 asked (inside proper.2 _ (asked.shape.symm ▸ entered) ?_)
    exact fresh.right ((Follows.enter g .switch).after_quiet (follows_put v _))
  -- a label closes the open test of its switch and opens one; no other exit changes
  | caseLabel v body value inside =>
    have switch := inSwitch_iff.mpr (ready.switch proper.1)
    have doubled := (Follows.openCase g).after_quiet (Follows.push _ [Operation.code .duplicate])
    have asked :=
      value (proper.2.1.proper inLoop inSwitch) (g.openCase.push [Operation.code .duplicate])
      (shape_openCase (g := g) ▸ ready) (fresh.left.quiet doubled)
    refine .caseLabel switch proper.2.1 asked (inside proper.2.2 _ ?_ ?_)
    · rw [shape_closeCase, asked.shape, shape_push, shape_openCase]
      exact ready
    · exact fresh.right (doubled.after_quiet ((follows_put v _).then_quiet (.closeCase _ _)))
  | defaultLabel body inside =>
    have switch := inSwitch_iff.mpr (ready.switch proper.1)
    have shape : g.openDefault.shape = g.shape := shape_setCase none
    exact .defaultLabel switch (inside proper.2 _ (shape ▸ ready) (fresh.quiet (.openDefault g)))
  | breaking =>
    refine .breaking fun none => ?_
    have empty : g.shape = [] := by rw [Lowering.shape, none, List.map_nil]
    rcases proper with loop | switch
    · simpa [empty] using ready.loop loop
    · simpa [empty] using ready.switch switch
  | continuing => exact .continuing (inLoop_iff.mpr (ready.loop proper))
  | goto id => exact .goto
  | label id body inside =>
    have split : Fresh ([id] ++ body.labels) g := fresh
    exact .label (fresh.unplaced id List.mem_cons_self)
      (inside proper _ ready (split.right (.place g id)))

end BilingualC
