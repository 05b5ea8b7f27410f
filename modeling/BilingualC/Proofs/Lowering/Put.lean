import Mathlib
import BilingualC.Proofs.Lowering.Targets

/-!
# Emitting a piece of code

`Piece.put` appends a piece of code to the memory of the generator: it reserves a slot for each jump
forward and fills the slot when the target is reached. `Piece.Proper` says which pieces have a
meaning inside given loops and switches; a flat piece opens no frame and has no label.
-/

namespace BilingualC

namespace Lowering

/-- Tests that drop the values of some switches. -/
def dropAll : Nat → Lowering → Lowering
  | 0, g => g
  | n + 1, g => dropAll n (g.push [Operation.code .branchIfZero, (g.here + 2 : Nat)])

/-- The open jumps into the body of the next case. -/
def fallThrough (g : Lowering) : List Nat := ((g.frames.find? isSwitch).map (·.fallThrough)).getD []

/-- The test at the head of a loop: when it fails, the loop is left. -/
def testLoop (g : Lowering) : Lowering := (g.fork .branchIfZero).breakAt (g.here + 1)

/-- The innermost frame forgets the slots that go on with it. -/
def forgetContinues (g : Lowering) : Lowering :=
  g.withFrames (changeFirst (fun _ => true) (fun f => { f with continues := [] }) g.frames)

/-- The jumps that go on with the innermost loop lead to an address. -/
def settle (g : Lowering) (target : Nat) : Lowering := g.forgetContinues.fill g.top.continues target

/-- Leaves a loop: its last test or jump goes back, and its breaks lead behind it. -/
def closeLoop (g : Lowering) (op : Operation) (start : Nat) : Lowering :=
  (g.leave.push [op.code, start]).fill g.top.breaks (g.here + 2 : Nat)

/-- The start of a case: control from the body before it jumps over the test, and a failed test goes
on here. -/
def openCase (g : Lowering) : Lowering :=
  match g.caseSlot with
  | none => g
  | some failed => ((g.fork .branch).setCase none).land failed (g.here + 2)

/-- The slots of jumps into the body of a case that starts here. -/
def caseJumps (g : Lowering) : List Nat :=
  match g.caseSlot with
  | none => g.fallThrough
  | some _ => g.fallThrough ++ [g.here + 1]

/-- The end of a case test; the jumps into the body lead behind it. -/
def closeCase (g : Lowering) (jumps : List Nat) : Lowering :=
  ((g.push [Operation.code .equal, Operation.code .branchIfZero, 0]).fill jumps
    (g.here + 3 : Nat)).setCase (some (g.here + 2))

/-- The place of the default label: a failed test goes on here. -/
def openDefault (g : Lowering) : Lowering :=
  (g.setCase none).fill (g.caseSlot.toList ++ g.fallThrough) g.here

/-- Leaves a switch: all its exits meet, and its value is dropped. -/
def closeSwitch (g : Lowering) : Lowering :=
  (g.leave.fill (g.top.caseSlot.toList ++ g.top.fallThrough ++ g.top.breaks) g.here).push
    [Operation.code .branchIfZero, (g.here + 2 : Nat)]

end Lowering

open Lowering

namespace Piece

/-- The cells of an inline text that stands at an address. -/
def textCells (a : Nat) (t : String) : List Int :=
  [Operation.code .loadConstant, (a + 5 : Nat), Operation.code .branch, (a + 5 + t.length : Nat),
    t.length] ++ t.toList.map fun c => (c.toNat : Int)

/-- Appends a piece of code. -/
def put : Piece → Lowering → Lowering
  | .skip, g => g
  | .plain i operands, g => g.push (i.code :: operands)
  | .text t, g => g.push (textCells g.here t)
  | .call number, g => g.callTo number
  | .seq c d, g => d.put (c.put g)
  | .choose t y n, g =>
    let tested := t.put g
    let taken := y.put (tested.fork .branchIfZero)
    let other := n.put ((taken.fork .branch).land (tested.here + 1) (taken.here + 2))
    other.land (taken.here + 1) other.here
  | .only t y, g =>
    let tested := t.put g
    let taken := y.put (tested.fork .branchIfZero)
    taken.land (tested.here + 1) taken.here
  | .short test last l r, g =>
    let left := l.put g
    let right := r.put ((left.push [Operation.code .duplicate]).fork test)
    (right.push [last.code]).land (left.here + 2) (right.here + 1)
  | .whileLoop t body, g =>
    let done := body.put (t.put (g.enter .loop)).testLoop
    (done.settle g.here).closeLoop .branch g.here
  | .doWhile body t, g =>
    let done := body.put (g.enter .loop)
    (t.put (done.settle done.here)).closeLoop .branchUnlessZero g.here
  | .forLoop t body step, g =>
    let done := body.put (t.put (g.enter .loop)).testLoop
    (step.put (done.settle done.here)).closeLoop .branch g.here
  | .endlessLoop body step, g =>
    let done := body.put (g.enter .loop)
    (step.put (done.settle done.here)).closeLoop .branch g.here
  | .switch v body, g => (body.put (v.put (g.enter .switch))).closeSwitch
  | .caseLabel v body, g =>
    let tested := v.put (g.openCase.push [Operation.code .duplicate])
    body.put (tested.closeCase g.caseJumps)
  | .defaultLabel body, g => body.put g.openDefault
  | .breaking, g => (g.fork .branch).breakAt (g.here + 1)
  | .continuing, g =>
    let dropped := dropAll (g.frames.takeWhile fun f => !f.isLoop).length g
    (dropped.fork .branch).continueAt (dropped.here + 1)
  | .goto id, g => g.jumpTo id
  | .label id body, g => body.put (g.place id)

theorem put_skip (g : Lowering) : skip.put g = g := rfl

theorem put_whileLoop (t body : Piece) (g : Lowering) : (whileLoop t body).put g =
    (skip.put ((body.put (t.put (g.enter .loop)).testLoop).settle g.here)).closeLoop
    .branch g.here := rfl

/-! ## Pieces with a meaning -/

/-- The code of expressions: no frames, no labels, and every instruction has its operands. -/
def Flat : Piece → Prop
  | .skip | .text _ | .call _ => True
  | .plain i operands => operands.length = i.operands ∧ i.isPlain = true
  | .seq c d => c.Flat ∧ d.Flat
  | .choose t y n => t.Flat ∧ y.Flat ∧ n.Flat
  | .short test last l r =>
    (test = .branchIfZero ∨ test = .branchUnlessZero) ∧ (last = .logicalAnd ∨ last = .logicalOr) ∧
      l.Flat ∧ r.Flat
  | _ => False

/-- The code of statements, inside a loop or not and inside a switch or not. -/
def Proper : Bool → Bool → Piece → Prop
  | _, _, .skip | _, _, .text _ | _, _, .call _ | _, _, .goto _ => True
  | _, _, .plain i operands => operands.length = i.operands ∧ i.isPlain = true
  | l, s, .seq c d => c.Proper l s ∧ d.Proper l s
  | l, s, .choose t y n => t.Flat ∧ y.Proper l s ∧ n.Proper l s
  | l, s, .only t y => t.Flat ∧ y.Proper l s
  | _, _, .short test last l r => (Piece.short test last l r).Flat
  | _, s, .whileLoop t body => t.Flat ∧ body.Proper true s
  | _, s, .doWhile body t => body.Proper true s ∧ t.Flat
  | _, s, .forLoop t body step => t.Flat ∧ body.Proper true s ∧ step.Flat
  | _, s, .endlessLoop body step => body.Proper true s ∧ step.Flat
  | l, _, .switch v body => v.Flat ∧ body.Proper l true
  | l, s, .caseLabel v body => s = true ∧ v.Flat ∧ body.Proper l s
  | l, s, .defaultLabel body => s = true ∧ body.Proper l s
  | l, s, .breaking => l = true ∨ s = true
  | l, _, .continuing => l = true
  | l, s, .label _ body => body.Proper l s

theorem Flat.proper {c : Piece} (flat : c.Flat) (loop switch : Bool) : c.Proper loop switch := by
  induction c with
  | seq c d first second => exact ⟨first flat.1, second flat.2⟩
  | choose t y n _ yes no => exact ⟨flat.1, yes flat.2.1, no flat.2.2⟩
  | skip | text _ | call _ => trivial
  | plain _ _ | short _ _ _ _ => exact flat
  | _ => exact flat.elim

theorem Flat.labels {c : Piece} (flat : c.Flat) : c.labels = [] := by
  induction c with
  | seq c d first second => simp [Piece.labels, first flat.1, second flat.2]
  | choose t y n test yes no => simp [Piece.labels, test flat.1, yes flat.2.1, no flat.2.2]
  | short test last l r left right => simp [Piece.labels, left flat.2.2.1, right flat.2.2.2]
  | skip | text _ | call _ | plain _ _ => rfl
  | _ => exact flat.elim

theorem Flat.gotos {c : Piece} (flat : c.Flat) : c.gotos = [] := by
  induction c with
  | seq c d first second => simp [Piece.gotos, first flat.1, second flat.2]
  | choose t y n test yes no => simp [Piece.gotos, test flat.1, yes flat.2.1, no flat.2.2]
  | short test last l r left right => simp [Piece.gotos, left flat.2.2.1, right flat.2.2.2]
  | skip | text _ | call _ | plain _ _ => rfl
  | _ => exact flat.elim

/-- A flat piece leaves the frames alone. -/
theorem Flat.put_withFrames {c : Piece} (flat : c.Flat) (g : Lowering) (frames : List JumpFrame) :
    c.put (g.withFrames frames) = (c.put g).withFrames frames := by
  induction c generalizing g with
  | skip | plain _ _ | text _ => rfl
  | call number =>
    by_cases known : (g.session.functionAddress number != 0) = true <;>
      simp only [put, callTo, session_withFrames, known] <;> rfl
  | seq c d first second => rw [put, put, first flat.1, second flat.2]
  | choose t y n test yes no =>
    have forked (g : Lowering) (op : Operation) :
        (g.withFrames frames).fork op = (g.fork op).withFrames frames := rfl
    have landed (g : Lowering) (p target : Nat) :
        (g.withFrames frames).land p target = (g.land p target).withFrames frames := rfl
    simp only [put, test flat.1, yes flat.2.1, no flat.2.2, forked, landed, here_withFrames]
  | short op last l r left right =>
    have pushed (g : Lowering) (cells : List Int) :
        (g.withFrames frames).push cells = (g.push cells).withFrames frames := rfl
    have forked (g : Lowering) (op : Operation) :
        (g.withFrames frames).fork op = (g.fork op).withFrames frames := rfl
    have landed (g : Lowering) (p target : Nat) :
        (g.withFrames frames).land p target = (g.land p target).withFrames frames := rfl
    simp only [put, left flat.2.2.1, right flat.2.2.2, pushed, forked, landed, here_withFrames]
  | _ => exact flat.elim

theorem Flat.frames_put {c : Piece} (flat : c.Flat) (g : Lowering) :
    (c.put g).frames = g.frames := by
  have same := flat.put_withFrames g g.frames
  rw [show g.withFrames g.frames = g from rfl] at same
  rw [same]
  rfl

end Piece

/-- The frames that a piece of code needs are open. -/
structure Ready (shape : List Bool) (inLoop inSwitch : Bool) : Prop where
  loop : inLoop = true → shape.any id = true
  switch : inSwitch = true → shape.any (!·) = true

namespace Ready

variable {shape : List Bool} {inLoop inSwitch : Bool}

theorem nothing (shape : List Bool) : Ready shape false false := ⟨nofun, nofun⟩

theorem enterLoop (ready : Ready shape inLoop inSwitch) : Ready (true :: shape) true inSwitch :=
  ⟨fun _ => rfl, fun switch => by simpa using ready.switch switch⟩

theorem enterSwitch (ready : Ready shape inLoop inSwitch) : Ready (false :: shape) inLoop true :=
  ⟨fun loop => by simpa using ready.loop loop, fun _ => rfl⟩

end Ready

end BilingualC
