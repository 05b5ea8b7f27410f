import Mathlib
import BilingualC.Proofs.Lowering.Layout
import BilingualC.Proofs.Guarded
import BilingualC.Lowering.Statement

/-!
# Open slots

While code is emitted, some cells of memory are slots that wait for an address. A state of the
generator knows the slots of its frames, labels and calls; further slots are held by the rules that
are being carried out. `Tidy` says that all these slots are different cells of memory.

`Fits` compares a state with a finished memory: the cells that are no slots are final, and the slots
have been filled with the addresses that the exits and links name. Every step of the generator keeps
this in the backward direction: what fits the state after the step fits the state before it.

A step appends cells (`push`), fills slots (`fill`), or moves a slot between the held ones and the
ones that a frame, a label or a call knows.
-/

namespace BilingualC

namespace JumpFrame

/-- The slots of a frame. -/
def slots (f : JumpFrame) : List Nat := f.breaks ++ f.continues ++ f.caseSlot.toList

/-- A frame between two steps: a loop has no case tests, a switch is not continued, and no jump into
the body of the next case is open. -/
structure Neat (f : JumpFrame) : Prop where
  falls : f.fallThrough = []
  loop : f.isLoop = true → f.caseSlot = none
  switch : f.isLoop = false → f.continues = []

end JumpFrame

namespace Lowering

/-- The address of the next cell. -/
def here (g : Lowering) : Nat := g.memory.size

def push (g : Lowering) (cells : List Int) : Lowering := { g with memory := g.memory ++ cells }

def fill (g : Lowering) (slots : List Nat) (target : Int) : Lowering :=
  { g with memory := slots.foldl (fun m s => m.setIfInBounds s target) g.memory }

def withFrames (g : Lowering) (frames : List JumpFrame) : Lowering := { g with frames }

def withLabels (g : Lowering) (labels : List LabelState) : Lowering := { g with labels }

def withCalls (g : Lowering) (pendingCalls : List (Int × List Nat)) : Lowering :=
  { g with pendingCalls }

/-- All slots that a state knows. -/
def slots (g : Lowering) : List Nat :=
  g.frames.flatMap JumpFrame.slots ++ g.labels.flatMap (·.waiting) ++ g.pendingCalls.flatMap (·.2)

/-- The slots of the last case tests of the open switches, innermost first. -/
def caseSlots (frames : List JumpFrame) : List (Option Nat) :=
  (frames.filter isSwitch).map (·.caseSlot)

/-- The slot of the last case test of the innermost switch. -/
def caseSlot (g : Lowering) : Option Nat := (caseSlots g.frames).head?.join

/-- A state whose slots, together with the held ones, are different cells of memory. -/
structure Tidy (g : Lowering) (held : List Nat) : Prop where
  nodup : (g.slots ++ held).Nodup
  below : ∀ p ∈ g.slots ++ held, p < g.here
  neat : ∀ f ∈ g.frames, f.Neat
  names : (g.labels.map (·.identifier)).Nodup
  placed : ∀ l ∈ g.labels, l.address.isSome = true → l.waiting = []
  numbers : (g.pendingCalls.map (·.1)).Nodup
  unknown : ∀ e ∈ g.pendingCalls, g.session.functionAddress e.1 = 0

/-- The exits of a frame in a finished memory. -/
structure FitsExit (M : List Int) (f : JumpFrame) (e : Exit) : Prop where
  isLoop : e.isLoop = f.isLoop
  breaks : ∀ p ∈ f.breaks, M[p]? = some e.breakTo
  continues : ∀ p ∈ f.continues, M[p]? = some e.continueTo

/-- A finished memory fits a state. -/
structure Fits (M : List Int) (X : List Exit) (L : Links) (g : Lowering)
    (held : List Nat) : Prop where
  kept : ∀ i < g.here, i ∉ g.slots ++ held → M[i]? = g.memory[i]?
  exits : List.Forall₂ (FitsExit M) g.frames X
  placed : ∀ l ∈ g.labels, ∀ a ∈ l.address, L.label l.identifier = a
  waiting : ∀ l ∈ g.labels, ∀ p ∈ l.waiting, M[p]? = some (L.label l.identifier)
  calls : ∀ e ∈ g.pendingCalls, ∀ p ∈ e.2, M[p]? = some (L.function e.1)
  functions : ∀ n, g.session.functionAddress n ≠ 0 → L.function n = g.session.functionAddress n

variable {g : Lowering} {held : List Nat} {M : List Int} {X : List Exit} {L : Links}

/-! ## Appending cells -/

@[simp] theorem here_push (cells : List Int) : (g.push cells).here = g.here + cells.length :=
  size_append_cells _ _

@[simp] theorem slots_push (cells : List Int) : (g.push cells).slots = g.slots := rfl
@[simp] theorem frames_push (cells : List Int) : (g.push cells).frames = g.frames := rfl
@[simp] theorem session_push (cells : List Int) : (g.push cells).session = g.session := rfl
@[simp] theorem failure_push (cells : List Int) : (g.push cells).failure = g.failure := rfl
@[simp] theorem labels_push (cells : List Int) : (g.push cells).labels = g.labels := rfl
@[simp] theorem calls_push (cells : List Int) : (g.push cells).pendingCalls = g.pendingCalls := rfl
@[simp] theorem caseSlot_push (cells : List Int) : (g.push cells).caseSlot = g.caseSlot := rfl

theorem push_push (cells more : List Int) : (g.push cells).push more = g.push (cells ++ more) := by
  have same : g.memory ++ cells ++ more = g.memory ++ (cells ++ more) := by
    apply Array.ext'
    simp only [Array.toList_appendList, List.append_assoc]
  simp only [push, same]

theorem Tidy.push (tidy : g.Tidy held) (cells : List Int) : (g.push cells).Tidy held where
  nodup := tidy.nodup
  below p mem := by
    have := tidy.below p mem
    rw [here_push]
    omega
  neat := tidy.neat
  names := tidy.names
  placed := tidy.placed
  numbers := tidy.numbers
  unknown := tidy.unknown

theorem cellsAt_of_getElem? {a : Nat} {cells : List Int}
    (found : ∀ k (inside : k < cells.length), M[a + k]? = some cells[k]) : CellsAt M a cells := by
  induction cells generalizing a with
  | nil => trivial
  | cons x xs ih =>
    refine ⟨found 0 (by simp), ih fun k inside => ?_⟩
    have next := found (k + 1) (by simpa using inside)
    rw [show a + 1 + k = a + (k + 1) by omega]
    simpa using next

theorem Fits.push (tidy : g.Tidy held) {cells : List Int} (fits : Fits M X L (g.push cells) held) :
    Fits M X L g held ∧ CellsAt M g.here cells := by
  refine ⟨⟨fun i inside free => ?_, fits.exits, fits.placed, fits.waiting, fits.calls,
    fits.functions⟩, cellsAt_of_getElem? fun k inside => ?_⟩
  · rw [fits.kept i (by rw [here_push]; omega) free]
    exact getElem?_append_old _ _ inside
  · have free : g.here + k ∉ (g.push cells).slots ++ held := fun mem => by
      have := tidy.below _ mem
      omega
    rw [fits.kept _ (by rw [here_push]; omega) free]
    rw [show (g.push cells).memory = g.memory ++ cells from rfl, here, getElem?_append_new]
    exact List.getElem?_eq_getElem inside

/-- The last cell of an appended block can be held as a slot. -/
theorem Tidy.reserve (tidy : g.Tidy held) (cells : List Int) :
    (g.push (cells ++ [0])).Tidy ((g.here + cells.length) :: held) where
  nodup := by
    have fresh : g.here + cells.length ∉ g.slots ++ held := fun mem => by
      have := tidy.below _ mem
      omega
    have order : ((g.here + cells.length) :: (g.slots ++ held)).Perm
        (g.slots ++ (g.here + cells.length) :: held) := List.perm_middle.symm
    exact order.nodup_iff.mp (List.nodup_cons.mpr ⟨fresh, tidy.nodup⟩)
  below p mem := by
    have either : p = g.here + cells.length ∨ p ∈ g.slots ++ held := by
      simp only [slots_push, List.mem_append, List.mem_cons] at mem ⊢
      tauto
    rw [here_push, List.length_append]
    rcases either with rfl | old
    · simp
    · have := tidy.below p old
      omega
  neat := tidy.neat
  names := tidy.names
  placed := tidy.placed
  numbers := tidy.numbers
  unknown := tidy.unknown

theorem Fits.reserve (tidy : g.Tidy held) {cells : List Int}
    (fits : Fits M X L (g.push (cells ++ [0])) ((g.here + cells.length) :: held)) :
    Fits M X L g held ∧ CellsAt M g.here cells := by
  have still {i : Nat} (less : i < g.here + cells.length) (free : i ∉ g.slots ++ held) :
      i ∉ (g.push (cells ++ [0])).slots ++ (g.here + cells.length) :: held := by
    have other : i ≠ g.here + cells.length := Nat.ne_of_lt less
    simp only [slots_push, List.mem_append, List.mem_cons] at free ⊢
    tauto
  refine ⟨⟨fun i inside free => ?_, fits.exits, fits.placed, fits.waiting, fits.calls,
    fits.functions⟩, cellsAt_of_getElem? fun k inside => ?_⟩
  · rw [fits.kept i (by rw [here_push]; omega) (still (by omega) free)]
    exact getElem?_append_old _ _ inside
  · have free : g.here + k ∉ g.slots ++ held := fun mem => by
      have := tidy.below _ mem
      omega
    rw [fits.kept _ (by simp; omega) (still (by omega) free)]
    rw [show (g.push (cells ++ [0])).memory = g.memory ++ (cells ++ [0]) from rfl, here,
      getElem?_append_new, List.getElem?_append_left inside]
    exact List.getElem?_eq_getElem inside

/-! ## Filling slots -/

theorem size_foldl_set (slots : List Nat) (target : Int) (m : Array Int) :
    (slots.foldl (fun m s => m.setIfInBounds s target) m).size = m.size := by
  induction slots generalizing m with
  | nil => rfl
  | cons s rest ih => rw [List.foldl_cons, ih, Array.size_setIfInBounds]

theorem getElem?_foldl_set_of_notMem {slots : List Nat} {target : Int} {m : Array Int} {i : Nat}
    (free : i ∉ slots) : (slots.foldl (fun m s => m.setIfInBounds s target) m)[i]? = m[i]? := by
  induction slots generalizing m with
  | nil => rfl
  | cons s rest ih =>
    simp only [List.mem_cons, not_or] at free
    rw [List.foldl_cons, ih free.2, Array.getElem?_setIfInBounds_ne (Ne.symm free.1)]

theorem getElem?_foldl_set_of_mem {slots : List Nat} {target : Int} {m : Array Int} {i : Nat}
    (mem : i ∈ slots) (inside : i < m.size) :
    (slots.foldl (fun m s => m.setIfInBounds s target) m)[i]? = some target := by
  induction slots generalizing m with
  | nil => simp at mem
  | cons s rest ih =>
    rw [List.foldl_cons]
    by_cases later : i ∈ rest
    · exact ih later (by simpa using inside)
    · have same : i = s := (List.mem_cons.mp mem).resolve_right later
      subst same
      rw [getElem?_foldl_set_of_notMem later, Array.getElem?_setIfInBounds_self_of_lt inside]

@[simp] theorem here_fill (ps : List Nat) (target : Int) : (g.fill ps target).here = g.here :=
  size_foldl_set _ _ _

@[simp] theorem slots_fill (ps : List Nat) (target : Int) : (g.fill ps target).slots = g.slots :=
  rfl
@[simp] theorem frames_fill (ps : List Nat) (target : Int) : (g.fill ps target).frames = g.frames :=
  rfl
@[simp] theorem session_fill (ps : List Nat) (target : Int) :
    (g.fill ps target).session = g.session :=
  rfl
@[simp] theorem failure_fill (ps : List Nat) (target : Int) :
    (g.fill ps target).failure = g.failure :=
  rfl
@[simp] theorem labels_fill (ps : List Nat) (target : Int) : (g.fill ps target).labels = g.labels :=
  rfl
@[simp] theorem calls_fill (ps : List Nat) (target : Int) :
    (g.fill ps target).pendingCalls = g.pendingCalls := rfl
@[simp] theorem caseSlot_fill (ps : List Nat) (target : Int) :
    (g.fill ps target).caseSlot = g.caseSlot :=
  rfl

/-- Slots that are filled are held no longer. -/
theorem Tidy.fill {ps : List Nat} (tidy : g.Tidy (ps ++ held)) (target : Int) :
    (g.fill ps target).Tidy held where
  nodup := by
    have order : (g.slots ++ (ps ++ held)).Perm (ps ++ (g.slots ++ held)) :=
      List.perm_append_comm_assoc _ _ _
    exact (List.nodup_append.mp (order.nodup_iff.mp tidy.nodup)).2.1
  below p mem := by
    rw [here_fill]
    refine tidy.below p ?_
    simp only [slots_fill, List.mem_append] at mem ⊢
    tauto
  neat := tidy.neat
  names := tidy.names
  placed := tidy.placed
  numbers := tidy.numbers
  unknown := tidy.unknown

theorem Fits.fill {ps : List Nat} {target : Int} (tidy : g.Tidy (ps ++ held))
    (fits : Fits M X L (g.fill ps target) held) :
    Fits M X L g (ps ++ held) ∧ ∀ p ∈ ps, M[p]? = some target := by
  refine ⟨⟨fun i inside free => ?_, fits.exits, fits.placed, fits.waiting, fits.calls,
    fits.functions⟩, fun p mem => ?_⟩
  · simp only [List.mem_append, not_or] at free
    rw [fits.kept i (by rw [here_fill]; omega) (by simp [free.1, free.2.2])]
    exact getElem?_foldl_set_of_notMem free.2.1
  · have inside : p < g.here := tidy.below p (by simp [mem])
    have free : p ∉ (g.fill ps target).slots ++ held := by
      have all := tidy.nodup
      rw [List.nodup_append] at all
      obtain ⟨_, right, apart⟩ := all
      have later := (List.nodup_append.mp right).2.2
      simp only [slots_fill, List.mem_append, not_or]
      exact ⟨fun known => apart p known p (by simp [mem]) rfl, fun other => later p mem p other rfl⟩
    rw [fits.kept p (by rw [here_fill]; exact inside) free]
    exact getElem?_foldl_set_of_mem mem inside

/-! ## Single jumps -/

/-- A jump whose target is a slot. -/
def fork (g : Lowering) (op : Operation) : Lowering := g.push [op.code, 0]

/-- One slot is filled. -/
def land (g : Lowering) (p target : Nat) : Lowering := g.fill [p] target

@[simp] theorem here_fork (op : Operation) : (g.fork op).here = g.here + 2 := here_push _
@[simp] theorem frames_fork (op : Operation) : (g.fork op).frames = g.frames := rfl
@[simp] theorem session_fork (op : Operation) : (g.fork op).session = g.session := rfl
@[simp] theorem labels_fork (op : Operation) : (g.fork op).labels = g.labels := rfl
@[simp] theorem calls_fork (op : Operation) : (g.fork op).pendingCalls = g.pendingCalls := rfl
@[simp] theorem caseSlot_fork (op : Operation) : (g.fork op).caseSlot = g.caseSlot := rfl
@[simp] theorem here_land (p target : Nat) : (g.land p target).here = g.here := here_fill _ _
@[simp] theorem frames_land (p target : Nat) : (g.land p target).frames = g.frames := rfl
@[simp] theorem session_land (p target : Nat) : (g.land p target).session = g.session := rfl
@[simp] theorem labels_land (p target : Nat) : (g.land p target).labels = g.labels := rfl
@[simp] theorem calls_land (p target : Nat) : (g.land p target).pendingCalls = g.pendingCalls := rfl
@[simp] theorem caseSlot_land (p target : Nat) : (g.land p target).caseSlot = g.caseSlot := rfl

theorem Tidy.fork (tidy : g.Tidy held) (op : Operation) : (g.fork op).Tidy ((g.here + 1) :: held) :=
  tidy.reserve [op.code]

theorem Fits.fork {op : Operation} (tidy : g.Tidy held)
    (fits : Fits M X L (g.fork op) ((g.here + 1) :: held)) :
    Fits M X L g held ∧ M[g.here]? = some op.code := by
  have reserved : Fits M X L (g.push ([op.code] ++ [0])) ((g.here + [op.code].length) :: held) :=
    fits
  obtain ⟨before, cells⟩ := reserved.reserve tidy
  exact ⟨before, cells.1⟩

theorem Tidy.land {p : Nat} (tidy : g.Tidy (p :: held)) (target : Nat) :
    (g.land p target).Tidy held := by
  have single : g.Tidy ([p] ++ held) := tidy
  exact single.fill _

theorem Fits.land {p target : Nat} (tidy : g.Tidy (p :: held))
    (fits : Fits M X L (g.land p target) held) :
    Fits M X L g (p :: held) ∧ M[p]? = some (target : Int) := by
  have single : g.Tidy ([p] ++ held) := tidy
  obtain ⟨before, filled⟩ := fits.fill single
  exact ⟨before, filled p (by simp)⟩

/-! ## Moving slots -/

/-- The order of the held slots does not matter. -/
theorem Tidy.perm {order : List Nat} (tidy : g.Tidy held) (same : held.Perm order) :
    g.Tidy order where
  nodup := (List.Perm.append_left _ same).nodup_iff.mp tidy.nodup
  below p mem := tidy.below p ((List.Perm.append_left _ same).mem_iff.mpr mem)
  neat := tidy.neat
  names := tidy.names
  placed := tidy.placed
  numbers := tidy.numbers
  unknown := tidy.unknown

theorem Fits.perm {order : List Nat} (fits : Fits M X L g held) (same : held.Perm order) :
    Fits M X L g order :=
  ⟨fun i inside free => fits.kept i inside fun mem =>
    free ((List.Perm.append_left _ same).mem_iff.mp mem),
    fits.exits, fits.placed, fits.waiting, fits.calls, fits.functions⟩

section Frames

variable {frames : List JumpFrame} {other : List Nat}

@[simp] theorem here_withFrames : (g.withFrames frames).here = g.here := rfl
@[simp] theorem frames_withFrames : (g.withFrames frames).frames = frames := rfl
@[simp] theorem session_withFrames : (g.withFrames frames).session = g.session := rfl
@[simp] theorem failure_withFrames : (g.withFrames frames).failure = g.failure := rfl
@[simp] theorem labels_withFrames : (g.withFrames frames).labels = g.labels := rfl
@[simp] theorem calls_withFrames : (g.withFrames frames).pendingCalls = g.pendingCalls := rfl

theorem slots_withFrames_perm (order :
      (frames.flatMap JumpFrame.slots ++ other).Perm (g.frames.flatMap JumpFrame.slots ++ held)) :
    ((g.withFrames frames).slots ++ other).Perm (g.slots ++ held) := by
  have turn (a b c d : List Nat) : (a ++ b ++ c ++ d).Perm (a ++ d ++ (b ++ c)) := by
    rw [List.append_assoc, List.append_assoc, List.append_assoc, ← List.append_assoc b]
    exact List.Perm.append_left _ List.perm_append_comm
  exact (turn _ _ _ _).trans ((order.append_right _).trans (turn _ _ _ _).symm)

/-- Slots may move between the frames and the held ones. -/
theorem Tidy.moveFrames (tidy : g.Tidy held) (order :
      (frames.flatMap JumpFrame.slots ++ other).Perm (g.frames.flatMap JumpFrame.slots ++ held))
    (neat : ∀ f ∈ frames, f.Neat) : (g.withFrames frames).Tidy other where
  nodup := (slots_withFrames_perm order).nodup_iff.mpr tidy.nodup
  below p mem := tidy.below p ((slots_withFrames_perm order).mem_iff.mp mem)
  neat := neat
  names := tidy.names
  placed := tidy.placed
  numbers := tidy.numbers
  unknown := tidy.unknown

theorem Fits.moveFrames {Y : List Exit} (fits : Fits M X L (g.withFrames frames) other) (order :
      (frames.flatMap JumpFrame.slots ++ other).Perm (g.frames.flatMap JumpFrame.slots ++ held))
    (exits : List.Forall₂ (FitsExit M) g.frames Y) : Fits M Y L g held :=
  ⟨fun i inside free => fits.kept i inside fun mem =>
    free ((slots_withFrames_perm order).mem_iff.mp mem),
    exits, fits.placed, fits.waiting, fits.calls, fits.functions⟩

end Frames

/-! ## Frames -/

def enter (g : Lowering) (f : JumpFrame) : Lowering := g.withFrames (f :: g.frames)

def leave (g : Lowering) : Lowering := g.withFrames g.frames.tail

/-- The innermost frame. -/
def top (g : Lowering) : JumpFrame := g.frames.headD .loop

/-- The innermost frame gets a slot that leaves it. -/
def breakAt (g : Lowering) (p : Nat) : Lowering :=
  g.withFrames
    (changeFirst (fun _ => true) (fun f => { f with breaks := f.breaks ++ [p] }) g.frames)

/-- The innermost loop gets a slot that goes on with it. -/
def continueAt (g : Lowering) (p : Nat) : Lowering :=
  g.withFrames
    (changeFirst (·.isLoop) (fun f => { f with continues := f.continues ++ [p] }) g.frames)

/-- The innermost switch gets the slot of its last case test. -/
def setCase (g : Lowering) (slot : Option Nat) : Lowering :=
  g.withFrames
    (changeFirst isSwitch (fun f => { f with caseSlot := slot, fallThrough := [] }) g.frames)

section ChangeFirst

variable {p : JumpFrame → Bool} {change : JumpFrame → JumpFrame} {frames : List JumpFrame}
    {f : JumpFrame}

theorem changeFirst_here (first : p f = true) :
    changeFirst p change (f :: frames) = change f :: frames := by
  simp [changeFirst, first]

theorem changeFirst_later (first : ¬ p f = true) :
    changeFirst p change (f :: frames) = f :: changeFirst p change frames := by
  simp [changeFirst, first]

theorem changeFirst_perm {less more : List Nat} (found : frames.find? p = some f)
    (moved : ((change f).slots ++ less).Perm (f.slots ++ more)) :
    ((changeFirst p change frames).flatMap JumpFrame.slots ++ less).Perm
      (frames.flatMap JumpFrame.slots ++ more) := by
  induction frames with
  | nil => simp at found
  | cons k rest ih =>
    by_cases first : p k = true
    · have same : k = f := by simpa [List.find?_cons, first] using found
      subst same
      have turn (a b c : List Nat) : (a ++ b ++ c).Perm (a ++ c ++ b) := by
        rw [List.append_assoc, List.append_assoc]
        exact List.Perm.append_left _ List.perm_append_comm
      rw [changeFirst_here first, List.flatMap_cons, List.flatMap_cons]
      exact (turn _ _ _).trans ((moved.append_right _).trans (turn _ _ _))
    · have later : rest.find? p = some f := by simpa [List.find?_cons, first] using found
      rw [changeFirst_later first, List.flatMap_cons, List.flatMap_cons, List.append_assoc,
        List.append_assoc]
      exact List.Perm.append_left _ (ih later)

theorem neat_changeFirst (neat : ∀ f ∈ frames, f.Neat)
    (keeps : ∀ f, p f = true → f.Neat → (change f).Neat) :
    ∀ f ∈ changeFirst p change frames, f.Neat := by
  induction frames with
  | nil => simp [changeFirst]
  | cons k rest ih =>
    have below := ih fun f mem => neat f (List.mem_cons_of_mem _ mem)
    intro f mem
    by_cases first : p k = true
    · rw [changeFirst_here first, List.mem_cons] at mem
      rcases mem with rfl | old
      · exact keeps k first (neat k List.mem_cons_self)
      · exact neat f (List.mem_cons_of_mem _ old)
    · rw [changeFirst_later first, List.mem_cons] at mem
      rcases mem with rfl | old
      · exact neat f List.mem_cons_self
      · exact below f old

theorem fitsExit_changeFirst (back : ∀ f e, FitsExit M (change f) e → FitsExit M f e)
    (exits : List.Forall₂ (FitsExit M) (changeFirst p change frames) X) :
    List.Forall₂ (FitsExit M) frames X := by
  induction frames generalizing X with
  | nil => exact exits
  | cons k rest ih =>
    by_cases first : p k = true
    · rw [changeFirst_here first] at exits
      cases exits with
      | cons head tail => exact .cons (back _ _ head) tail
    · rw [changeFirst_later first] at exits
      cases exits with
      | cons head tail => exact .cons head (ih tail)

theorem map_changeFirst {β : Type} {read : JumpFrame → β} (same : ∀ f, read (change f) = read f) :
    (changeFirst p change frames).map read = frames.map read := by
  induction frames with
  | nil => rfl
  | cons k rest ih =>
    by_cases first : p k = true
    · simp [changeFirst_here first, same]
    · simp [changeFirst_later first, ih]

theorem caseSlots_eq (frames : List JumpFrame) :
    caseSlots frames = ((frames.map fun f => (f.isLoop, f.caseSlot)).filter (!·.1)).map (·.2) := by
  induction frames with
  | nil => rfl
  | cons k rest ih =>
    simp only [caseSlots] at ih
    cases loop : k.isLoop <;> simp [caseSlots, isSwitch, loop, ih]

/-- A change that keeps the flag and the case test of a frame keeps the tests of all switches. -/
theorem caseSlots_changeFirst
    (same : ∀ f, ((change f).isLoop, (change f).caseSlot) = (f.isLoop, f.caseSlot)) :
    caseSlots (changeFirst p change frames) = caseSlots frames := by
  rw [caseSlots_eq, caseSlots_eq, map_changeFirst same]

theorem caseSlots_setCase (slot : Option Nat) (frames : List JumpFrame) : caseSlots
    (changeFirst isSwitch (fun f => { f with caseSlot := slot, fallThrough := [] }) frames) =
    match caseSlots frames with
      | [] => []
      | _ :: rest => slot :: rest := by
  induction frames with
  | nil => rfl
  | cons k rest ih =>
    by_cases first : isSwitch k = true
    · have still : isSwitch { k with caseSlot := slot, fallThrough := [] } = true := first
      rw [changeFirst_here first, caseSlots, caseSlots, List.filter_cons_of_pos still,
        List.filter_cons_of_pos first]
      rfl
    · rw [changeFirst_later first, caseSlots, caseSlots, List.filter_cons_of_neg first,
        List.filter_cons_of_neg first]
      exact ih

theorem caseSlot_of_find (found : frames.find? isSwitch = some f) :
    (caseSlots frames).head?.join = f.caseSlot := by
  rw [caseSlots, List.head?_map, List.head?_filter, found]
  rfl

end ChangeFirst

/-- Some frame belongs to a switch. -/
def InSwitch (g : Lowering) : Prop := g.frames.any isSwitch = true

/-- Some frame belongs to a loop. -/
def InLoop (g : Lowering) : Prop := g.frames.any (·.isLoop) = true

/-- The kinds of the open frames, innermost first. -/
def shape (g : Lowering) : List Bool := g.frames.map (·.isLoop)

theorem inLoop_iff : g.InLoop ↔ g.shape.any id = true := by
  simp [InLoop, shape]

theorem inSwitch_iff : g.InSwitch ↔ g.shape.any (!·) = true := by
  simp [InSwitch, shape, isSwitch]

theorem find_of_any {p : JumpFrame → Bool} {frames : List JumpFrame} (some : frames.any p = true) :
    ∃ f, frames.find? p = Option.some f := by
  rw [List.any_eq_true] at some
  exact Option.isSome_iff_exists.mp (List.find?_isSome.mpr some)

theorem Tidy.enter {f : JumpFrame} (tidy : g.Tidy held) (fresh : f.slots = []) (neat : f.Neat) :
    (g.enter f).Tidy held := by
  refine tidy.moveFrames (by rw [List.flatMap_cons, fresh, List.nil_append]) fun k mem => ?_
  rcases List.mem_cons.mp mem with rfl | old
  · exact neat
  · exact tidy.neat k old

theorem Fits.enter {f : JumpFrame} {e : Exit} (fresh : f.slots = [])
    (fits : Fits M (e :: X) L (g.enter f) held) : Fits M X L g held := by
  refine Fits.moveFrames fits (by rw [List.flatMap_cons, fresh, List.nil_append]) ?_
  cases fits.exits with
  | cons _ tail => exact tail

/-- The slots of a frame are held when the frame is left. -/
theorem Tidy.leave {f : JumpFrame} {rest : List JumpFrame} (tidy : g.Tidy held)
    (frames : g.frames = f :: rest) : g.leave.Tidy (f.slots ++ held) := by
  have order : (rest.flatMap JumpFrame.slots ++ (f.slots ++ held)).Perm
      (g.frames.flatMap JumpFrame.slots ++ held) := by
    rw [frames, List.flatMap_cons, List.append_assoc]
    exact List.perm_append_comm_assoc _ _ _
  have gone : g.frames.tail = rest := by rw [frames, List.tail_cons]
  rw [Lowering.leave, gone]
  exact tidy.moveFrames order fun k mem =>
    tidy.neat k (by rw [frames]; exact List.mem_cons_of_mem _ mem)

theorem Fits.leave {f : JumpFrame} {rest : List JumpFrame} {e : Exit}
    (frames : g.frames = f :: rest) (fits : Fits M X L g.leave (f.slots ++ held))
    (exit : FitsExit M f e) : Fits M (e :: X) L g held := by
  have gone : g.frames.tail = rest := by rw [frames, List.tail_cons]
  rw [Lowering.leave, gone] at fits
  refine fits.moveFrames ?_ (by rw [frames]; exact .cons exit fits.exits)
  rw [frames, List.flatMap_cons, List.append_assoc]
  exact List.perm_append_comm_assoc _ _ _

theorem breakAt_perm {p : Nat} (some : g.frames ≠ []) :
    ((g.breakAt p).frames.flatMap JumpFrame.slots ++ held).Perm
      (g.frames.flatMap JumpFrame.slots ++ p :: held) := by
  obtain ⟨f, found⟩ : ∃ f, g.frames.find? (fun _ => true) = Option.some f := by
    cases frames : g.frames with
    | nil => exact absurd frames some
    | cons f _ => exact ⟨f, rfl⟩
  refine changeFirst_perm found ?_
  have turn (a b c : List Nat) : (a ++ [p] ++ b ++ c ++ held).Perm (a ++ b ++ c ++ p :: held) := by
    simp only [List.append_assoc, List.singleton_append]
    refine List.Perm.append_left _ ?_
    rw [← List.append_assoc, ← List.append_assoc]
    exact List.perm_middle.symm
  exact turn _ _ _

theorem Tidy.breakAt {p : Nat} (tidy : g.Tidy (p :: held)) (some : g.frames ≠ []) :
    (g.breakAt p).Tidy held :=
  tidy.moveFrames (breakAt_perm some)
    (neat_changeFirst tidy.neat fun _ _ neat => ⟨neat.falls, neat.loop, neat.switch⟩)

theorem Fits.breakAt {p : Nat} (fits : Fits M X L (g.breakAt p) held) (some : g.frames ≠ []) :
    Fits M X L g (p :: held) ∧ ∃ e Y, X = e :: Y ∧ M[p]? = Option.some e.breakTo := by
  have exits := fits.exits
  refine ⟨fits.moveFrames (breakAt_perm some) (fitsExit_changeFirst (fun f e exit => ?_) exits), ?_⟩
  · exact ⟨exit.isLoop, fun q mem => exit.breaks q (List.mem_append_left _ mem), exit.continues⟩
  · cases frames : g.frames with
    | nil => exact absurd frames some
    | cons f rest =>
      rw [Lowering.breakAt, frames_withFrames, frames, changeFirst_here rfl] at exits
      cases exits with
      | @cons _ e _ Y head _ => exact ⟨e, Y, rfl, head.breaks p (by simp)⟩

theorem continueAt_perm {p : Nat} (inside : g.InLoop) :
    ((g.continueAt p).frames.flatMap JumpFrame.slots ++ held).Perm
      (g.frames.flatMap JumpFrame.slots ++ p :: held) := by
  obtain ⟨f, found⟩ := find_of_any inside
  refine changeFirst_perm found ?_
  have turn (a b c : List Nat) :
    (a ++ (b ++ [p]) ++ c ++ held).Perm (a ++ b ++ c ++ p :: held) := by
    simp only [List.append_assoc, List.singleton_append]
    refine List.Perm.append_left _ (List.Perm.append_left _ ?_)
    exact List.perm_middle.symm
  exact turn _ _ _

theorem Tidy.continueAt {p : Nat} (tidy : g.Tidy (p :: held)) (inside : g.InLoop) :
    (g.continueAt p).Tidy held :=
  tidy.moveFrames (continueAt_perm inside)
    (neat_changeFirst tidy.neat fun _ loop neat =>
      ⟨neat.falls, neat.loop, fun switch => absurd (loop.symm.trans switch) (by decide)⟩)

/-- The exit that the innermost loop has in a finished memory stands behind those of the switches in
between. -/
theorem exits_of_continue {p : Nat} {frames : List JumpFrame}
    (inside : frames.any (·.isLoop) = true) (exits : List.Forall₂ (FitsExit M)
      (changeFirst (·.isLoop) (fun f => { f with continues := f.continues ++ [p] }) frames) X) :
    ∃ switches e Y, X = switches ++ e :: Y ∧ (∀ x ∈ switches, Exit.isLoop x = false) ∧
    e.isLoop = true ∧ switches.length = (frames.takeWhile fun f => !f.isLoop).length ∧
    M[p]? = some e.continueTo := by
  induction frames generalizing X with
  | nil => simp at inside
  | cons f rest ih =>
    by_cases loop : f.isLoop = true
    · rw [changeFirst_here (p := (·.isLoop)) loop] at exits
      cases exits with
      | @cons _ e _ Y head _ =>
        exact ⟨[], e, Y, rfl, by simp, head.isLoop.trans loop, by simp [loop],
          head.continues p (by simp)⟩
    · rw [changeFirst_later (p := (·.isLoop)) loop] at exits
      have later : rest.any (·.isLoop) = true := by simpa [loop] using inside
      cases exits with
      | @cons _ x _ Y head tail =>
        obtain ⟨switches, e, Z, rfl, all, found, count, filled⟩ := ih later tail
        have plain : f.isLoop = false := by simpa using loop
        refine ⟨x :: switches, e, Z, rfl, fun y mem => ?_, found, by simp [plain, count], filled⟩
        rcases List.mem_cons.mp mem with rfl | old
        · exact head.isLoop.trans plain
        · exact all y old

theorem Fits.continueAt {p : Nat} (fits : Fits M X L (g.continueAt p) held) (inside : g.InLoop) :
    Fits M X L g (p :: held) ∧
      ∃ switches e Y, X = switches ++ e :: Y ∧ (∀ x ∈ switches, Exit.isLoop x = false) ∧
        e.isLoop = true ∧ switches.length = (g.frames.takeWhile fun f => !f.isLoop).length ∧
        M[p]? = some e.continueTo := by
  refine ⟨fits.moveFrames (continueAt_perm inside)
    (fitsExit_changeFirst (fun f e exit => ?_) fits.exits), exits_of_continue inside fits.exits⟩
  exact ⟨exit.isLoop, exit.breaks, fun q mem => exit.continues q (List.mem_append_left _ mem)⟩

theorem setCase_perm {slot : Option Nat} (inside : g.InSwitch) :
    ((g.setCase slot).frames.flatMap JumpFrame.slots ++ (g.caseSlot.toList ++ held)).Perm
      (g.frames.flatMap JumpFrame.slots ++ (slot.toList ++ held)) := by
  obtain ⟨f, found⟩ := find_of_any inside
  rw [show g.caseSlot = f.caseSlot from caseSlot_of_find found]
  refine changeFirst_perm found ?_
  have turn (a b c : List Nat) : (a ++ b ++ (c ++ held)).Perm (a ++ c ++ (b ++ held)) := by
    rw [List.append_assoc, List.append_assoc]
    exact List.Perm.append_left _ (List.perm_append_comm_assoc _ _ _)
  exact turn _ _ _

/-- The slot of the last case test is exchanged with a held one. -/
theorem Tidy.setCase (slot : Option Nat) (tidy : g.Tidy (slot.toList ++ held))
    (inside : g.InSwitch) : (g.setCase slot).Tidy (g.caseSlot.toList ++ held) :=
  tidy.moveFrames (setCase_perm inside)
    (neat_changeFirst tidy.neat fun f switch neat =>
      ⟨rfl, fun loop => absurd (show f.isLoop = true from loop) (by simpa [isSwitch] using switch),
        neat.switch⟩)

theorem Fits.setCase (slot : Option Nat)
    (fits : Fits M X L (g.setCase slot) (g.caseSlot.toList ++ held)) (inside : g.InSwitch) :
    Fits M X L g (slot.toList ++ held) := by
  have back (f : JumpFrame) (e : Exit)
      (exit : FitsExit M { f with caseSlot := slot, fallThrough := [] } e) : FitsExit M f e :=
    ⟨exit.isLoop, exit.breaks, exit.continues⟩
  exact fits.moveFrames (setCase_perm inside) (fitsExit_changeFirst back fits.exits)

/-! ### The kinds of frames and the case tests -/

@[simp] theorem shape_push (cells : List Int) : (g.push cells).shape = g.shape := rfl
@[simp] theorem shape_fill (ps : List Nat) (target : Int) : (g.fill ps target).shape = g.shape :=
  rfl
@[simp] theorem shape_fork (op : Operation) : (g.fork op).shape = g.shape := rfl
@[simp] theorem shape_land (p target : Nat) : (g.land p target).shape = g.shape := rfl
@[simp] theorem shape_enter (f : JumpFrame) : (g.enter f).shape = f.isLoop :: g.shape := rfl
@[simp] theorem shape_leave : g.leave.shape = g.shape.tail := by simp [shape, leave]

@[simp] theorem shape_breakAt (p : Nat) : (g.breakAt p).shape = g.shape :=
  map_changeFirst fun _ => rfl

@[simp] theorem shape_continueAt (p : Nat) : (g.continueAt p).shape = g.shape :=
  map_changeFirst fun _ => rfl

@[simp] theorem shape_setCase (slot : Option Nat) : (g.setCase slot).shape = g.shape :=
  map_changeFirst fun _ => rfl

/-- The case tests of the open switches. -/
def tests (g : Lowering) : List (Option Nat) := caseSlots g.frames

theorem caseSlot_eq : g.caseSlot = g.tests.head?.join := rfl

@[simp] theorem tests_push (cells : List Int) : (g.push cells).tests = g.tests := rfl
@[simp] theorem tests_fill (ps : List Nat) (target : Int) : (g.fill ps target).tests = g.tests :=
  rfl
@[simp] theorem tests_fork (op : Operation) : (g.fork op).tests = g.tests := rfl
@[simp] theorem tests_land (p target : Nat) : (g.land p target).tests = g.tests := rfl
@[simp] theorem tests_breakAt (p : Nat) : (g.breakAt p).tests = g.tests :=
  caseSlots_changeFirst fun _ => rfl

@[simp] theorem tests_continueAt (p : Nat) : (g.continueAt p).tests = g.tests :=
  caseSlots_changeFirst fun _ => rfl

@[simp] theorem tests_enter_loop : (g.enter .loop).tests = g.tests := rfl
@[simp] theorem tests_enter_switch : (g.enter .switch).tests = none :: g.tests := rfl

theorem tests_leave {f : JumpFrame} {rest : List JumpFrame} (frames : g.frames = f :: rest) :
    g.leave.tests = if f.isLoop then g.tests else g.tests.tail := by
  rw [leave, tests, tests, frames_withFrames, frames, List.tail_cons]
  cases loop : f.isLoop <;> simp [caseSlots, isSwitch, loop]

theorem tests_ne_nil (inside : g.InSwitch) : ∃ slot rest, g.tests = slot :: rest := by
  obtain ⟨f, found⟩ := find_of_any inside
  have first := List.head?_filter (p := isSwitch) (l := g.frames)
  rw [found] at first
  cases all : g.frames.filter isSwitch with
  | nil => simp [all] at first
  | cons k rest => exact ⟨k.caseSlot, rest.map (·.caseSlot), by simp [tests, caseSlots, all]⟩

theorem tests_setCase {slot old : Option Nat} {rest : List (Option Nat)}
    (tests : g.tests = old :: rest) : (g.setCase slot).tests = slot :: rest := by
  have set := caseSlots_setCase slot g.frames
  rw [show caseSlots g.frames = old :: rest from tests] at set
  exact set

end Lowering

end BilingualC
