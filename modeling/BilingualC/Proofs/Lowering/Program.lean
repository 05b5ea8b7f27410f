import Mathlib
import BilingualC.Proofs.Lowering.Names
import BilingualC.Proofs.Lowering.Statement

/-!
# Code of whole programs

The parts of a program are lowered one after the other. When a function starts, the slots that wait
for its address are filled; when its body ends, all its labels are placed. So no slot is open
between two parts except those of calls, and none at all when every called function has been
defined.

`generate_wellFormed`: the generator makes an image of a well-formed program, and the memory of the
image holds the code of every part.
-/

namespace BilingualC

namespace Lowering

variable {g : Lowering} {held : List Nat} {M : List Int} {X : List Exit} {L : Links} {number : Int}

/-! ## The start of a function -/

/-- The session with the address of a function. -/
def withAddress (s : Session) (number address : Int) : Session :=
  { s with functions := s.functions.setIfInBounds number.toNat address }

/-- A function starts here: the slots that wait for it are filled. -/
def startAt (g : Lowering) (number : Int) : Lowering :=
  { (g.withCalls (g.pendingCalls.filter fun e => e.1 != number)).fill
      ((g.pendingCalls.lookup number).getD []) g.here with
    session := withAddress g.session number g.here }

@[simp] theorem here_startAt : (g.startAt number).here = g.here := size_foldl_set _ _ _
@[simp] theorem frames_startAt : (g.startAt number).frames = g.frames := rfl
@[simp] theorem labels_startAt : (g.startAt number).labels = g.labels := rfl
@[simp] theorem failure_startAt : (g.startAt number).failure = g.failure := rfl

theorem functionAddress_same {s : Session} (low : 0 ≤ number) (high : number < s.functions.size)
    (address : Int) : (withAddress s number address).functionAddress number = address := by
  have inside : number.toNat < s.functions.size := by omega
  simp [Session.functionAddress, withAddress, inTable, low, high, inside]

theorem functionAddress_ne {s : Session} {n : Int} (low : 0 ≤ number) (ne : n ≠ number)
    (address : Int) : (withAddress s number address).functionAddress n = s.functionAddress n := by
  rw [Session.functionAddress, Session.functionAddress]
  by_cases inside : inTable s.functions.size n = true
  · have other : number.toNat ≠ n.toNat := by
      simp only [inTable, Bool.and_eq_true, decide_eq_true_eq] at inside
      omega
    simp [withAddress, inside, other]
  · simp [withAddress, inside]

theorem yields_startFunction (low : 0 ≤ number) (high : number < g.session.functions.size) :
    Yields (startFunction number) g () (g.startAt number) := by
  have set :
    g.session.setFunctionAddress number g.here = .ok (withAddress g.session number g.here) := by
    rw [Session.setFunctionAddress, setCellAt_of_lt _ low (by omega)]
    rfl
  refine (yields_pc g).bind ((yields_get g).bind ((yields_lift set g).bind ?_))
  exact Yields.bind (a := ()) rfl ((yields_get _).bind rfl)

/-- The slots of one function and those of the others. -/
theorem pending_perm {calls : List (Int × List Nat)}
    (numbers : (calls.map (·.1)).Nodup) (number : Int) : (calls.flatMap (·.2)).Perm
    ((calls.lookup number).getD [] ++ (calls.filter fun e => e.1 != number).flatMap (·.2)) := by
  induction calls with
  | nil => exact .nil
  | cons e rest ih =>
    obtain ⟨k, slots⟩ := e
    obtain ⟨fresh, later⟩ := List.nodup_cons.mp numbers
    by_cases same : k = number
    · have none : ∀ e ∈ rest, (e.1 != number) = true := fun e mem => by
        simpa [← same] using fun eq => fresh (List.mem_map.mpr ⟨e, mem, eq⟩)
      have kept : rest.filter (fun e => e.1 != number) = rest := List.filter_eq_self.mpr none
      have found : List.lookup number ((k, slots) :: rest) = some slots := by
        simp [List.lookup, same]
      rw [found, List.filter_cons_of_neg (by simp [same]), kept, List.flatMap_cons]
      exact .refl _
    · have other : (number == k) = false := by simpa using Ne.symm same
      have found : List.lookup number ((k, slots) :: rest) = rest.lookup number := by
        simp [List.lookup, other]
      rw [found, List.filter_cons_of_pos (by simpa using same), List.flatMap_cons,
        List.flatMap_cons]
      exact ((ih later).append_left _).trans (List.perm_append_comm_assoc _ _ _)

theorem slots_startAt_perm (numbers : (g.pendingCalls.map (·.1)).Nodup) (number : Int)
    (held : List Nat) : ((g.withCalls (g.pendingCalls.filter fun e => e.1 != number)).slots ++
      ((g.pendingCalls.lookup number).getD [] ++ held)).Perm (g.slots ++ held) := by
  rw [List.perm_iff_count]
  intro p
  have split := List.perm_iff_count.mp (pending_perm numbers number) p
  simp only [slots, withCalls, List.count_append] at split ⊢
  omega

/-- The slots that wait for a function are held when it starts. -/
theorem Tidy.release (tidy : g.Tidy held) (number : Int) :
    (g.withCalls (g.pendingCalls.filter fun e => e.1 != number)).Tidy
      ((g.pendingCalls.lookup number).getD [] ++ held) := by
  have order := slots_startAt_perm tidy.numbers number held
  exact ⟨order.nodup_iff.mpr tidy.nodup, fun p mem => tidy.below p (order.mem_iff.mp mem),
    tidy.neat, tidy.names, tidy.placed, tidy.numbers.sublist (List.filter_sublist.map _),
    fun e mem => tidy.unknown e (List.mem_of_mem_filter mem)⟩

theorem Tidy.startAt (tidy : g.Tidy held) (low : 0 ≤ number) : (g.startAt number).Tidy held := by
  have filled := (tidy.release number).fill g.here
  refine ⟨filled.nodup, filled.below, filled.neat, filled.names, filled.placed, filled.numbers,
    fun e mem => ?_⟩
  have other : e.1 ≠ number := by simpa using List.of_mem_filter mem
  exact (functionAddress_ne low other _).trans (tidy.unknown e (List.mem_of_mem_filter mem))

theorem Fits.startAt (tidy : g.Tidy held) (low : 0 ≤ number)
    (high : number < g.session.functions.size)
    (unknown : g.session.functionAddress number = 0) (pos : 0 < g.here)
    (fits : Fits M X L (g.startAt number) held) : Fits M X L g held ∧
    L.function number = g.here := by
  have order := slots_startAt_perm tidy.numbers number held
  have entry : L.function number = g.here := by
    have known := functionAddress_same low high g.here
    have set := fits.functions number
    rw [show (g.startAt number).session = withAddress g.session number g.here from rfl,
      known] at set
    exact set (by omega)
  have others (n : Int) (known : g.session.functionAddress n ≠ 0) :
      L.function n = g.session.functionAddress n := by
    have other : n ≠ number := fun same => known (same ▸ unknown)
    have set := fits.functions n
    rw [show (g.startAt number).session = withAddress g.session number g.here from rfl,
      functionAddress_ne low other] at set
    exact set known
  have same : Fits M X L ((g.withCalls (g.pendingCalls.filter fun e => e.1 != number)).fill
      ((g.pendingCalls.lookup number).getD []) g.here) held :=
    ⟨fits.kept, fits.exits, fits.placed, fits.waiting, fits.calls, others⟩
  obtain ⟨before, filled⟩ := same.fill (tidy.release number)
  refine ⟨⟨fun i inside free => before.kept i inside fun mem => free (order.mem_iff.mp mem),
    before.exits, before.placed, before.waiting, fun e mem p waits => ?_, before.functions⟩, entry⟩
  by_cases this : e.1 = number
  · have found : g.pendingCalls.lookup number = some e.2 := by
      obtain ⟨front, back, split⟩ := List.append_of_mem mem
      refine List.lookup_eq_some_iff.mpr ⟨front, back, by rw [split, ← this], fun k early => ?_⟩
      have apart := tidy.numbers
      rw [split, List.map_append, List.nodup_append] at apart
      rw [← this]
      have ne := apart.2.2 k.1 (List.mem_map_of_mem early) e.1 (by simp)
      simpa using Ne.symm ne
    rw [found, Option.getD_some] at filled
    rw [this, entry]
    exact filled p waits
  · exact before.calls e (List.mem_filter.mpr ⟨mem, by simpa using this⟩) p waits

/-! ## Labels between functions -/

/-- Every known label is placed. -/
def Settled (g : Lowering) : Prop := ∀ l ∈ g.labels, l.address.isSome = true

/-- After code that places the labels it jumps to, every label is placed. -/
theorem Settled.follows {h : Lowering} {ls gs cs : List Int}
    (settled : g.Settled) (tidy : h.Tidy held)
    (step : Follows ls gs cs g h) (placed : ∀ id ∈ gs, id ∈ ls) : h.Settled := by
  intro l mem
  have same : h.labelOf l.identifier = l := labelOf_of_mem tidy.names mem
  by_cases here : l.identifier ∈ ls
  · rw [← same]
    exact step.placed _ here
  · rcases step.known l mem with old | jumped | new
    · rw [← same, step.address _ here]
      rcases labelOf_cases g l.identifier with known | ⟨_, none⟩
      · exact settled _ known
      · obtain ⟨k, there, name⟩ := List.mem_map.mp old
        exact absurd name (none k there)
    · exact absurd (placed _ jumped) here
    · exact absurd new here

theorem Tidy.forgetLabels (tidy : g.Tidy held) (settled : g.Settled) :
    (g.withLabels []).Tidy held := by
  have none : g.labels.flatMap (·.waiting) = [] := by
    rw [List.flatMap_eq_nil_iff]
    exact fun l mem => tidy.placed l mem (settled l mem)
  have slots : (g.withLabels []).slots = g.slots := by simp [Lowering.slots, withLabels, none]
  refine ⟨?_, ?_, tidy.neat, List.nodup_nil, by simp [withLabels], tidy.numbers, tidy.unknown⟩
  · rw [slots]
    exact tidy.nodup
  · rw [slots]
    exact tidy.below

/-- The labels of a finished function have the addresses at which they were placed. -/
theorem Fits.forgetLabels (tidy : g.Tidy held) (settled : g.Settled)
    (fits : Fits M X L (g.withLabels []) held) :
    Fits M X ⟨fun id => (g.labelOf id).address.getD 0, L.function⟩ g held := by
  have none : g.labels.flatMap (·.waiting) = [] := by
    rw [List.flatMap_eq_nil_iff]
    exact fun l mem => tidy.placed l mem (settled l mem)
  have slots : (g.withLabels []).slots = g.slots := by simp [Lowering.slots, withLabels, none]
  refine ⟨fun i inside free => fits.kept i inside (slots ▸ free), fits.exits, ?_, ?_, fits.calls,
    fits.functions⟩
  · intro l mem a known
    show (g.labelOf l.identifier).address.getD 0 = a
    rw [labelOf_of_mem tidy.names mem, Option.mem_def.mp known]
    rfl
  · intro l mem p waits
    rw [tidy.placed l mem (settled l mem)] at waits
    exact absurd waits List.not_mem_nil

end Lowering

open Lowering

/-! ## Parts of a program -/

/-- The state in which the body of a function is lowered. -/
def openFunction (s : Session) (r : Rose) (g : Lowering) : Lowering :=
  ((g.startAt (s.displacementOf (r.arg 0))).push [Operation.code .functionStart, r.arg 1,
    0]).withLabels []

/-- Appends the code of a function. -/
def putFunction (s : Session) (r body : Rose) (g : Lowering) : Lowering :=
  let done := (body.toStatement s).put (openFunction s r g)
  (done.push [Operation.code .returnVoid]).land (g.here + 2) (done.here + 1)

/-- A memory holds a function between two addresses: its start with the size of its frame and the
address behind it, its body, and a return. -/
structure FunctionAt (M : List Int) (L : Links) (s : Session) (r body : Rose)
    (a b : Nat) : Prop where
  entry : L.function (s.displacementOf (r.arg 0)) = a
  start : CellsAt M a [Operation.code .functionStart, r.arg 1, b]
  code : ∃ m, Lay M L [] none (body.toStatement s) (a + 3) m none ∧
    CellsAt M m [Operation.code .returnVoid] ∧ b = m + 1

/-- A memory holds the parts of a program one after the other. A label that no later function places
has its final address. -/
inductive PartsAt (M : List Int) (L : Links) (s : Session) : List Rose → Nat → Nat → Prop
  | nil {a : Nat} : PartsAt M L s [] a a
  | declaration {r : Rose} {rest : List Rose} {a m b : Nat} (form : r.IsDeclaration)
      (code : ∃ label, Lay M ⟨label, L.function⟩ [] none (r.toStatement s) a m none)
      (later : PartsAt M L s rest m b) : PartsAt M L s (r :: rest) a b
  | function {r body : Rose} {rest : List Rose} {a m b : Nat} {label : Int → Int}
      (form : r.IsFunction body) (code : FunctionAt M ⟨label, L.function⟩ s r body a m)
      (final : ∀ id ∈ r.collect .label, (∀ x ∈ rest, id ∉ x.collect .label) → label id = L.label id)
      (later : PartsAt M L s rest m b) : PartsAt M L s (r :: rest) a b

/-- The state of the generator between two parts. -/
structure Between (s : Session) (g : Lowering) : Prop where
  seen : s.Seen g.session
  tidy : g.Tidy []
  frames : g.frames = []
  settled : g.Settled
  failure : g.failure = none
  start : 0 < g.here

/-- What the generator needs of a part. -/
structure PartOk (s : Session) (depth : Nat) (r : Rose) : Prop where
  has : s.tree.Has r
  ok : s.Accepts r
  deep : 5 * r.height ≤ depth
  labels : (r.collect .label).Nodup
  jumps : ∀ id ∈ r.collect .jump, id ∈ r.collect .label

section Parts

variable {s : Session} {r body : Rose} {g : Lowering} {depth : Nat} {M : List Int} {L : Links}

theorem seen_withAddress {t : Session} (seen : s.Seen t) (number address : Int) :
    s.Seen (withAddress t number address) where
  tree := seen.tree
  types := seen.types
  strings := seen.strings
  identifiers := seen.identifiers
  functions := Array.size_setIfInBounds.trans seen.functions
  main := seen.main
  kind := seen.kind
  type := seen.type
  displacement := seen.displacement
  entry := seen.entry
  spellings := seen.spellings
  journal := seen.journal

theorem collect_function (form : r.IsFunction body) {k : Kind} (names : k = .label ∨ k = .jump) :
    r.collect k = body.collect k := by
  have other : r.kind ≠ k := by
    rw [form.kind]
    rcases names with rfl | rfl <;> decide
  rw [Rose.collect_other other, form.kids, List.flatMap_singleton]

/-- The labels of a function are those of its body. -/
theorem names_function (form : r.IsFunction body) (s : Session) :
    (body.toStatement s).labels = r.collect .label ∧
    (body.toStatement s).gotos = r.collect .jump := by
  obtain ⟨labels, gotos⟩ := Rose.names_statement form.body s
  exact ⟨labels.trans (collect_function form (.inl rfl)).symm,
    gotos.trans (collect_function form (.inr rfl)).symm⟩

theorem here_open : (openFunction s r g).here = g.here + 3 := by
  show ((g.startAt _).push _).here = _
  rw [here_push, here_startAt]
  rfl

/-- The slot for the end of the function is held while its body is lowered. -/
theorem tidy_open (between : Between s g) (form : r.IsFunction body) (part : PartOk s depth r) :
    (openFunction s r g).Tidy [g.here + 2] := by
  obtain ⟨_, low, _⟩ := part.ok.self.function form.kind
  have reserved := (between.tidy.startAt low).reserve [Operation.code .functionStart, r.arg 1]
  rw [here_startAt] at reserved
  exact reserved.forgetLabels between.settled

theorem lands_body (form : r.IsFunction body) (part : PartOk s depth r) (g : Lowering) :
    Lands (body.toStatement s) (openFunction s r g) := by
  obtain ⟨labels, _⟩ := names_function form s
  exact lands (Rose.proper_statement form.body s) _ (.nothing _) ⟨labels ▸ part.labels,
    fun id _ => rfl⟩

theorem makes_body (form : r.IsFunction body) (part : PartOk s depth r)
    (sound : 0 < s.types.cells.size) : Stated s false false depth body := by
  have child : body ∈ r.children := by simp [form.kids]
  have low := Rose.height_child child
  have deep := part.deep
  exact makes_statement form.body (part.has.child child)
    (part.ok.child child) sound depth (by omega)

theorem yields_function (between : Between s g) (form : r.IsFunction body) (part : PartOk s depth r)
    (sound : 0 < s.types.cells.size) :
    Yields (functionDefinition depth (s.tree.handle r.index)) g () (putFunction s r body g) := by
  obtain ⟨kind, low, high⟩ := part.ok.self.function form.kind
  have seen := between.seen
  have number : (g.session.identifier (r.arg 0)).displacement = s.displacementOf (r.arg 0) :=
    seen.displacement _ (by simp [kind])
  have started := yields_startFunction (g := g) low (seen.functions ▸ high)
  have seen₁ : s.Seen (g.startAt (s.displacementOf (r.arg 0))).session := seen_withAddress seen _ _
  have seen₂ : s.Seen (openFunction s r g).session := seen₁
  have slot := yields_slot ((g.startAt (s.displacementOf (r.arg 0))).push
    [Operation.code .functionStart, r.arg 1])
  have last := yields_land (g.here + 2)
    (((body.toStatement s).put (openFunction s r g)).push [Operation.code .returnVoid])
  rw [here_push, here_startAt, push_push] at slot
  rw [here_push] at last
  refine (Answers.tree g seen).bind ((yields_get g).bind ((Answers.arg part.has 0 g seen).bind ?_))
  rw [number]
  refine started.bind
    ((Answers.arg part.has 1 _ seen₁).bind ((yields_emitOp _ _ _).bind (slot.bind ?_)))
  refine Yields.bind (a := ()) rfl
    ((Answers.first part.has form.kids _ seen₂).bind ?_)
  exact ((makes_body form part sound).run _ seen₂ (.nothing _)).bind
    ((yields_emitOp _ _ _).bind last)

theorem frames_put_nil {c : Piece} (empty : g.frames = []) : (c.put g).frames = [] := by
  have shape := shape_put c g
  rw [Lowering.shape, Lowering.shape, empty] at shape
  exact List.map_eq_nil_iff.mp shape

theorem caseSlot_nil (empty : g.frames = []) : g.caseSlot = none := by
  rw [Lowering.caseSlot, empty]
  rfl

theorem between_function (between : Between s g)
    (form : r.IsFunction body) (part : PartOk s depth r)
    (sound : 0 < s.types.cells.size) : Between s (putFunction s r body g) := by
  obtain ⟨labels, gotos⟩ := names_function form s
  have done := (lands_body form part g).tidy (tidy_open between form part)
  have follows := follows_put (body.toStatement s) (openFunction s r g)
  have settled : ((body.toStatement s).put (openFunction s r g)).Settled := by
    refine Settled.follows (g := openFunction s r g) nofun done follows fun id jumped => ?_
    rw [labels]
    exact part.jumps id (gotos ▸ jumped)
  have seen : s.Seen (openFunction s r g).session := seen_withAddress between.seen _ _
  refine ⟨(makes_body form part sound).seen seen, (done.push _).land _, ?_, settled,
    follows.failure.trans between.failure, ?_⟩
  · exact frames_put_nil (g := openFunction s r g) between.frames
  · rw [putFunction, here_land, here_push]
    exact Nat.lt_of_lt_of_le Nat.zero_lt_one (Nat.le_add_left _ _)

theorem lays_function (between : Between s g) (form : r.IsFunction body) (part : PartOk s depth r)
    (unknown : g.session.functionAddress (s.displacementOf (r.arg 0)) = 0)
    (fits : Fits M [] L (putFunction s r body g) []) :
    ∃ label, Fits M [] ⟨label, L.function⟩ g [] ∧
      FunctionAt M L s r body g.here (putFunction s r body g).here := by
  obtain ⟨_, low, high⟩ := part.ok.self.function form.kind
  have inside : s.displacementOf (r.arg 0) < g.session.functions.size :=
    between.seen.functions ▸ high
  have opened := tidy_open between form part
  have lands := lands_body form part g
  have done := lands.tidy opened
  obtain ⟨pushed, stop⟩ := Fits.land (done.push _) fits
  obtain ⟨finished, back⟩ := pushed.push done
  obtain ⟨before, code⟩ := lands.lays opened finished
  have started := between.tidy.startAt low
  have reserved := started.reserve [Operation.code .functionStart, r.arg 1]
  have slot : (g.startAt (s.displacementOf (r.arg 0))).here + 2 = g.here + 2 := by rw [here_startAt]
  rw [← slot] at before
  obtain ⟨labelled, head⟩ := (Fits.forgetLabels reserved between.settled before).reserve started
  obtain ⟨begun, entry⟩ := labelled.startAt between.tidy low inside unknown between.start
  have empty : (openFunction s r g).frames = [] := between.frames
  have stopAt :
    (putFunction s r body g).here = ((body.toStatement s).put (openFunction s r g)).here + 1 := by
    rw [putFunction, here_land, here_push]
    rfl
  rw [here_startAt] at head
  rw [caseSlot_nil empty, here_open, caseSlot_nil (frames_put_nil empty)] at code
  rw [stopAt]
  exact ⟨_, begun, entry, ⟨head.1, head.2.1, stop, trivial⟩, _, code, back, rfl⟩

/-- The labels of a function have their addresses as displacements when its code is finished. -/
theorem marked_function (form : r.IsFunction body) (part : PartOk s depth r) (between : Between s g)
    (fits : Fits M X L (putFunction s r body g) held) {id : Int} (mem : id ∈ r.collect .label) :
    L.label id = (putFunction s r body g).session.displacementOf id := by
  obtain ⟨labels, -⟩ := names_function form s
  obtain ⟨x, found, rfl⟩ := List.mem_map.mp mem
  obtain ⟨inside, kind⟩ := List.mem_filter.mp found
  obtain ⟨low, high, -⟩ := (part.ok x inside).label (by simpa using kind)
  have seen : s.Seen (openFunction s r g).session := seen_withAddress between.seen _ _
  have marked := (follows_put (body.toStatement s) (openFunction s r g)).marked _ (labels ▸ mem) low
    (seen.identifiers ▸ high)
  rcases labelOf_cases ((body.toStatement s).put (openFunction s r g)) (x.arg 0)
    with known | ⟨none, -⟩
  · have placed := fits.placed _ known _ (Option.mem_def.mpr marked)
    rwa [identifier_labelOf] at placed
  · rw [none] at marked
    cases marked

/-! ## Declarations outside of functions -/

/-- Code is appended at the end of memory. -/
theorem here_le_put {c : Piece} (flat : c.Flat) (g : Lowering) : g.here ≤ (c.put g).here := by
  induction c generalizing g with
  | skip => exact Nat.le_refl _
  | plain _ _ | text _ =>
    rw [Piece.put, here_push]
    exact Nat.le_add_right _ _
  | call number =>
    rw [Piece.put, here_callTo]
    exact Nat.le_add_right _ _
  | seq c d first second => exact (first flat.1 g).trans (second flat.2 _)
  | choose t y n test yes no =>
    have first := test flat.1 g
    have second := yes flat.2.1 ((t.put g).fork .branchIfZero)
    have third := no flat.2.2 (((y.put ((t.put g).fork .branchIfZero)).fork .branch).land
      ((t.put g).here + 1) ((y.put ((t.put g).fork .branchIfZero)).here + 2))
    simp only [here_land, here_fork] at second third
    rw [Piece.put, here_land]
    omega
  | short test last l r left right =>
    have first := left flat.2.2.1 g
    have second := right flat.2.2.2 (((l.put g).push [Operation.code .duplicate]).fork test)
    simp only [here_fork, here_push] at second
    rw [Piece.put, here_land, here_push]
    omega
  | _ => exact flat.elim

theorem between_declaration (between : Between s g)
    (form : r.IsDeclaration) (part : PartOk s depth r)
    (sound : 0 < s.types.cells.size) : Between s ((r.toStatement s).put g) := by
  have flat := Rose.flat_declaration form s
  have deep := part.deep
  have makes := makes_declaration form part.has part.ok sound (d := depth) (by omega)
  have follows := follows_put (r.toStatement s) g
  have tidy :=
    (lands (flat.proper false false) g (.nothing _) (flat.labels ▸ .nil g)).tidy between.tidy
  refine ⟨makes.seen between.seen, tidy, frames_put_nil between.frames,
    between.settled.follows tidy follows (by simp [flat.gotos]),
    follows.failure.trans between.failure, ?_⟩
  exact Nat.lt_of_lt_of_le between.start (here_le_put flat _)

theorem lays_declaration (between : Between s g) (form : r.IsDeclaration)
    (fits : Fits M [] L ((r.toStatement s).put g) []) : Fits M [] L g [] ∧
    Lay M L [] none (r.toStatement s) g.here ((r.toStatement s).put g).here none := by
  have flat := Rose.flat_declaration form s
  obtain ⟨before, code⟩ :=
    (lands (flat.proper false false) g (.nothing _) (flat.labels ▸ .nil g)).lays between.tidy fits
  rw [caseSlot_nil between.frames, caseSlot_nil (frames_put_nil between.frames)] at code
  exact ⟨before, code⟩

/-! ## All parts -/

/-- Appends the code of a part. -/
def putPart (s : Session) (g : Lowering) (r : Rose) : Lowering :=
  if r.kind = .functionDefinition then putFunction s r (r.children.headD default) g
    else (r.toStatement s).put g

/-- The numbers of the functions that are defined by some parts. -/
def functionNumbers (s : Session) (rs : List Rose) : List Int :=
  (rs.filter fun r => r.kind == .functionDefinition).map fun r => s.displacementOf (r.arg 0)

theorem putPart_function (form : r.IsFunction body) : putPart s g r = putFunction s r body g := by
  rw [putPart, if_pos form.kind, form.kids]
  rfl

theorem putPart_declaration (form : r.IsDeclaration) : putPart s g r = (r.toStatement s).put g := by
  rw [putPart, if_neg (by simp [form.kind])]

theorem functionNumbers_function (form : r.IsFunction body) (rs : List Rose) :
    functionNumbers s (r :: rs) = s.displacementOf (r.arg 0) :: functionNumbers s rs := by
  simp [functionNumbers, form.kind]

theorem functionNumbers_declaration (form : r.IsDeclaration) (rs : List Rose) :
    functionNumbers s (r :: rs) = functionNumbers s rs := by
  simp [functionNumbers, form.kind]

theorem between_part (between : Between s g) (form : r.IsPart) (part : PartOk s depth r)
    (sound : 0 < s.types.cells.size) : Between s (putPart s g r) := by
  rcases form with isDeclaration | ⟨body, isFunction⟩
  · rw [putPart_declaration isDeclaration]
    exact between_declaration between isDeclaration part sound
  · rw [putPart_function isFunction]
    exact between_function between isFunction part sound

/-- A part sets the address of the function that it defines, and no other. -/
theorem address_part (between : Between s g) (form : r.IsPart) (part : PartOk s depth r) (n : Int) :
    (putPart s g r).session.functionAddress n =
      if n ∈ functionNumbers s [r] then (g.here : Int) else g.session.functionAddress n := by
  rcases form with isDeclaration | ⟨body, isFunction⟩
  · rw [putPart_declaration isDeclaration, functionNumbers_declaration isDeclaration]
    exact (follows_put _ g).session.functionAddress n
  · obtain ⟨_, low, high⟩ := part.ok.self.function isFunction.kind
    have inside : s.displacementOf (r.arg 0) < g.session.functions.size :=
      between.seen.functions ▸ high
    have same := (follows_put (body.toStatement s) (openFunction s r g)).session.functionAddress n
    rw [putPart_function isFunction, functionNumbers_function isFunction]
    refine same.trans ?_
    by_cases this : n = s.displacementOf (r.arg 0)
    · rw [if_pos (by simp [this]), this]
      exact functionAddress_same low inside _
    · rw [if_neg (by simpa [functionNumbers] using this)]
      exact functionAddress_ne low this _

/-- Only functions that a part calls get new slots. -/
theorem pending_part {P : Int → Prop} (form : r.IsPart) (callees : ∀ x ∈ r.nodes, x.kind = .call →
      P (s.displacementOf ((x.children.headD default).arg 2)))
    (old : ∀ e ∈ g.pendingCalls, P e.1) : ∀ e ∈ (putPart s g r).pendingCalls, P e.1 := by
  intro e mem
  rcases form with isDeclaration | ⟨body, isFunction⟩
  · rw [putPart_declaration isDeclaration] at mem
    rcases (follows_put _ g).pending e mem with known | called
    · obtain ⟨k, there, same⟩ := List.mem_map.mp known
      exact same ▸ old k there
    · exact (Rose.callsOnly_codes r callees).statement _ called
  · have child : body ∈ r.children := by simp [isFunction.kids]
    rw [putPart_function isFunction] at mem
    rcases (follows_put _ (openFunction s r g)).pending e mem with known | called
    · obtain ⟨k, there, same⟩ := List.mem_map.mp known
      exact same ▸ old k (List.mem_of_mem_filter there)
    · exact (Rose.callsOnly_codes body fun x inside =>
        callees x (Rose.mem_nodes_child child inside)).statement
        _ called

/-- A part changes the displacements of its own labels only. -/
theorem displacement_part (form : r.IsPart) (s : Session)
    (g : Lowering) {id : Int} (out : id ∉ r.collect .label) :
    (putPart s g r).session.displacementOf id = g.session.displacementOf id := by
  rcases form with isDeclaration | ⟨body, isFunction⟩
  · have flat := Rose.flat_declaration isDeclaration s
    rw [putPart_declaration isDeclaration]
    exact (follows_put _ g).session.displacement id (by simp [flat.labels])
  · rw [putPart_function isFunction]
    exact (follows_put (body.toStatement s) (openFunction s r g)).session.displacement id
      ((names_function isFunction s).1 ▸ out)

theorem displacement_parts {rs : List Rose} (forms : ∀ r ∈ rs, r.IsPart)
    (s : Session) (g : Lowering) {id : Int} (out : ∀ r ∈ rs, id ∉ r.collect .label) :
    (rs.foldl (putPart s) g).session.displacementOf id = g.session.displacementOf id := by
  induction rs generalizing g with
  | nil => rfl
  | cons r rs ih =>
    rw [List.forall_mem_cons] at forms out
    exact (ih forms.2 (putPart s g r) out.2).trans (displacement_part forms.1 s g out.1)

/-- A finished memory holds the parts that were lowered. -/
theorem lays_parts (sound : 0 < s.types.cells.size) {rs : List Rose} (between : Between s g)
    (each : ∀ r ∈ rs, r.IsPart ∧ PartOk s depth r) (apart : (functionNumbers s rs).Nodup)
    (unknown : ∀ n ∈ functionNumbers s rs, g.session.functionAddress n = 0)
    (fits : Fits M [] L (rs.foldl (putPart s) g) []) :
    ∃ label, Fits M [] ⟨label, L.function⟩ g [] ∧
      PartsAt M ⟨(rs.foldl (putPart s) g).session.displacementOf, L.function⟩ s rs g.here
        (rs.foldl (putPart s) g).here := by
  induction rs generalizing g with
  | nil => exact ⟨L.label, fits, .nil⟩
  | cons r rs ih =>
    obtain ⟨form, part⟩ := each r List.mem_cons_self
    have after := between_part between form part sound
    have numbers : functionNumbers s (r :: rs) = functionNumbers s [r] ++ functionNumbers s rs := by
      rw [← List.singleton_append, functionNumbers, List.filter_append, List.map_append]
      rfl
    rw [numbers] at apart unknown
    obtain ⟨_, rest, disjoint⟩ := List.nodup_append.mp apart
    have still : ∀ n ∈ functionNumbers s rs, (putPart s g r).session.functionAddress n = 0 :=
      fun n mem => by
      rw [address_part between form part, if_neg fun early => disjoint n early n mem rfl]
      exact unknown n (List.mem_append_right _ mem)
    obtain ⟨label, next, later⟩ :=
      ih after (fun c mem => each c (List.mem_cons_of_mem _ mem)) rest still fits
    rcases form with isDeclaration | ⟨body, isFunction⟩
    · rw [putPart_declaration isDeclaration] at next later
      obtain ⟨before, code⟩ := lays_declaration between isDeclaration next
      exact ⟨label, before,
        .declaration isDeclaration ⟨label, code⟩ (putPart_declaration isDeclaration ▸ later)⟩
    · rw [putPart_function isFunction] at next later
      have new :=
        unknown (s.displacementOf (r.arg 0)) (by simp [functionNumbers_function isFunction])
      obtain ⟨names, before, code⟩ := lays_function between isFunction part new next
      refine ⟨names, before,
        .function isFunction code (fun id mem out => ?_) (putPart_function isFunction ▸ later)⟩
      have forms (c : Rose) (mem : c ∈ rs) : c.IsPart := (each c (List.mem_cons_of_mem _ mem)).1
      exact (marked_function isFunction part between next mem).trans
        (putPart_function isFunction ▸ (displacement_parts forms s (putPart s g r) out).symm)

end Parts

/-! ## Whole programs -/

/-- The tree of a program in which everything that the generator needs is in order: its parts are
declarations and functions, jumps lead to labels of their own function, and every function is
defined once. -/
structure WellFormed (s : Session) (root : Rose) : Prop where
  has : s.tree.Has root
  height : root.height ≤ s.tree.size
  types : 0 < s.types.cells.size
  parts : ∀ r ∈ root.children, r.IsPart
  ok : s.Accepts root
  labels : ∀ r ∈ root.children, (r.collect .label).Nodup
  jumps : ∀ r ∈ root.children, ∀ id ∈ r.collect .jump, id ∈ r.collect .label
  numbers : (functionNumbers s root.children).Nodup
  defined : ∀ id, (s.identifier id).kind = .function →
    s.displacementOf id ∈ functionNumbers s root.children
  unknown : ∀ n, s.functionAddress n = 0
  main : (s.identifier s.main).kind = .function

/-- The memory of an image: the parts of the program, then a call of the entry point and the end. -/
structure CodeAt (M : List Int) (L : Links) (s : Session) (root : Rose) (stop : Nat) : Prop where
  parts : PartsAt M L s root.children Image.codeStart stop
  last : CellsAt M stop [Operation.code .callStart, Operation.code .callTarget,
    L.function (s.displacementOf s.main), Operation.code .stop]
  size : M.length = stop + 4

section Program

variable {s : Session} {root : Rose} {g : Lowering} {depth : Nat}

theorem WellFormed.part (wf : WellFormed s root) {r : Rose} (mem : r ∈ root.children) :
    r.IsPart ∧ PartOk s (8 * s.tree.walkBound) r := by
  have low := Rose.height_child mem
  have high := wf.height
  refine ⟨wf.parts r mem, wf.has.child mem, wf.ok.child mem, ?_, wf.labels r mem, wf.jumps r mem⟩
  rw [Arena.walkBound]
  omega

theorem between_new (s : Session) : Between s (.new s) where
  seen := .refl s
  tidy := ⟨List.nodup_nil, nofun, nofun, List.nodup_nil, nofun, List.nodup_nil, nofun⟩
  frames := rfl
  settled := nofun
  failure := rfl
  start := by simp [Lowering.new, Lowering.here, Image.codeStart]

/-- The parts are lowered one after the other. -/
theorem yields_parts (has : s.tree.Has root) (sound : 0 < s.types.cells.size) (first : Nat)
    (each : ∀ r ∈ root.children.drop first, r.IsPart ∧ PartOk s depth r) (between : Between s g) :
    Yields (parts depth (s.tree.handle root.index)
      (((List.range root.children.length).drop first).map Int.ofNat))
    g () ((root.children.drop first).foldl (putPart s) g) ∧
    Between s ((root.children.drop first).foldl (putPart s) g) := by
  induction left : root.children.length - first generalizing first g with
  | zero =>
    have past : root.children.length ≤ first := by omega
    rw [List.drop_eq_nil_of_le (by simpa using past), List.drop_eq_nil_of_le past]
    exact ⟨yields_pure _ _, between⟩
  | succ n ih =>
    have inside : first < root.children.length := by omega
    rw [List.drop_eq_getElem_cons inside] at each ⊢
    obtain ⟨form, part⟩ := each _ List.mem_cons_self
    have after := between_part between form part sound
    obtain ⟨rest, done⟩ :=
      ih (first + 1) (fun r mem => each r (List.mem_cons_of_mem _ mem)) after (by omega)
    refine ⟨?_, done⟩
    rw [Answers.numbers_cons inside, Lowering.parts, List.foldl_cons]
    refine (yields_get g).bind ?_
    simp only [between.failure, Option.isSome_none, Bool.false_eq_true, if_false]
    refine (Answers.child has (List.getElem?_eq_getElem inside) g between.seen).bind ?_
    refine (Answers.kindOf part.has g between.seen).bind ?_
    rcases form with isDeclaration | ⟨body, isFunction⟩
    · rw [putPart_declaration isDeclaration] at rest ⊢
      rw [isDeclaration.kind]
      have deep := part.deep
      have makes := makes_declaration isDeclaration part.has part.ok sound (d := depth) (by omega)
      exact (makes.run g between.seen (.nothing _)).bind rest
    · rw [putPart_function isFunction] at rest ⊢
      rw [isFunction.kind]
      exact (yields_function between isFunction part sound).bind rest

/-- After all parts, exactly the defined functions have an address. -/
theorem address_parts {rs : List Rose} (sound : 0 < s.types.cells.size) (between : Between s g)
    (each : ∀ r ∈ rs, r.IsPart ∧ PartOk s depth r) {n : Int}
    (known : g.session.functionAddress n ≠ 0 ∨ n ∈ functionNumbers s rs) :
    (rs.foldl (putPart s) g).session.functionAddress n ≠ 0 := by
  induction rs generalizing g with
  | nil => exact known.resolve_right (by simp [functionNumbers])
  | cons r rs ih =>
    obtain ⟨form, part⟩ := each r List.mem_cons_self
    have numbers : functionNumbers s (r :: rs) = functionNumbers s [r] ++ functionNumbers s rs := by
      rw [← List.singleton_append, functionNumbers, List.filter_append, List.map_append]
      rfl
    refine ih (between_part between form part sound) (fun c mem =>
      each c (List.mem_cons_of_mem _ mem)) ?_
    rw [address_part between form part]
    have start := between.start
    by_cases this : n ∈ functionNumbers s [r]
    · rw [if_pos this]
      exact .inl (by omega)
    · rw [if_neg this]
      exact known.imp_right fun mem => (List.mem_append.mp (numbers ▸ mem)).resolve_left this

theorem pending_parts {rs : List Rose} {P : Int → Prop} (forms : ∀ r ∈ rs, r.IsPart)
    (callees : ∀ r ∈ rs, ∀ x ∈ r.nodes, x.kind = .call →
      P (s.displacementOf ((x.children.headD default).arg 2)))
    (old : ∀ e ∈ g.pendingCalls, P e.1) : ∀ e ∈ (rs.foldl (putPart s) g).pendingCalls, P e.1 := by
  induction rs generalizing g with
  | nil => exact old
  | cons r rs ih =>
    refine ih (fun c mem => forms c (List.mem_cons_of_mem _ mem))
      (fun c mem => callees c (List.mem_cons_of_mem _ mem)) ?_
    exact pending_part (forms r List.mem_cons_self) (callees r List.mem_cons_self) old

/-- A function that a node of the program calls is defined. -/
theorem WellFormed.callee (wf : WellFormed s root) {x : Rose}
    (mem : x ∈ root.nodes) (kind : x.kind = .call) :
    s.displacementOf ((x.children.headD default).arg 2) ∈ functionNumbers s root.children :=
  wf.defined _ ((wf.ok x mem).callee kind).1

/-- A memory without slots fits the state that made it. -/
theorem fits_finished (between : Between s g) (none : g.pendingCalls = []) : Fits g.memory.toList []
    ⟨fun id => (g.labelOf id).address.getD 0, g.session.functionAddress⟩ g [] where
  kept i _ _ := Array.getElem?_toList
  exits := by
    rw [between.frames]
    exact .nil
  placed l mem a known := by
    show (g.labelOf l.identifier).address.getD 0 = a
    rw [labelOf_of_mem between.tidy.names mem, Option.mem_def.mp known]
    rfl
  waiting l mem p waits := by
    rw [between.tidy.placed l mem (between.settled l mem)] at waits
    exact absurd waits List.not_mem_nil
  calls e mem := by
    rw [none] at mem
    exact absurd mem List.not_mem_nil
  functions n _ := rfl

/-- The state of the generator after all parts of a program. -/
def afterParts (s : Session) (root : Rose) : Lowering := root.children.foldl (putPart s) (.new s)

theorem WellFormed.run (wf : WellFormed s root) :
    Yields (Lowering.parts (8 * s.tree.walkBound) (s.tree.handle root.index)
      (((List.range root.children.length).drop 0).map Int.ofNat)) (.new s) () (afterParts s root) ∧
    Between s (afterParts s root) :=
  yields_parts wf.has wf.types 0 (fun _ mem => wf.part mem) (between_new s)

theorem WellFormed.address (wf : WellFormed s root)
    {n : Int} (mem : n ∈ functionNumbers s root.children) :
    (afterParts s root).session.functionAddress n ≠ 0 :=
  address_parts wf.types (between_new s) (fun _ mem => wf.part mem) (.inr mem)

/-- No call waits for a function any more. -/
theorem WellFormed.pending (wf : WellFormed s root) : (afterParts s root).pendingCalls = [] := by
  have only : ∀ e ∈ (afterParts s root).pendingCalls, e.1 ∈ functionNumbers s root.children :=
    pending_parts (P := (· ∈ functionNumbers s root.children)) wf.parts
      (fun r mem x inside kind => wf.callee (Rose.mem_nodes_child mem inside) kind) nofun
  cases all : (afterParts s root).pendingCalls with
  | nil => rfl
  | cons e rest =>
    have mem : e ∈ (afterParts s root).pendingCalls := by simp [all]
    exact absurd (wf.run.2.tidy.unknown e mem) (wf.address (only e mem))

theorem WellFormed.laid (wf : WellFormed s root) {M : List Int} {L : Links}
    (fits : Fits M [] L (afterParts s root) []) :
    PartsAt M ⟨(afterParts s root).session.displacementOf,
      L.function⟩ s root.children Image.codeStart (afterParts s root).here := by
  obtain ⟨_, _, parts⟩ := lays_parts wf.types (between_new s) (fun _ mem => wf.part mem) wf.numbers
    (fun n _ => wf.unknown n) fits
  have start : (Lowering.new s).here = Image.codeStart := by simp [Lowering.new, Lowering.here]
  rw [start] at parts
  exact parts

/-- The state of the generator after the call of the entry point. -/
def afterCall (s : Session) (root : Rose) : Lowering :=
  (((afterParts s root).push [Operation.code .callStart]).callTo (s.displacementOf s.main)).push
    [Operation.code .stop]

/-- The generator makes an image of a well-formed program, and its memory holds the code, linked by
the final displacements of labels and the final addresses of functions. -/
theorem generate_wellFormed (wf : WellFormed s root) :
    ∃ t image stop, generate s (s.tree.handle root.index) = .ok (t, .ok image) ∧ s.Seen t ∧
      CodeAt image.memory ⟨t.displacementOf, t.functionAddress⟩ s root stop := by
  obtain ⟨run, between⟩ := wf.run
  have mainKind := wf.main
  have known := wf.address (wf.defined _ mainKind)
  have there : s.main ≠ 0 := fun zero => by
    rw [zero] at mainKind
    simp [Session.identifier, Identifier.none] at mainKind
  have displacement :
      ((afterParts s root).session.identifier (afterParts s root).session.main).displacement =
      s.displacementOf s.main := by
    rw [between.seen.main]
    exact between.seen.displacement _ (by simp [mainKind])
  -- all functions have their addresses by now, so the call of the entry point is not put off
  have unchanged : (afterCall s root).pendingCalls = [] := by
    rw [afterCall, calls_push, callTo, if_pos (by simpa using known), calls_push,
      calls_push, wf.pending]
  have final : Yields (program (s.tree.handle root.index)) (.new s) (.ok (afterCall s root).image)
      (afterCall s root) := by
    rw [program]
    refine (Answers.tree _ (.refl s)).bind
      ((Answers.childNumbers wf.has 0 _ (.refl s)).bind (run.bind ?_))
    refine (yields_get _).bind ?_
    simp only [between.failure]
    refine (yields_get _).bind ?_
    rw [if_neg (by simpa [between.seen.main] using there), displacement]
    refine (yields_emitOp _ _ _).bind ((yields_emitCall _ _).bind ((yields_emitOp _ _ _).bind ?_))
    refine (yields_get (afterCall s root)).bind ?_
    rw [unchanged]
    exact (yields_get _).bind (yields_pure _ _)
  -- the state at the end is one between two parts of the program, with nothing left to link
  have closed : Between s (afterCall s root) := by
    have tidy :=
      ((between.tidy.push [Operation.code .callStart]).callTo (s.displacementOf s.main)).push
      [Operation.code .stop]
    refine ⟨?_, tidy, ?_, ?_, ?_, ?_⟩
    · rw [afterCall, session_push, session_callTo, session_push]
      exact between.seen
    · rw [afterCall, frames_push, frames_callTo, frames_push]
      exact between.frames
    · rw [Settled, afterCall, labels_push, labels_callTo, labels_push]
      exact between.settled
    · rw [afterCall, callTo, if_pos (by simpa using known)]
      exact between.failure
    · rw [afterCall, here_push]
      exact Nat.succ_pos _
  -- what was laid is still there: the three last instructions came behind it
  have fits := fits_finished closed unchanged
  have started := between.tidy.push [Operation.code .callStart]
  obtain ⟨stopped, stop⟩ := fits.push (started.callTo _)
  obtain ⟨opened, call⟩ := stopped.callTo started
  obtain ⟨before, start⟩ := opened.push between.tidy
  have size : (afterCall s root).memory.toList.length = (afterParts s root).here + 4 := by
    show (afterCall s root).here = _
    rw [afterCall, here_push, here_callTo, here_push]
    rfl
  rw [here_callTo, here_push] at stop
  rw [here_push] at call
  have unmoved : (afterCall s root).session = (afterParts s root).session := by
    rw [afterCall, session_push, session_callTo, session_push]
  refine ⟨(afterCall s root).session, (afterCall s root).image, (afterParts s root).here, ?_,
    closed.seen, ?_, ?_, size⟩
  · rw [generate, final]
    rfl
  · rw [unmoved] at before ⊢
    exact wf.laid before
  · exact ⟨start.1, call.1, call.2.1, stop.1, trivial⟩

end Program

end BilingualC
