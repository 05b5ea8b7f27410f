import Mathlib
import BilingualC.Proofs.Arena.Places

/-!
# Growing a tree in its arena

Each operation that changes a node or adds nodes is followed through the cells it writes: the arena
then holds the tree that has the changed node in the old place, and every handle keeps its
generation.
-/

namespace BilingualC

namespace Rose

/-- Appends a last child. -/
def push (s c : Rose) : Rose := .node s.index s.type s.args (s.children ++ [c])

/-- A node with another type. -/
def withType (s : Rose) (type : Int) : Rose := .node s.index type s.args s.children

/-- A node with other arguments. -/
def withArgs (s : Rose) (args : List Int) : Rose := .node s.index s.type args s.children

@[simp] theorem index_push (s c : Rose) : (s.push c).index = s.index := rfl
@[simp] theorem type_push (s c : Rose) : (s.push c).type = s.type := rfl
@[simp] theorem args_push (s c : Rose) : (s.push c).args = s.args := rfl
@[simp] theorem children_push (s c : Rose) : (s.push c).children = s.children ++ [c] := rfl
@[simp] theorem index_withType (s : Rose) (type : Int) : (s.withType type).index = s.index := rfl
@[simp] theorem index_withArgs (s : Rose) (args : List Int) : (s.withArgs args).index = s.index :=
  rfl

/-- The frame of a new last child. -/
def lastFrame (s : Rose) : Frame := ⟨s.index, s.type, s.args, s.children, []⟩

theorem lastFrame_plug (s c : Rose) : s.lastFrame.plug c = s.push c := rfl

/-- Appends some last children. -/
def pushAll (s : Rose) (cs : List Rose) : Rose := .node s.index s.type s.args (s.children ++ cs)

@[simp] theorem index_pushAll (s : Rose) (cs : List Rose) : (s.pushAll cs).index = s.index := rfl

@[simp] theorem pushAll_nil (s : Rose) : s.pushAll [] = s := by
  rw [pushAll, List.append_nil, eta]

@[simp] theorem pushAll_push (s c : Rose) (cs : List Rose) :
    (s.push c).pushAll cs = s.pushAll (c :: cs) := by
  simp [pushAll, push]

mutual

/-- A tree without its indices. -/
def shape : Rose → Rose
  | .node _ type args children => .node 0 type args (shapes children)

/-- Trees without their indices. -/
def shapes : List Rose → List Rose
  | [] => []
  | c :: cs => c.shape :: shapes cs

end

theorem blocks_push (next : Int) (s c : Rose) : (s.push c).blocks next =
    s.lastFrame.block next c.index :: (blocksTo c.index s.children ++ c.blocks (-s.index)) := by
  rw [← lastFrame_plug, blocks_eq, Frame.block_plug, Frame.plug_children, blocksTo_append]
  simp [lastFrame]

theorem blocks_leaf (next i type : Int) (args : List Int) :
    (node i type args []).blocks next = [⟨i, next, type, 0, none, args⟩] := by
  simp [blocks_eq, block]

end Rose

namespace Arena

variable {t : Arena} {s : Rose} {fs : List Frame} {rest : List Block}

/-- The cells of a new record. -/
theorem hasBlock_append (t : Arena) (next type count first : Int) (args : List Int) :
    (t.append ([next, type, count, first, args.length] ++ args)).HasBlock
      ⟨t.freshIndex, next, type, count, some first, args⟩ := by
  have read := fixedCell_append_new t ([next, type, count, first, args.length] ++ args)
  have at' : ∀ (i : Int) (k : Nat), i = t.size + k →
      (t.append ([next, type, count, first, args.length] ++ args)).fixedCell i =
        ([next, type, count, first, args.length] ++ args).getD k 0 := by
    rintro _ k rfl
    exact read k
  constructor
  · simp only [freshIndex]; omega
  · simp only [freshIndex, size_append, List.length_append, List.length_cons,
      List.length_nil]; omega
  · exact at' _ 0 (by simp only [freshIndex]; omega)
  · exact at' _ 1 (by simp only [freshIndex]; omega)
  · exact at' _ 2 (by simp only [freshIndex]; omega)
  · rintro c ⟨⟩
    exact at' _ 3 (by simp only [freshIndex]; omega)
  · exact at' _ 4 (by simp only [freshIndex]; omega)
  · intro k hk
    rw [at' _ (k + 5) (by simp only [freshIndex]; push_cast; omega)]
    have inside : k < args.length := hk
    simp [inside]

/-- A new record lies behind all blocks. -/
theorem HasAll.grow {bs : List Block} (h : t.HasAll bs) (next type count first : Int)
    (args : List Int) : (t.append ([next, type, count, first, args.length] ++ args)).HasAll
    (⟨t.freshIndex, next, type, count, some first, args⟩ :: bs) := by
  refine HasAll.cons_iff.mpr ⟨hasBlock_append t next type count first args, h.append _,
    fun b hb => .inr ?_⟩
  have high := (h.held b hb).high
  simp only [freshIndex]
  omega

/-! ## New children -/

/-- Links a new last child to a node; the node does not count it yet. -/
theorem HasAll.link_last {bs : List Block} {next : Int} (new : Int)
    (h : t.HasAll (s.block next :: (Rose.blocksTo (-s.index) s.children ++ bs))) :
    (t.setFixedCell (Rose.slot s.index s.children) new).HasAll
      ({ s.lastFrame.block next new with count := s.children.length } ::
        (Rose.blocksTo new s.children ++ bs)) := by
  obtain ⟨index, type, args, children⟩ := s
  simp only [Rose.index_node, Rose.children_node] at h ⊢
  cases children using List.reverseRecOn with
  | nil => exact h.write_first new
  | append_singleton before last =>
    rw [Rose.slot_concat]
    have first :
      (before ++ [last]).head?.map Rose.index = some (Rose.lead new (before ++ [last])) := by
      cases before <;> rfl
    have points := (Rose.points_blocksTo before last).frame
      (Rose.block next (.node index type args (before ++ [last])) :: bs)
    have linked := (points t [] (-index) (h.perm (by simpa using List.perm_middle.symm))).2.2 new
    have ordered :=
      linked.perm (show List.Perm _ (Rose.block next (.node index type args (before ++ [last])) ::
      (Rose.blocksTo new (before ++ [last]) ++ bs)) by simp)
    simp only [Rose.block, Rose.children_node, first] at ordered
    exact ordered

/-- The last child of a node, if there is one. -/
theorem Has.child_last (h : t.Has s) :
    t.child (t.handle s.index) (t.amount (t.handle s.index) - 1) =
      .ok ((s.children.getLast?.map fun c => t.handle c.index).getD .broken) := by
  rw [h.amount]
  cases hc : s.children using List.reverseRecOn with
  | nil =>
    rw [Arena.child, if_pos (by simp)]
    rfl
  | append_singleton before last =>
    have inside : before.length < s.children.length := by simp [hc]
    have number : (((before ++ [last]).length : Nat) : Int) - 1 = (before.length : Nat) := by simp
    rw [number, h.child_at inside]
    simp [hc]

theorem isBroken_append {n : Handle} (live : t.isBroken n = false) (cells : List Int) :
    (t.append cells).isBroken n = false := by
  simp only [isBroken, hasRecord, Bool.or_eq_false_iff, Bool.not_eq_false', Bool.and_eq_true,
    decide_eq_true_eq, generation_append, size_append] at *
  refine ⟨⟨live.1.1, ?_⟩, live.2⟩
  have inside := live.1.2
  push_cast
  omega

/-- A new child is linked at the slot behind the other children. -/
theorem Has.addChild (h : t.Has s) (type : Int) (args : List Int) :
    let linked := (t.append ([-s.index, type, 0, 0, args.length] ++ args)).setFixedCell
      (Rose.slot s.index s.children) t.freshIndex
    t.addChild (t.handle s.index) type args = .ok
      (linked.setFixedCell s.index (linked.fixedCell s.index + 1), linked.handle t.freshIndex) := by
  simp only [Arena.addChild, h.isBroken, Bool.false_eq_true, if_false, h.child_last, bind,
    Except.bind, pure, Except.pure, index_handle]
  cases hc : s.children using List.reverseRecOn with
  | nil => simp [isBroken_broken]
  | append_singleton before last =>
    have live := (h.child (c := last) (by simp [hc])).isBroken
    simp [isBroken_append live]

theorem HoldsBeside.addChild (h : t.HoldsBeside (Rose.fill fs s) rest)
    (type : Int) (args : List Int) :
    ∃ t', t.addChild (t.handle s.index) type args = .ok (t', t'.handle t.freshIndex) ∧
    t'.HoldsBeside (Rose.fill fs (s.push (.node t.freshIndex type args []))) rest ∧
    t'.size = t.size + 5 + args.length ∧ ∀ i, t'.generation i = t.generation i := by
  have blocks := (h.split.grow (-s.index) type 0 0 args).forget_first
  have ordered := blocks.perm (show List.Perm _ (s.block (Rose.linkAfter 0 fs) ::
      (Rose.blocksTo (-s.index) s.children ++
        ⟨t.freshIndex, -s.index, type, 0, none, args⟩ :: (Rose.around 0 fs s.index ++ rest))) by
    classical
    rw [Rose.blocks_eq, List.perm_iff_count]
    intro b
    simp only [List.count_cons, List.count_append]
    omega)
  have linked := ordered.link_last t.freshIndex
  have count : Arena.fixedCell _ s.index = _ := linked.head.count
  refine ⟨_, h.holds.subtree.addChild type args, HoldsBeside.join ?_ ?_, ?_, fun i => rfl⟩
  · rw [← h.root, Rose.index_fill]
    rfl
  · have counted := linked.write_count (s.children.length + 1)
    rw [count, Rose.blocks_push, Rose.blocks_leaf]
    refine counted.perm ?_
    have same : s.lastFrame.block (Rose.linkAfter 0 fs) t.freshIndex = { s.lastFrame.block
        (Rose.linkAfter 0 fs) t.freshIndex with count := s.children.length + 1 } := by
      simp [Frame.block, Rose.lastFrame]
    rw [Rose.index_node, same]
    classical
    rw [List.perm_iff_count]
    intro b
    simp only [List.count_cons, List.count_append, List.count_nil, Rose.index_push]
    omega
  · simp only [size_setFixedCell, size_append, List.length_append, List.length_cons,
      List.length_nil]
    omega

theorem Holds.addChild (h : t.Holds (Rose.fill fs s)) (type : Int) (args : List Int) :
    ∃ t', t.addChild (t.handle s.index) type args = .ok (t', t'.handle t.freshIndex) ∧
      t'.Holds (Rose.fill fs (s.push (.node t.freshIndex type args []))) ∧
      t'.size = t.size + 5 + args.length ∧ ∀ i, t'.generation i = t.generation i :=
  (h.beside.addChild type args).imp fun _ ⟨ran, holds, more⟩ => ⟨ran, holds.holds, more⟩

/-! ## Changed nodes -/

/-- Changes the block of a node and leaves its children and its place alone. -/
theorem HoldsBeside.edit (h : t.HoldsBeside (Rose.fill fs s) rest) {t' : Arena}
    {s' : Rose} (index : s'.index = s.index) (children : s'.children = s.children)
    (step : ∀ next others, t.HasAll (s.block next :: others) → t'.HasAll (s'.block next :: others))
    : t'.HoldsBeside (Rose.fill fs s') rest := by
  refine HoldsBeside.join ?_ ?_
  · rw [← h.root, Rose.index_fill, index]
  · have all := h.split
    rw [Rose.blocks_eq, List.append_assoc, List.cons_append] at all ⊢
    rw [index, children]
    exact (step _ _ (all.perm List.perm_middle)).perm List.perm_middle.symm

theorem HoldsBeside.setType (h : t.HoldsBeside (Rose.fill fs s) rest) (type : Int) :
    ∃ t', t.setType (t.handle s.index) type = .ok t' ∧
    t'.HoldsBeside (Rose.fill fs (s.withType type)) rest ∧
    t'.size = t.size ∧ ∀ i, t'.generation i = t.generation i := by
  refine ⟨t.setFixedCell (s.index - 1) type, ?_, ?_, size_setFixedCell .., fun i => rfl⟩
  · simp [Arena.setType, h.holds.isBroken]
  · exact h.edit rfl rfl fun next others all => all.write_type type

theorem Holds.setType (h : t.Holds (Rose.fill fs s)) (type : Int) :
    ∃ t', t.setType (t.handle s.index) type = .ok t' ∧ t'.Holds (Rose.fill fs (s.withType type)) ∧
      t'.size = t.size ∧ ∀ i, t'.generation i = t.generation i :=
  (h.beside.setType type).imp fun _ ⟨ran, holds, more⟩ => ⟨ran, holds.holds, more⟩

theorem HoldsBeside.setArg (h : t.HoldsBeside (Rose.fill fs s) rest)
    {k : Nat} (inside : k < s.args.length) (value : Int) :
    ∃ t', t.setArg (t.handle s.index) k value = .ok (.ok t') ∧
    t'.HoldsBeside (Rose.fill fs (s.withArgs (s.args.set k value))) rest ∧
    t'.size = t.size ∧ ∀ i, t'.generation i = t.generation i := by
  have range := h.holds.block.covers_range (i := s.index + 3 + k)
    (by simp only [Block.Covers, Rose.block]; omega)
  have there : ¬ ((k : Int) < 0 ∨ (s.args.length : Int) ≤ k) := by omega
  refine ⟨t.setFixedCell (s.index + 3 + k) value, ?_, ?_, size_setFixedCell .., fun i => rfl⟩
  · simp only [Arena.setArg, h.holds.isBroken, h.holds.subtree.argc,
      Bool.or_eq_true, decide_eq_true_eq, there,
      Bool.false_eq_true, if_false, index_handle, setCell_of_range value range.1 range.2]
    rfl
  · exact h.edit rfl rfl fun next others all => all.write_arg inside value

theorem Holds.setArg (h : t.Holds (Rose.fill fs s)) {k : Nat} (inside : k < s.args.length)
    (value : Int) : ∃ t', t.setArg (t.handle s.index) k value = .ok (.ok t') ∧
    t'.Holds (Rose.fill fs (s.withArgs (s.args.set k value))) ∧
    t'.size = t.size ∧ ∀ i, t'.generation i = t.generation i :=
  (h.beside.setArg inside value).imp fun _ ⟨ran, holds, more⟩ => ⟨ran, holds.holds, more⟩

/-- The last block of an arena can take one more argument. -/
theorem HasAll.add_arg {b : Block} {bs : List Block} (h : t.HasAll (b :: bs))
    (last : b.index + 3 + b.args.length = t.size) (value : Int) :
    ((t.append [value]).setFixedCell (b.index + 2) (b.args.length + 1)).HasAll
      ({ b with args := b.args ++ [value] } :: bs) := by
  obtain ⟨hb, hbs, apart⟩ := HasAll.cons_iff.mp h
  have low := hb.low
  have range : b.index + 2 < (t.append [value]).size := by
    simp only [size_append, List.length_singleton]
    push_cast
    omega
  have read : ∀ i, 0 ≤ i →
    ((t.append [value]).setFixedCell (b.index + 2) (b.args.length + 1)).fixedCell i =
      if i = b.index + 2 then (b.args.length + 1 : Int) else (t.append [value]).fixedCell i :=
        fun i hi =>
    fixedCell_setFixedCell _ _ (by omega) range hi
  -- no other cell of the record changes than the one that counts its arguments
  have keep : ∀ i, b.Covers i → i ≠ b.index + 2 →
      ((t.append [value]).setFixedCell (b.index + 2) (b.args.length + 1)).fixedCell i =
      t.fixedCell i := by
    intro i covers other
    have inside := hb.covers_range covers
    rw [read i inside.1, if_neg other, fixedCell_append t [value] inside.1 inside.2]
  have new : ((t.append [value]).setFixedCell (b.index + 2) (b.args.length + 1)).HasBlock
      { b with args := b.args ++ [value] } := by
    constructor
    · exact low
    · simp only [size_setFixedCell, size_append, List.length_append, List.length_singleton]
      push_cast
      omega
    · exact (keep _ (by unfold Block.Covers; dsimp only; omega)
        (by dsimp only; omega)).trans hb.next
    · exact (keep _ (by unfold Block.Covers; dsimp only; omega)
        (by dsimp only; omega)).trans hb.type
    · exact (keep _ (by unfold Block.Covers; dsimp only; omega)
        (by dsimp only; omega)).trans hb.count
    · exact fun c hc => (keep _ (by unfold Block.Covers; dsimp only; omega)
        (by dsimp only; omega)).trans (hb.first c hc)
    · rw [read _ (by simp only; omega), if_pos rfl]
      simp
    · intro k hk
      simp only [List.length_append, List.length_singleton] at hk
      by_cases inside : k < b.args.length
      · rw [keep _ (by unfold Block.Covers; dsimp only; omega) (by dsimp only; omega),
          hb.args k inside]
        simp [inside]
      · obtain rfl : k = b.args.length := by omega
        rw [read _ (by simp only; omega), if_neg (by simp only; omega)]
        simpa [last] using fixedCell_append_new t [value] 0
  refine HasAll.cons_iff.mpr ⟨new, ⟨fun c hc => ?_, hbs.apart⟩, fun c hc => ?_⟩
  · exact ((hbs.held c hc).append [value]).write_outside _ (by omega) range
      ((apart c hc).not_covers (by unfold Block.Covers; omega))
  · have high := (hbs.held c hc).high
    have apart := apart c hc
    simp only [Block.Apart, List.length_append, List.length_singleton] at apart ⊢
    push_cast
    omega

theorem HoldsBeside.addArg (h : t.HoldsBeside (Rose.fill fs s) rest) (leaf : s.children = [])
    (last : s.index + 3 + s.args.length = t.size) (value : Int) :
    ∃ t', t.addArg (t.handle s.index) value = .ok t' ∧
      t'.HoldsBeside (Rose.fill fs (s.withArgs (s.args ++ [value]))) rest ∧
      t'.size = t.size + 1 ∧ ∀ i, t'.generation i = t.generation i := by
  refine ⟨(t.append [value]).setFixedCell (s.index + 2) (s.args.length + 1), ?_, ?_, by simp,
    fun i => rfl⟩
  · simp [Arena.addArg, h.holds.isBroken, h.holds.subtree.amount, h.holds.subtree.argc, leaf, last]
  · exact h.edit rfl rfl fun next others all => all.add_arg last value

theorem Holds.addArg (h : t.Holds (Rose.fill fs s)) (leaf : s.children = [])
    (last : s.index + 3 + s.args.length = t.size) (value : Int) :
    ∃ t', t.addArg (t.handle s.index) value = .ok t' ∧
      t'.Holds (Rose.fill fs (s.withArgs (s.args ++ [value]))) ∧
      t'.size = t.size + 1 ∧ ∀ i, t'.generation i = t.generation i :=
  (h.beside.addArg leaf last value).imp fun _ ⟨ran, holds, more⟩ => ⟨ran, holds.holds, more⟩

/-! ## New nodes above a node -/

theorem HoldsBeside.insert {f : Frame} (h : t.HoldsBeside (Rose.fill (f :: fs) s) rest)
    (type : Int) {argc : Nat} (fits : argc ≤ largestBlock) :
    ∃ t', t.insert (t.handle s.index) type argc = .ok (t', t'.handle t.freshIndex) ∧ t'.HoldsBeside
    (Rose.fill (f :: fs) (.node t.freshIndex type (List.replicate argc 0) [s])) rest ∧
    t'.size = t.size + 5 + argc ∧ ∀ i, t'.generation i = t.generation i := by
  have next : t.fixedCell (s.index - 2) = f.link := h.holds.block.next
  have grown := h.split.grow f.link type 1 s.index (List.replicate argc 0)
  rw [List.length_replicate, List.append_assoc] at grown
  obtain ⟨range, -, link⟩ := Rose.points_around 0 f fs _ _ s.index (grown.perm
    (show List.Perm _ (Rose.around 0 (f :: fs) s.index ++ _ :: (s.blocks f.link ++ rest)) from
      List.perm_middle.symm))
  have linked := (link t.freshIndex).perm (show List.Perm _
      (s.block f.link :: (Rose.around 0 (f :: fs) t.freshIndex ++ ⟨t.freshIndex, f.link, type, 1,
      some s.index, List.replicate argc 0⟩ :: (Rose.blocksTo (-s.index) s.children ++ rest))) by
    classical
    rw [Rose.blocks_eq, List.perm_iff_count]
    intro b
    simp only [List.count_cons, List.count_append]
    omega)
  have wrapped := linked.write_next (-t.freshIndex)
  refine ⟨_, ?_, HoldsBeside.join ?_ (wrapped.perm ?_), ?_, fun i => rfl⟩
  · have allowed : ¬ ((argc : Int) < 0 ∨ largestBlock < argc) := by omega
    have notRoot := h.holds.index_ne_root
    simp only [Arena.insert, h.holds.isBroken, Bool.false_or, index_handle, beq_iff_eq, notRoot,
      if_false, h.holds.link, bind, Except.bind, Bool.or_eq_true, decide_eq_true_eq, allowed, next,
      Int.toNat_natCast, setCell_of_range _ range.1 range.2]
    rfl
  · rw [← h.root, Rose.index_fill]
    rfl
  · classical
    have block : ∀ next, Rose.block next (.node t.freshIndex type (List.replicate argc 0) [s]) =
        ⟨t.freshIndex, next, type, 1, some s.index, List.replicate argc 0⟩ := fun next => rfl
    have moved : { s.block f.link with next := -t.freshIndex } = s.block (-t.freshIndex) := rfl
    rw [moved, Rose.blocks_eq, block, Rose.children_node, Rose.blocksTo_cons, Rose.blocksTo_nil,
      Rose.blocks_eq, List.perm_iff_count]
    intro b
    simp only [List.count_cons, List.count_append, List.count_nil, Rose.linkAfter, Rose.index_node,
      Rose.lead_nil]
    omega
  · simp only [size_setFixedCell, size_append, List.length_append, List.length_cons,
      List.length_nil, List.length_replicate]
    omega

theorem Holds.insert {f : Frame} (h : t.Holds (Rose.fill (f :: fs) s)) (type : Int) {argc : Nat}
    (fits : argc ≤ largestBlock) :
    ∃ t', t.insert (t.handle s.index) type argc = .ok (t', t'.handle t.freshIndex) ∧
      t'.Holds (Rose.fill (f :: fs) (.node t.freshIndex type (List.replicate argc 0) [s])) ∧
      t'.size = t.size + 5 + argc ∧ ∀ i, t'.generation i = t.generation i :=
  (h.beside.insert type fits).imp fun _ ⟨ran, holds, more⟩ => ⟨ran, holds.holds, more⟩

/-! ## Copies -/

/-- Under a broken node nothing is added. -/
theorem graft_broken (c : Rose) {n : Handle} (broken : t.isBroken n = true) :
    t.graft n c = .ok (t, .broken) := by
  induction c using Rose.induction_on generalizing n with
  | step i type args children ih =>
    have rest : ∀ cs : List Rose, (∀ c ∈ cs, c ∈ children) →
      graft.graftAll t .broken cs = .ok t := by
      intro cs sub
      induction cs with
      | nil => rfl
      | cons c cs ihs =>
        rw [graft.graftAll, ih c (sub c (by simp)) (isBroken_broken t)]
        exact ihs fun d hd => sub d (by simp [hd])
    simp [graft, addChild, broken, rest children fun c hc => hc, bind, Except.bind, pure,
      Except.pure]

theorem HoldsBeside.graft (c : Rose) :
    ∀ {t : Arena} {fs : List Frame} {s : Rose}, t.HoldsBeside (Rose.fill fs s) rest →
    ∃ t' c', t.graft (t.handle s.index) c = .ok (t', t'.handle c'.index) ∧
    t'.HoldsBeside (Rose.fill fs (s.push c')) rest ∧ c'.shape = c.shape ∧
    ∀ i, t'.generation i = t.generation i := by
  induction c using Rose.induction_on with
  | step i type args children ih =>
    have all : ∀ cs : List Rose, (∀ c ∈ cs, c ∈ children) →
        ∀ {t : Arena} {fs : List Frame} {s : Rose}, t.HoldsBeside (Rose.fill fs s) rest →
        ∃ t' cs', graft.graftAll t (t.handle s.index) cs = .ok t' ∧
        t'.HoldsBeside (Rose.fill fs (s.pushAll cs')) rest ∧ Rose.shapes cs' = Rose.shapes cs ∧
        ∀ i, t'.generation i = t.generation i := by
      intro cs
      induction cs with
      | nil =>
        intro _ t fs s h
        exact ⟨t, [], rfl, by simpa using h, rfl, fun i => rfl⟩
      | cons c cs ihs =>
        intro sub t fs s h
        obtain ⟨t₁, c', ran, holds, same, generations⟩ := ih c (sub c (by simp)) h
        obtain ⟨t₂, cs', ran', holds', same', generations'⟩ :=
          ihs (fun d hd => sub d (by simp [hd])) holds
        refine ⟨t₂, c' :: cs', ?_, by simpa using holds', ?_,
          fun i => (generations' i).trans (generations i)⟩
        · have handle : t₁.handle s.index = t.handle s.index := by
            simp only [Arena.handle, generations]
          rw [Rose.index_push, handle] at ran'
          simp [graft.graftAll, ran, ran', bind, Except.bind]
        · rw [Rose.shapes, Rose.shapes, same, same']
    intro t fs s h
    obtain ⟨t₁, ran, holds, -, generations⟩ := h.addChild type args
    have inside :
        t₁.HoldsBeside (Rose.fill (s.lastFrame :: fs) (.node t.freshIndex type args [])) rest :=
      holds
    obtain ⟨t₂, cs', ran', holds', same, generations'⟩ := all children (fun c hc => hc) inside
    refine ⟨t₂, .node t.freshIndex type args cs', ?_, ?_, ?_,
      fun i => (generations' i).trans (generations i)⟩
    · have handle : t₂.handle t.freshIndex = t₁.handle t.freshIndex := by
        simp only [Arena.handle, generations']
      simp only [Rose.index_node] at ran' ⊢
      simp [Arena.graft, ran, ran', handle, bind, Except.bind, pure, Except.pure]
    · exact holds'
    · rw [Rose.shape, Rose.shape, same]

theorem Holds.graft (c : Rose) (h : t.Holds (Rose.fill fs s)) :
    ∃ t' c', t.graft (t.handle s.index) c = .ok (t', t'.handle c'.index) ∧
    t'.Holds (Rose.fill fs (s.push c')) ∧ c'.shape = c.shape ∧
    ∀ i, t'.generation i = t.generation i :=
  (HoldsBeside.graft c h.beside).imp fun _ => Exists.imp fun _ ⟨ran, holds, more⟩ =>
    ⟨ran, holds.holds, more⟩

end Arena

end BilingualC
