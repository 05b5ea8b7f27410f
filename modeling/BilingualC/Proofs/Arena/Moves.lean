import Mathlib
import BilingualC.Proofs.Arena.Growth

/-!
# Moving subtrees in their arena

Taking a node out closes the gap between its neighbours; its record is given back when it is the
last one, which no other record can notice. Exchanging two nodes rewrites the two links that lead to
them and the two links that follow them. These are four different cells unless the nodes stand side
by side; then the link to the second node is the link after the first, and the writes meet in the
right order.
-/

namespace BilingualC

namespace Frame

/-- The node with the hole closed. -/
def drop (f : Frame) : Rose := .node f.index f.type f.args (f.before ++ f.after)

@[simp] theorem drop_index (f : Frame) : f.drop.index = f.index := rfl

end Frame

namespace Arena

variable {t : Arena} {s : Rose} {f : Frame} {fs : List Frame} {rest : List Block}

/-! ## Taking nodes out -/

theorem HasBlock.of_items {b : Block} (h : t.HasBlock b) {t' : Arena} (items : t'.items = t.items) :
    t'.HasBlock b :=
  h.of_cells (by rw [size, items]; exact h.high) fun i _ => by rw [fixedCell, items, fixedCell]

theorem HasAll.of_items {bs : List Block} (h : t.HasAll bs) {t' : Arena}
    (items : t'.items = t.items) : t'.HasAll bs :=
  ⟨fun b hb => (h.held b hb).of_items items, h.apart⟩

/-- The last record can be given back. -/
theorem HasAll.shrink {b : Block} {bs : List Block} (h : t.HasAll (b :: bs))
    (last : b.index + 3 + b.args.length = t.size) :
    ({ t with items := t.items.shrink (b.index - 2).toNat } : Arena).HasAll bs := by
  obtain ⟨hb, hbs, apart⟩ := HasAll.cons_iff.mp h
  have low := hb.low
  refine ⟨fun c hc => ?_, hbs.apart⟩
  have held := hbs.held c hc
  have high := held.high
  have before : c.index + 3 + c.args.length ≤ b.index - 2 := by
    have := apart c hc
    unfold Block.Apart at this
    omega
  refine held.of_cells ?_ fun i covers => ?_
  · simp only [size, Array.size_shrink] at last ⊢
    push_cast
    omega
  · have inside := held.covers_range covers
    have kept : i.toNat < (b.index - 2).toNat := by
      unfold Block.Covers at covers
      omega
    have present : i.toNat < t.items.size := by
      unfold size at inside
      omega
    simp [fixedCell, kept, present]

/-- A removed record is given back if it is the last one and has no children; the other blocks are
left alone. -/
theorem HasAll.reclaim {bs : List Block} {next : Int} (h : t.HasAll (s.blocks next ++ bs)) :
    ∃ own, (t.reclaim (t.handle s.index)).HasAll (own ++ bs) ∧
      if s.children = [] ∧ s.index + 3 + s.args.length = t.size then
        own = [] ∧ ((t.reclaim (t.handle s.index)).size : Int) = s.index - 2
      else own = s.blocks next := by
  have here : t.HasBlock (s.block next) := h.held _ (by simp [Rose.blocks_eq])
  have count : t.fixedCell s.index = s.children.length := here.count
  have argc : t.fixedCell (s.index + 2) = s.args.length := here.argc
  simp only [Arena.reclaim, index_handle, count, argc, Bool.and_eq_true, beq_iff_eq,
    Nat.cast_eq_zero, List.length_eq_zero_iff]
  split
  · rename_i last
    rw [Rose.blocks_eq, last.1, Rose.blocksTo_nil] at h
    refine ⟨[], HasAll.shrink h last.2, rfl, ?_⟩
    have low : 2 ≤ s.index := here.low
    simp only [size, Array.size_shrink] at last ⊢
    push_cast
    omega
  · exact ⟨_, h, rfl⟩

/-- Closes the gap that a child leaves. -/
theorem HasAll.unlink {bs : List Block} {next : Int} (h : t.HasAll (f.blocks next f.link ++ bs)) :
    (t.setFixedCell f.index (f.before.length + f.after.length)).HasAll (f.drop.blocks next ++ bs) :=
    by
  have counted := HasAll.write_count (b := f.block next f.link) h (f.before.length + f.after.length)
  have link : Rose.lead (-f.index) f.after = f.link := rfl
  rw [Rose.blocks_eq, Frame.drop, Rose.children_node, Rose.index_node, Rose.blocksTo_append, link]
  have block : ∀ first, Block.mk f.index next f.type (f.before.length + f.after.length) first f.args
      = ⟨f.index, next, f.type, ((f.before ++ f.after).length : Nat), first, f.args⟩ := by
    intro first
    rw [List.length_append, Nat.cast_add]
  by_cases alone : f.before ++ f.after = []
  · have forgotten := counted.forget_first
    simp only [Frame.block, block] at forgotten
    simp only [Rose.block, Rose.index_node, Rose.type_node, Rose.args_node, Rose.children_node,
      alone, List.head?_nil, Option.map_none] at forgotten ⊢
    exact forgotten
  · have first : (f.before ++ f.after).head?.map Rose.index = some (Rose.lead f.link f.before) := by
      cases hb : f.before with
      | nil =>
        cases ha : f.after with
        | nil => simp [hb, ha] at alone
        | cons c cs => simp [Frame.link, ha]
      | cons c cs => simp
    simp only [Frame.block, block] at counted
    simp only [Rose.block, Rose.index_node, Rose.type_node, Rose.args_node,
      Rose.children_node, first]
    exact counted

/-- A node is taken out. Its subtree stays where it is, but no node of the tree leads to it any
more; a last record without children is given back. -/
theorem HoldsBeside.detach (h : t.HoldsBeside (Rose.fill (f :: fs) s) rest) :
    ∃ t' own, t.detach (t.handle s.index) = .ok t' ∧
    t'.HoldsBeside (Rose.fill fs f.drop) (own ++ rest) ∧ (if s.children = [] ∧
      s.index + 3 + s.args.length = t.size then own = [] ∧ (t'.size : Int) = s.index - 2
        else own = s.blocks f.link) ∧
      ∀ i, i ≠ s.index → t'.generation i = t.generation i := by
  have next : t.fixedCell (s.index - 2) = f.link := h.holds.block.next
  obtain ⟨range, -, link⟩ := Rose.points_around 0 f fs _ _ _ (List.append_assoc .. ▸ h.split)
  -- first the link that led to the node is led past it
  have linked := (link f.link).perm (show List.Perm _ (f.blocks (Rose.linkAfter 0 fs) f.link ++
      (s.blocks f.link ++ (Rose.around 0 fs f.index ++ rest))) by
    classical
    rw [List.perm_iff_count]
    intro b
    simp only [List.count_append, Rose.around, Rose.linkAfter]
    omega)
  have parent : (t.setFixedCell f.slot f.link).HasBlock (f.block (Rose.linkAfter 0 fs) f.link) :=
    linked.head
  have inside :=
    parent.covers_range (i := f.index) (by simp only [Block.Covers, Frame.block]; omega)
  -- then the record above counts one child less
  have count :
    (t.setFixedCell f.slot f.link).fixedCell f.index - 1 = f.before.length + f.after.length := by
    rw [show Arena.fixedCell _ f.index = _ from parent.count]
    simp only [Frame.block]
    omega
  -- at last the record itself is given back, if nothing stands behind it or below it
  obtain ⟨own, closed, given⟩ := (linked.unlink.perm (show List.Perm _ (s.blocks f.link ++
      (Rose.around 0 fs f.index ++ f.drop.blocks (Rose.linkAfter 0 fs) ++ rest)) by
    classical
    rw [List.perm_iff_count]
    intro b
    simp only [List.count_append]
    omega)).reclaim
  let removed :=
    ((t.setFixedCell f.slot f.link).setFixedCell f.index (f.before.length + f.after.length)).reclaim
    (t.handle s.index)
  rw [size_setFixedCell, size_setFixedCell] at given
  refine ⟨{ removed with
    generations := removed.generations.insert s.index (removed.generation s.index + 1) },
    own, ?_, HoldsBeside.join ?_ ((closed.perm ?_).of_items rfl), given, ?_⟩
  · simp only [Arena.detach, h.holds.parent, h.holds.link, bind, Except.bind, index_handle, next,
      setCell_of_range _ range.1 range.2, cell_of_range inside.1 inside.2, count,
      setCell_of_range _ inside.1 inside.2]
    rfl
  · rw [← h.root, Rose.index_fill]
    rfl
  · classical
    rw [Frame.drop_index, List.perm_iff_count]
    intro b
    simp only [List.count_append]
    omega
  · intro i other
    have kept : removed.generation i = t.generation i := by
      simp only [removed, Arena.reclaim]
      split <;> rfl
    rw [← kept]
    simp [generation, Std.TreeMap.getD_insert, other.symm]

theorem Holds.detach (h : t.Holds (Rose.fill (f :: fs) s)) :
    ∃ t', t.detach (t.handle s.index) = .ok t' ∧ t'.Holds (Rose.fill fs f.drop) ∧
      ∀ i, i ≠ s.index → t'.generation i = t.generation i :=
  h.beside.detach.imp fun _ ⟨_, ran, holds, _, more⟩ => ⟨ran, holds.holds, more⟩

end Arena

/-! ## Two places -/

namespace Fork

/-- The block of the node itself, with the link after it and the index in the first hole. -/
def block (f : Fork) (next first : Int) : Block :=
  ⟨f.index, next, f.type, f.before.length + f.between.length + f.after.length + 2,
    some (Rose.lead first f.before), f.args⟩

theorem blocks_plug (f : Fork) (next : Int) (x y : Rose) : (f.plug x y).blocks next =
    f.block next x.index :: (Rose.blocksTo x.index f.before ++
      (x.blocks (Rose.lead y.index f.between) ++ (Rose.blocksTo y.index f.between ++
      (y.blocks (Rose.lead (-f.index) f.after) ++ Rose.blocksTo (-f.index) f.after)))) := by
  have block : (f.plug x y).block next = f.block next x.index := by
    rw [plug, Frame.block_plug]
    simp only [Frame.block, Fork.block, left, List.length_append, List.length_cons]
    congr 1
    push_cast
    omega
  rw [Rose.blocks_eq, block, plug, Frame.plug_children]
  simp only [left, Rose.blocksTo_append, Rose.blocksTo_cons, Rose.lead_append, Rose.lead_cons,
    Frame.plug_index]

variable (f : Fork) (inner other outer : List Frame)

/-- The tree with two subtrees, one behind the other, in their places. -/
def fill (a b : Rose) : Rose := Rose.fill outer (f.plug (Rose.fill inner a) (Rose.fill other b))

/-- The link after the first place, when the second one holds a given index. -/
def firstLink (b : Int) : Int := Rose.linkAfter (Rose.lead (Rose.top other b) f.between) inner

/-- The link after the second place. -/
def secondLink : Int := Rose.linkAfter (Rose.lead (-f.index) f.after) other

/-- The blocks around two places that hold given indices. -/
def around (a b : Int) : List Block :=
  f.block (Rose.linkAfter 0 outer) (Rose.top inner a) :: (Rose.blocksTo (Rose.top inner a) f.before
    ++ (Rose.around (Rose.lead (Rose.top other b) f.between) inner a ++
    (Rose.blocksTo (Rose.top other b) f.between ++ (Rose.around (Rose.lead (-f.index) f.after) other
    b ++ (Rose.blocksTo (-f.index) f.after ++ Rose.around 0 outer f.index)))))

theorem blocks_fill (a b : Rose) : ((f.fill inner other outer a b).blocks 0).Perm
    (f.around inner other outer a.index b.index ++
      (a.blocks (f.firstLink inner other b.index) ++ b.blocks (f.secondLink other))) := by
  have whole := Rose.blocks_fill 0 outer (f.plug (Rose.fill inner a) (Rose.fill other b))
  have first := Rose.blocks_fill (Rose.lead (Rose.top other b.index) f.between) inner a
  have second := Rose.blocks_fill (Rose.lead (-f.index) f.after) other b
  classical
  rw [List.perm_iff_count] at *
  intro x
  have whole := whole x
  have first := first x
  have second := second x
  rw [blocks_plug, Rose.index_fill, Rose.index_fill] at whole
  simp only [plug, Frame.plug_index, left, List.count_append, List.count_cons] at whole first second
  simp only [fill, around, firstLink, secondLink, plug, left, List.count_append, List.count_cons]
  omega

/-- The cell that links to the first place. -/
def firstSlot : Int := match inner with
  | [] => Rose.slot f.index f.before
  | g :: _ => g.slot

/-- The cell that links to the second place, behind a first child. -/
def secondSlot (x : Rose) : Int := match other with
  | [] => Rose.slot f.index (f.before ++ x :: f.between)
  | g :: _ => g.slot

/-- The two places stand side by side. -/
def Adjacent : Prop := inner = [] ∧ other = [] ∧ f.between = []

open Arena

theorem points_first (b : Int) : Points (f.firstSlot inner) fun a =>
    f.around inner other outer a b := by
  cases inner with
  | nil =>
    refine ((Rose.points_slot (f.block (Rose.linkAfter 0 outer) 0) f.before).frame (Rose.blocksTo
      (Rose.top other b) f.between ++ (Rose.around (Rose.lead (-f.index) f.after) other b ++
      (Rose.blocksTo (-f.index) f.after ++ Rose.around 0 outer f.index)))).perm fun a => ?_
    exact List.Perm.refl _
  | cons g inner =>
    refine ((Rose.points_around (Rose.lead (Rose.top other b) f.between) g inner).frame
      (f.block (Rose.linkAfter 0 outer) (Rose.top inner g.index) ::
      (Rose.blocksTo (Rose.top inner g.index) f.before ++ (Rose.blocksTo
      (Rose.top other b) f.between ++ (Rose.around (Rose.lead (-f.index) f.after) other b ++
      (Rose.blocksTo (-f.index) f.after ++ Rose.around 0 outer f.index)))))).perm fun a => ?_
    classical
    rw [List.perm_iff_count]
    intro x
    simp only [around, Rose.top, List.count_append, List.count_cons]
    omega

/-- The link to the second place is not the one after the first unless they stand side by side. -/
theorem points_second {a : Int} (x : Rose)
    (index : inner ≠ [] → x.index = Rose.top inner a) (apart : ¬ f.Adjacent inner other) :
    Points (f.secondSlot other x) fun b => f.around inner other outer a b := by
  classical
  cases other with
  | cons g other =>
    refine ((Rose.points_around (Rose.lead (-f.index) f.after) g other).frame
      (f.block (Rose.linkAfter 0 outer) (Rose.top inner a) :: (Rose.blocksTo (Rose.top inner a)
      f.before ++ (Rose.around (Rose.lead (Rose.top other g.index) f.between) inner a ++
      (Rose.blocksTo (Rose.top other g.index) f.between ++
      (Rose.blocksTo (-f.index) f.after ++ Rose.around 0 outer f.index)))))).perm fun b => ?_
    rw [List.perm_iff_count]
    intro x
    simp only [around, Rose.top, List.count_append, List.count_cons]
    omega
  | nil =>
    cases between : f.between using List.reverseRecOn with
    | append_singleton before last =>
      have slot : f.secondSlot [] x = last.index - 2 := by
        rw [secondSlot, between, ← List.cons_append, ← List.append_assoc, Rose.slot_concat]
      rw [slot]
      refine ((Rose.points_blocksTo before last).frame
        (f.block (Rose.linkAfter 0 outer) (Rose.top inner a) :: (Rose.blocksTo
        (Rose.top inner a) f.before ++ (Rose.around (Rose.lead last.index before) inner a ++
        (Rose.blocksTo (-f.index) f.after ++ Rose.around 0 outer f.index))))).perm fun b => ?_
      rw [List.perm_iff_count]
      intro x
      simp only [around, between, Rose.top, Rose.around, Rose.lead_append, Rose.lead_cons,
        List.count_append, List.count_cons, List.count_nil]
      omega
    | nil =>
      cases inner with
      | nil => exact absurd ⟨rfl, rfl, between⟩ apart
      | cons g inner =>
        have slot : f.secondSlot [] x = Rose.top (g :: inner) a - 2 := by
          rw [secondSlot, between, Rose.slot_concat, index (List.cons_ne_nil _ _)]
        rw [slot]
        refine ((Rose.points_next g inner a).frame (f.block (Rose.linkAfter 0 outer)
          (Rose.top inner g.index) :: (Rose.blocksTo (Rose.top inner g.index) f.before ++
          (Rose.blocksTo (-f.index) f.after ++ Rose.around 0 outer f.index)))).perm fun b => ?_
        rw [List.perm_iff_count]
        intro x
        simp only [around, between, Rose.top, Rose.around, Rose.lead_nil, Rose.blocksTo_nil,
          List.count_append, List.count_cons, List.count_nil]
        omega

/-- The link after the first place does not depend on the second unless they stand side by side. -/
theorem firstLink_eq (apart : ¬ f.Adjacent inner other) (b c : Int) :
    f.firstLink inner other b = f.firstLink inner other c := by
  cases inner with
  | cons g inner => rfl
  | nil =>
    cases other with
    | cons g other => rfl
    | nil =>
      cases between : f.between with
      | nil => exact absurd ⟨rfl, rfl, between⟩ apart
      | cons d ds => simp [firstLink, between, Rose.linkAfter]

end Fork

/-! ## Exchanging nodes -/

namespace Arena

variable {t : Arena} {a b : Rose} {f : Fork} {inner other outer : List Frame} {rest : List Block}

/-- The place of the first of two subtrees. -/
theorem Holds.first (h : t.Holds (f.fill inner other outer a b)) :
    t.Holds (Rose.fill (inner ++ f.left (Rose.fill other b) :: outer) a) := by
  rw [Rose.fill_append, Rose.fill_cons]
  exact h

/-- The place of the second of two subtrees. -/
theorem Holds.second (h : t.Holds (f.fill inner other outer a b)) :
    t.Holds (Rose.fill (other ++ f.right (Rose.fill inner a) :: outer) b) := by
  rw [Rose.fill_append, Rose.fill_cons, Fork.plug_right]
  exact h

theorem Holds.link_first (h : t.Holds (f.fill inner other outer a b)) :
    t.link (t.handle a.index) = .ok (f.firstSlot inner) := by
  have place := h.first
  cases inner with
  | nil => exact place.link
  | cons g inner => exact place.link

theorem Holds.link_second (h : t.Holds (f.fill inner other outer a b)) :
    t.link (t.handle b.index) = .ok (f.secondSlot other (Rose.fill inner a)) := by
  have place := h.second
  cases other with
  | nil => exact place.link
  | cons g other => exact place.link

/-- Exchanges the links that follow two nodes. -/
theorem HasAll.exchange_next {bs : List Block} {x y : Int}
    (h : t.HasAll (bs ++ (a.blocks x ++ b.blocks y))) :
    let done :=
      (t.setFixedCell (a.index - 2) (t.fixedCell (b.index - 2))).setFixedCell (b.index - 2)
      (t.fixedCell (a.index - 2))
    done.HasAll (bs ++ (b.blocks x ++ a.blocks y)) := by
  obtain ⟨-, readA, writeA⟩ := a.points_blocks.middle h
  have swapped := h.perm (List.perm_append_comm.append_left bs)
  obtain ⟨-, readB, -⟩ := b.points_blocks.middle swapped
  obtain ⟨-, -, writeB⟩ :=
    b.points_blocks.middle ((writeA y).perm (List.perm_append_comm.append_left bs))
  rw [readA, readB]
  exact writeB x

/-- The cells that an exchange writes, when the links to both nodes are known. -/
def exchanged (t : Arena) (slotA slotB i j : Int) : Arena :=
  let t := (t.setFixedCell slotA j).setFixedCell slotB i
  (t.setFixedCell (i - 2) (t.fixedCell (j - 2))).setFixedCell (j - 2) (t.fixedCell (i - 2))

theorem exchange_eq {n m : Handle} {x y : Int}
    (apart : n.index ≠ m.index) (linkN : t.link n = .ok x)
    (linkM : t.link m = .ok y) (rangeX : 0 ≤ x ∧ x < t.size) (rangeY : 0 ≤ y ∧ y < t.size)
    (readX : t.fixedCell x = n.index) (readY : t.fixedCell y = m.index) :
    t.exchange n m = .ok (t.exchanged x y n.index m.index) := by
  have rangeY' : y < (t.setFixedCell x m.index).size := by
    rw [size_setFixedCell]
    exact rangeY.2
  simp only [Arena.exchange, beq_iff_eq, apart, if_false, linkN, linkM, bind, Except.bind,
    cell_of_range rangeX.1 rangeX.2, cell_of_range rangeY.1 rangeY.2, readX, readY,
    setCell_of_range _ rangeX.1 rangeX.2, setCell_of_range _ rangeY.1 rangeY']
  rfl

theorem setFixedCell_comm (t : Arena) {i j : Int} (v w : Int)
    (low : 0 ≤ i) (low' : 0 ≤ j) (apart : i ≠ j) :
    (t.setFixedCell i v).setFixedCell j w = (t.setFixedCell j w).setFixedCell i v := by
  have other : i.toNat ≠ j.toNat := by omega
  simp only [setFixedCell, Array.setIfInBounds_comm _ _ other]

/-- The order in which two nodes are named does not matter. -/
theorem exchanged_comm (t : Arena) {x y i j : Int} (lowX : 0 ≤ x) (lowY : 0 ≤ y) (lowI : 2 ≤ i)
    (lowJ : 2 ≤ j) (slots : x ≠ y) (apart : i ≠ j) : t.exchanged x y i j = t.exchanged y x j i := by
  simp only [exchanged]
  rw [setFixedCell_comm t j i lowX lowY slots]
  exact setFixedCell_comm _ _ _ (by omega) (by omega) (by omega)

/-- What an exchange of two parted subtrees relies on and what it leads to. -/
theorem HoldsBeside.exchanged (h : t.HoldsBeside (f.fill inner other outer a b) rest) :
    ∃ x y, t.link (t.handle a.index) = .ok x ∧ t.link (t.handle b.index) = .ok y ∧
    (0 ≤ x ∧ x < t.size) ∧ (0 ≤ y ∧ y < t.size) ∧ t.fixedCell x = a.index ∧
    t.fixedCell y = b.index ∧ a.index ≠ b.index ∧
    (t.exchanged x y a.index b.index).HoldsBeside (f.fill inner other outer b a) rest := by
  have places (a b : Rose) : ((f.fill inner other outer a b).blocks 0 ++ rest).Perm
      (f.around inner other outer a.index b.index ++
      (rest ++ (a.blocks (f.firstLink inner other b.index) ++ b.blocks (f.secondLink other)))) := by
    refine ((f.blocks_fill inner other outer a b).append_right rest).trans ?_
    rw [List.append_assoc]
    exact List.perm_append_comm.append_left _
  have all := h.all.perm (places a b)
  have apart : a.index ≠ b.index := by
    have pair := (List.pairwise_append.mp all.right.right.apart).2.2
    exact (pair _ (a.block_mem_blocks _) _ (b.block_mem_blocks _)).index_ne
  have root : (f.fill inner other outer b a).index = rootIndex := by
    rw [← h.root, Fork.fill, Fork.fill, Rose.index_fill, Rose.index_fill]
    rfl
  obtain ⟨rangeX, readX, writeX⟩ := f.points_first inner other outer b.index t _ _ all
  refine ⟨f.firstSlot inner, f.secondSlot other (Rose.fill inner a), h.holds.link_first,
    h.holds.link_second, rangeX, ?_⟩
  by_cases adjacent : f.Adjacent inner other
  · obtain ⟨rfl, rfl, between⟩ := adjacent
    have slot : f.secondSlot [] (Rose.fill [] a) = a.index - 2 := by
      rw [Fork.secondSlot, between, Rose.slot_concat]
      rfl
    have link : ∀ i, f.firstLink [] [] i = i := fun i => by
      simp [Fork.firstLink, between, Rose.linkAfter, Rose.top]
    have same : ∀ i j k, f.around [] [] outer i j = f.around [] [] outer i k := fun i j k => by
      simp [Fork.around, between, Rose.around]
    rw [slot]
    rw [← List.append_assoc] at all
    obtain ⟨rangeY, readY, -⟩ := a.points_blocks.middle all
    refine ⟨rangeY, readX, readY.trans (link _), apart, root, ?_⟩
    -- The link after the first node is written twice: it leads to itself for a moment.
    obtain ⟨-, -, writeY⟩ := a.points_blocks.middle (List.append_assoc .. ▸ writeX b.index)
    refine (writeY a.index).exchange_next.perm (List.Perm.trans ?_ (places b a).symm)
    simp only [link, same b.index b.index a.index, List.append_assoc]
    exact List.Perm.refl _
  · have second : ∀ i, inner ≠ [] → (Rose.fill inner a).index = Rose.top inner i := by
      intro i some
      obtain ⟨g, more, rfl⟩ := List.exists_cons_of_ne_nil some
      rw [Rose.index_fill, Rose.top, Rose.top]
    have points :=
      fun i => f.points_second inner other outer (Rose.fill inner a) (second i) adjacent
    obtain ⟨rangeY, readY, -⟩ := points a.index t _ _ all
    refine ⟨rangeY, readX, readY, apart, root, ?_⟩
    obtain ⟨-, -, writeY⟩ := points b.index _ _ _ (writeX b.index)
    have written := writeY a.index
    rw [← List.append_assoc] at written
    refine written.exchange_next.perm (List.Perm.trans ?_ (places b a).symm)
    rw [f.firstLink_eq inner other adjacent a.index b.index, List.append_assoc]

/-- Two parted subtrees change places, whichever is named first. -/
theorem HoldsBeside.exchange (h : t.HoldsBeside (f.fill inner other outer a b) rest) :
    ∃ t', t.exchange (t.handle a.index) (t.handle b.index) = .ok t' ∧
    t.exchange (t.handle b.index) (t.handle a.index) = .ok t' ∧
    t'.HoldsBeside (f.fill inner other outer b a) rest ∧ ∀ i, t'.generation i = t.generation i := by
  obtain ⟨x, y, linkX, linkY, rangeX, rangeY, readX, readY, apart, holds⟩ := h.exchanged
  have slots : x ≠ y := by
    rintro rfl
    exact apart (readX.symm.trans readY)
  have lowA : 2 ≤ a.index := h.holds.first.block.low
  have lowB : 2 ≤ b.index := h.holds.second.block.low
  refine ⟨t.exchanged x y a.index b.index, exchange_eq apart linkX linkY rangeX rangeY readX readY,
    ?_, holds, fun i => rfl⟩
  rw [exchange_eq apart.symm linkY linkX rangeY rangeX readY readX,
    exchanged_comm t rangeX.1 rangeY.1 lowA lowB slots apart]
  rfl

/-! ## Places by index -/

/-- Parted subtrees have no node in common. -/
theorem Holds.parted (h : t.Holds (f.fill inner other outer a b)) :
    (∀ i ∈ a.indices, i ∉ b.indices) := by
  have all := (h.all.perm (f.blocks_fill inner other outer a b)).right.nodup
  rw [List.map_append, Rose.map_index_blocks, Rose.map_index_blocks] at all
  exact fun i ha hb => (List.nodup_append.mp all).2.2 i ha i hb rfl

variable {fs gs : List Frame}

/-- Places that part are two places of a fork. -/
theorem Holds.of_parts (h : t.Holds (Rose.fill fs a)) (parts : Rose.Parts fs gs a b) :
    ∃ (f : Fork) (inner other outer : List Frame), Rose.fill fs a = f.fill inner other outer a b ∧
      t.Holds (f.fill inner other outer a b) := by
  obtain ⟨f, inner, other, outer, rfl, rfl⟩ := parts
  rw [Rose.fill_append] at h
  exact ⟨f, inner, other, outer, by rw [Rose.fill_append]; rfl, h⟩

/-- The index of a node names its place. -/
theorem Holds.unique (h : t.Holds (Rose.fill fs a)) (same : Rose.fill fs a = Rose.fill gs b)
    (index : a.index = b.index) : fs = gs ∧ a = b := by
  have h' : t.Holds (Rose.fill gs b) := same ▸ h
  have strict : ∀ (x : Rose) (k : List Frame), t.Holds (Rose.fill k x) →
      ∀ inner outer, k = inner ++ outer → (Rose.fill inner x).index = x.index → inner = [] := by
    rintro x k hx inner outer rfl top
    cases inner with
    | nil => rfl
    | cons g inner =>
      obtain ⟨f, mem, root⟩ := Rose.top_mem g inner x.index
      rw [Rose.index_fill, ← root] at top
      exact absurd top (hx.frame_ne (List.mem_append_left _ mem))
  rcases Rose.fill_eq_fill same with ⟨inner, rfl, rfl⟩ | ⟨inner, rfl, rfl⟩ | parts | parts
  · obtain rfl := strict b _ h' inner fs rfl index
    exact ⟨rfl, rfl⟩
  · obtain rfl := strict a _ h inner gs rfl index.symm
    exact ⟨rfl, rfl⟩
  · obtain ⟨f, inner, other, outer, -, holds⟩ := h.of_parts parts
    obtain ⟨x, y, -, -, -, -, -, -, apart, -⟩ := holds.beside.exchanged
    exact absurd index apart
  · obtain ⟨f, inner, other, outer, -, holds⟩ := h'.of_parts parts
    obtain ⟨x, y, -, -, -, -, -, -, apart, -⟩ := holds.beside.exchanged
    exact absurd index.symm apart

/-- The frames of a place are the nodes whose subtrees hold it. -/
theorem Holds.above_iff (h : t.Holds (Rose.fill fs a)) (same : Rose.fill fs a = Rose.fill gs b)
    (apart : a.index ≠ b.index) : (∃ g ∈ gs, g.index = a.index) ↔ b.index ∈ a.indices := by
  constructor
  · rintro ⟨g, mem, index⟩
    obtain ⟨inner, outer, rfl⟩ := List.append_of_mem mem
    have place : Rose.fill fs a = Rose.fill outer (g.plug (Rose.fill inner b)) := by
      rw [same, Rose.fill_append, Rose.fill_cons]
    obtain ⟨-, rfl⟩ := h.unique place index.symm
    exact List.mem_map_of_mem (Rose.mem_nodes_child (c := Rose.fill inner b) (by simp)
      (Rose.mem_nodes_fill inner b.mem_nodes_self))
  · intro mem
    obtain ⟨x, hx, index⟩ := List.mem_map.mp mem
    obtain ⟨inner, rfl⟩ := Rose.exists_fill hx
    rw [← Rose.fill_append] at h same
    obtain ⟨rfl, rfl⟩ := h.unique same index
    cases inner with
    | nil => exact absurd rfl apart
    | cons g inner =>
      obtain ⟨k, mem, top⟩ := Rose.top_mem g inner x.index
      exact ⟨k, List.mem_append_left _ mem, top.trans (Rose.index_fill (g :: inner) x).symm⟩

/-- Two nodes cannot change places if one of them is the root or lies in the subtree of the
other. -/
theorem Holds.isNested (h : t.Holds (Rose.fill fs a)) (same : Rose.fill fs a = Rose.fill gs b)
    (apart : a.index ≠ b.index) : t.isNested (t.handle a.index) (t.handle b.index) = .ok (decide
      (a.index = rootIndex ∨ b.index = rootIndex ∨ b.index ∈ a.indices ∨ a.index ∈ b.indices)) := by
  have h' : t.Holds (Rose.fill gs b) := same ▸ h
  have enough : ∀ {k : List Frame}, k.length ≤ t.size → k.length < t.walkBound := fun le => by
    unfold walkBound
    omega
  have down := h'.isBelow a.index (enough h'.length_le)
  have up := h.isBelow b.index (enough h.length_le)
  simp only [h.above_iff same apart] at down
  simp only [h'.above_iff same.symm apart.symm] at up
  simp only [Arena.isNested, isAncestor, index_handle, down, up, bind, Except.bind,
    Bool.or_eq_true, beq_iff_eq]
  by_cases root : a.index = rootIndex ∨ b.index = rootIndex
  · rw [if_pos root]
    simp only [pure, Except.pure, ← or_assoc, root, true_or, decide_true]
  · rw [if_neg root]
    by_cases inside : b.index ∈ a.indices
    · simp [inside, pure, Except.pure]
    · simp [inside, not_or.mp root]

end Arena

end BilingualC
