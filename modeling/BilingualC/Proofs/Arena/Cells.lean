import Mathlib
import BilingualC.Proofs.Arena.Context

/-!
# Writing the cells of blocks

`Arena.HasAll` says that an arena has some blocks and that no two of them share a cell. Writing a
cell of one block then leaves the others alone. `Points` says that a cell of some blocks holds a
link that may be changed to anything: it is how a node is taken out of its place and another one put
there.
-/

namespace BilingualC

namespace Block

/-- A cell belongs to a block. -/
def Covers (b : Block) (i : Int) : Prop := b.index - 2 ≤ i ∧ i < b.index + 3 + b.args.length

theorem Apart.symm {a b : Block} (h : a.Apart b) : b.Apart a := Or.symm h

theorem Apart.not_covers {a b : Block} (h : a.Apart b) {i : Int} (covers : a.Covers i) :
    ¬ b.Covers i := by
  unfold Apart Covers at *
  omega

theorem Apart.index_ne {a b : Block} (h : a.Apart b) : a.index ≠ b.index := by
  unfold Apart at h
  omega

/-- Two blocks take the same cells. -/
def Alike (a b : Block) : Prop := a.index = b.index ∧ a.args.length = b.args.length

theorem Apart.of_alike {a a' b : Block} (h : a.Apart b) (alike : a'.Alike a) : a'.Apart b := by
  unfold Apart at *
  rw [alike.1, alike.2]
  exact h

end Block

namespace Arena

/-! ## Single cells -/

@[simp] theorem size_setFixedCell (t : Arena) (i v : Int) : (t.setFixedCell i v).size = t.size := by
  simp [setFixedCell, size]

@[simp] theorem generation_setFixedCell (t : Arena) (i v j : Int) :
    (t.setFixedCell i v).generation j = t.generation j := rfl

@[simp] theorem handle_setFixedCell (t : Arena) (i v j : Int) :
    (t.setFixedCell i v).handle j = t.handle j :=
  rfl

theorem fixedCell_setFixedCell (t : Arena) {i j : Int} (v : Int) (low : 0 ≤ i) (high : i < t.size)
    (other : 0 ≤ j) : (t.setFixedCell i v).fixedCell j = if j = i then v else t.fixedCell j := by
  have inside : i.toNat < t.items.size := by
    unfold size at high
    omega
  unfold setFixedCell fixedCell
  by_cases same : j = i
  · subst same
    simp [inside]
  · have apart : i.toNat ≠ j.toNat := by omega
    simp [same, apart]

theorem setCell_of_range {t : Arena} {i : Int} (v : Int) (low : 0 ≤ i) (high : i < t.size) :
    t.setCell i v = .ok (t.setFixedCell i v) := by
  have inside : i.toNat < t.items.size := by
    unfold size at high
    omega
  simp [setCell, setFixedCell, setCellAt, low, inside, pure, Except.pure, bind, Except.bind]

theorem items_append (t : Arena) (cells : List Int) :
    (t.append cells).items = t.items ++ cells.toArray := by
  apply Array.toList_inj.mp
  simp [append, Array.toList_appendList]

theorem fixedCell_append (t : Arena) (cells : List Int) {i : Int} (low : 0 ≤ i)
    (high : i < t.size) : (t.append cells).fixedCell i = t.fixedCell i := by
  have inside : i.toNat < t.items.size := by
    unfold size at high
    omega
  simp [fixedCell, items_append, inside, Array.getElem?_append]

theorem fixedCell_append_new (t : Arena) (cells : List Int) (k : Nat) :
    (t.append cells).fixedCell (t.size + k) = cells.getD k 0 := by
  have there : ((t.size : Int) + k).toNat = t.items.size + k := by
    unfold size
    omega
  simp [fixedCell, items_append, there, Array.getElem?_append]

@[simp] theorem size_append (t : Arena) (cells : List Int) :
    (t.append cells).size = t.size + cells.length := by
  simp [size, items_append]

@[simp] theorem generation_append (t : Arena) (cells : List Int) (j : Int) :
    (t.append cells).generation j = t.generation j := rfl

/-! ## Single blocks -/

namespace HasBlock

variable {t : Arena} {b : Block}

theorem covers_range (h : t.HasBlock b) {i : Int} (covers : b.Covers i) : 0 ≤ i ∧ i < t.size := by
  have low := h.low
  have high := h.high
  unfold Block.Covers at covers
  omega

/-- An arena that has the same cells has the block too. -/
theorem of_cells (h : t.HasBlock b) {t' : Arena} (high : b.index + 3 + b.args.length ≤ t'.size)
    (same : ∀ i, b.Covers i → t'.fixedCell i = t.fixedCell i) : t'.HasBlock b where
  low := h.low
  high := high
  next := (same _ (by unfold Block.Covers; omega)).trans h.next
  type := (same _ (by unfold Block.Covers; omega)).trans h.type
  count := (same _ (by unfold Block.Covers; omega)).trans h.count
  first c hc := (same _ (by unfold Block.Covers; omega)).trans (h.first c hc)
  argc := (same _ (by unfold Block.Covers; omega)).trans h.argc
  args k hk := (same _ (by unfold Block.Covers; omega)).trans (h.args k hk)

theorem write_outside (h : t.HasBlock b) {i : Int} (v : Int) (low : 0 ≤ i) (high : i < t.size)
    (outside : ¬ b.Covers i) : (t.setFixedCell i v).HasBlock b := by
  refine h.of_cells (by simpa using h.high) fun j covers => ?_
  have inside := h.covers_range covers
  rw [fixedCell_setFixedCell t v low high inside.1, if_neg]
  rintro rfl
  exact outside covers

theorem append (h : t.HasBlock b) (cells : List Int) : (t.append cells).HasBlock b := by
  have high := h.high
  refine h.of_cells (by simp only [size_append, Nat.cast_add]; omega) fun j covers => ?_
  have inside := h.covers_range covers
  exact fixedCell_append t cells inside.1 inside.2

/-- Writing a cell changes the block by what the cell holds; the hypotheses say so cell by cell. -/
theorem write (h : t.HasBlock b) {i : Int} {v : Int} {b' : Block} (alike : b'.Alike b)
    (covers : b.Covers i) (next : b'.next = if i = b.index - 2 then v else b.next)
    (type : b'.type = if i = b.index - 1 then v else b.type)
    (count : b'.count = if i = b.index then v else b.count)
    (first : b'.first = if i = b.index + 1 then some v else b.first)
    (argc : i ≠ b.index + 2) (args : ∀ k (hk : k < b'.args.length) (hb : k < b.args.length),
      b'.args[k] = if i = b.index + 3 + k then v else b.args[k]) :
    (t.setFixedCell i v).HasBlock b' := by
  obtain ⟨sameIndex, sameLength⟩ := alike
  have range := h.covers_range covers
  have low := h.low
  have high := h.high
  have read : ∀ j, 0 ≤ j →
    (t.setFixedCell i v).fixedCell j = if i = j then v else t.fixedCell j := by
    intro j hj
    rw [fixedCell_setFixedCell t v range.1 range.2 hj]
    simp only [eq_comm]
  constructor
  · rw [sameIndex]; exact low
  · rw [sameIndex, sameLength, size_setFixedCell]; exact high
  · rw [sameIndex, read _ (by omega), next, h.next]
  · rw [sameIndex, read _ (by omega), type, h.type]
  · rw [sameIndex, read _ (by omega), count, h.count]
  · intro c hc
    rw [sameIndex, read _ (by omega)]
    rw [first] at hc
    split at hc
    · rename_i here
      rw [if_pos here]
      exact Option.some_inj.mp hc
    · rename_i other
      rw [if_neg other]
      exact h.first c hc
  · rw [sameIndex, read _ (by omega), if_neg argc, h.argc, sameLength]
  · intro k hk
    have hb : k < b.args.length := sameLength ▸ hk
    rw [sameIndex, read _ (by omega), args k hk hb, h.args k hb]

theorem write_next (h : t.HasBlock b) (v : Int) :
    (t.setFixedCell (b.index - 2) v).HasBlock { b with next := v } := by
  refine h.write ⟨rfl, rfl⟩ (by unfold Block.Covers; omega) ?_ ?_ ?_ ?_ (by omega) fun k hk hb => ?_
  · rw [if_pos rfl]
  all_goals rw [if_neg (by omega)]

theorem write_type (h : t.HasBlock b) (v : Int) :
    (t.setFixedCell (b.index - 1) v).HasBlock { b with type := v } := by
  refine h.write ⟨rfl, rfl⟩ (by unfold Block.Covers; omega) ?_ ?_ ?_ ?_ (by omega) fun k hk hb => ?_
  rotate_left
  · rw [if_pos rfl]
  all_goals rw [if_neg (by omega)]

theorem write_count (h : t.HasBlock b) (v : Int) :
    (t.setFixedCell b.index v).HasBlock { b with count := v } := by
  refine h.write ⟨rfl, rfl⟩ (by unfold Block.Covers; omega) ?_ ?_ ?_ ?_ (by omega) fun k hk hb => ?_
  rotate_left 2
  · rw [if_pos rfl]
  all_goals rw [if_neg (by omega)]

theorem write_first (h : t.HasBlock b) (v : Int) :
    (t.setFixedCell (b.index + 1) v).HasBlock { b with first := some v } := by
  refine h.write ⟨rfl, rfl⟩ (by unfold Block.Covers; omega) ?_ ?_ ?_ ?_ (by omega) fun k hk hb => ?_
  rotate_left 3
  · rw [if_pos rfl]
  all_goals rw [if_neg (by omega)]

theorem write_arg (h : t.HasBlock b) {k : Nat} (inside : k < b.args.length) (v : Int) :
    (t.setFixedCell (b.index + 3 + k) v).HasBlock { b with args := b.args.set k v } := by
  refine h.write ⟨rfl, by simp⟩ (by unfold Block.Covers; omega) ?_ ?_ ?_ ?_
    (by omega) fun j hj hb => ?_
  rotate_right
  · rw [List.getElem_set]
    simp only [add_right_inj, Nat.cast_inj]
  all_goals rw [if_neg (by omega)]

theorem forget_first (h : t.HasBlock b) : t.HasBlock { b with first := none } where
  low := h.low
  high := h.high
  next := h.next
  type := h.type
  count := h.count
  first _ hc := nomatch hc
  argc := h.argc
  args := h.args

end HasBlock

/-! ## Many blocks -/

/-- An arena has some blocks, and they have no cell in common. -/
structure HasAll (t : Arena) (bs : List Block) : Prop where
  held : ∀ b ∈ bs, t.HasBlock b
  apart : bs.Pairwise Block.Apart

namespace HasAll

variable {t : Arena} {b b' : Block} {bs cs : List Block}

theorem perm (h : t.HasAll bs) (p : bs.Perm cs) : t.HasAll cs where
  held b hb := h.held b (p.mem_iff.mpr hb)
  apart := h.apart.perm p Block.Apart.symm

theorem cons_iff : t.HasAll (b :: bs) ↔ t.HasBlock b ∧ t.HasAll bs ∧ ∀ c ∈ bs, b.Apart c := by
  constructor
  · intro h
    obtain ⟨first, rest⟩ := List.pairwise_cons.mp h.apart
    exact ⟨h.held b (by simp), ⟨fun c hc => h.held c (by simp [hc]), rest⟩, first⟩
  · rintro ⟨hb, hbs, apart⟩
    exact ⟨by simpa using ⟨hb, hbs.held⟩, List.pairwise_cons.mpr ⟨apart, hbs.apart⟩⟩

theorem head (h : t.HasAll (b :: bs)) : t.HasBlock b := (cons_iff.1 h).1
theorem tail (h : t.HasAll (b :: bs)) : t.HasAll bs := (cons_iff.1 h).2.1

/-- Changes one block in a way that leaves every cell outside it alone. -/
theorem change (h : t.HasAll (b :: bs)) {t' : Arena} (new : t'.HasBlock b') (alike : b'.Alike b)
    (rest : ∀ c ∈ bs, t'.HasBlock c) : t'.HasAll (b' :: bs) := by
  obtain ⟨-, hbs, apart⟩ := cons_iff.1 h
  exact cons_iff.2 ⟨new, ⟨rest, hbs.apart⟩, fun c hc => (apart c hc).of_alike alike⟩

/-- Writing a cell of one block leaves the others alone. -/
theorem write (h : t.HasAll (b :: bs)) {i v : Int} (covers : b.Covers i)
    (new : (t.setFixedCell i v).HasBlock b') (alike : b'.Alike b) :
    (t.setFixedCell i v).HasAll (b' :: bs) := by
  obtain ⟨hb, hbs, apart⟩ := cons_iff.1 h
  have range := hb.covers_range covers
  exact h.change new alike fun c hc =>
    (hbs.held c hc).write_outside v range.1 range.2 ((apart c hc).not_covers covers)

theorem write_next (h : t.HasAll (b :: bs)) (v : Int) :
    (t.setFixedCell (b.index - 2) v).HasAll ({ b with next := v } :: bs) :=
  h.write (by unfold Block.Covers; omega) (h.head.write_next v) ⟨rfl, rfl⟩

theorem write_type (h : t.HasAll (b :: bs)) (v : Int) :
    (t.setFixedCell (b.index - 1) v).HasAll ({ b with type := v } :: bs) :=
  h.write (by unfold Block.Covers; omega) (h.head.write_type v) ⟨rfl, rfl⟩

theorem write_count (h : t.HasAll (b :: bs)) (v : Int) :
    (t.setFixedCell b.index v).HasAll ({ b with count := v } :: bs) :=
  h.write (by unfold Block.Covers; omega) (h.head.write_count v) ⟨rfl, rfl⟩

theorem write_first (h : t.HasAll (b :: bs)) (v : Int) :
    (t.setFixedCell (b.index + 1) v).HasAll ({ b with first := some v } :: bs) :=
  h.write (by unfold Block.Covers; omega) (h.head.write_first v) ⟨rfl, rfl⟩

theorem write_arg (h : t.HasAll (b :: bs)) {k : Nat} (inside : k < b.args.length) (v : Int) :
    (t.setFixedCell (b.index + 3 + k) v).HasAll ({ b with args := b.args.set k v } :: bs) :=
  h.write (by unfold Block.Covers; omega) (h.head.write_arg inside v) ⟨rfl, by simp⟩

theorem forget_first (h : t.HasAll (b :: bs)) : t.HasAll ({ b with first := none } :: bs) :=
  h.change h.head.forget_first ⟨rfl, rfl⟩ h.tail.held

theorem append (h : t.HasAll bs) (cells : List Int) : (t.append cells).HasAll bs :=
  ⟨fun b hb => (h.held b hb).append cells, h.apart⟩

end HasAll

/-! ## Links that may change -/

/-- A cell of some blocks holds their link, and writing it changes nothing but the link. -/
def Points (i : Int) (family : Int → List Block) : Prop :=
  ∀ (t : Arena) (rest : List Block) (x : Int), t.HasAll (family x ++ rest) →
    (0 ≤ i ∧ i < t.size) ∧ t.fixedCell i = x ∧ ∀ y, (t.setFixedCell i y).HasAll (family y ++ rest)

namespace Points

variable {i : Int} {family : Int → List Block}

theorem perm {other : Int → List Block} (h : Points i family) (p : ∀ x, (other x).Perm (family x)) :
    Points i other := by
  intro t rest x all
  obtain ⟨range, read, write⟩ := h t rest x (all.perm ((p x).append_right rest))
  exact ⟨range, read, fun y => (write y).perm ((p y).symm.append_right rest)⟩

/-- Further blocks are left alone. -/
theorem frame (h : Points i family) (more : List Block) : Points i fun x => family x ++ more := by
  intro t rest x all
  have split : ∀ y, (family y ++ more ++ rest).Perm (family y ++ (more ++ rest)) := fun y =>
    List.append_assoc .. ▸ List.Perm.refl _
  obtain ⟨range, read, write⟩ := h t (more ++ rest) x (all.perm (split x))
  exact ⟨range, read, fun y => (write y).perm (split y).symm⟩

/-- The blocks may stand between others. -/
theorem middle (h : Points i family) {t : Arena} {before after : List Block} {x : Int}
    (all : t.HasAll (before ++ (family x ++ after))) : (0 ≤ i ∧ i < t.size) ∧ t.fixedCell i = x ∧
    ∀ y, (t.setFixedCell i y).HasAll (before ++ (family y ++ after)) := by
  obtain ⟨range, read, write⟩ := h t (before ++ after) x (all.perm (List.perm_append_comm_assoc ..))
  exact ⟨range, read, fun y => (write y).perm (List.perm_append_comm_assoc ..)⟩

theorem next (b : Block) : Points (b.index - 2) fun x => [{ b with next := x }] := by
  intro t rest x all
  have here : t.HasBlock { b with next := x } := all.head
  exact ⟨here.covers_range (by unfold Block.Covers; simp only; omega), here.next,
    fun y => all.write_next y⟩

theorem first (b : Block) : Points (b.index + 1) fun x => [{ b with first := some x }] := by
  intro t rest x all
  have here : t.HasBlock { b with first := some x } := all.head
  exact ⟨here.covers_range (by unfold Block.Covers; simp only; omega), here.first x rfl,
    fun y => all.write_first y⟩

end Points

end Arena

namespace Rose

open Arena

/-- The cell that links to the child after some children of a node. -/
def slot (index : Int) (before : List Rose) : Int :=
  match before.getLast? with
  | none => index + 1
  | some last => last.index - 2

@[simp] theorem slot_nil (index : Int) : slot index [] = index + 1 := rfl

@[simp] theorem slot_concat (index : Int) (before : List Rose) (last : Rose) :
    slot index (before ++ [last]) = last.index - 2 := by
  simp [slot]

/-- A node holds the link after its subtree. -/
theorem points_blocks (r : Rose) : Points (r.index - 2) fun x => r.blocks x :=
  ((Points.next (r.block 0)).frame (blocksTo (-r.index) r.children)).perm fun x => by
    rw [blocks_eq]
    exact List.Perm.refl _

/-- The last of some siblings holds the link after them. -/
theorem points_blocksTo (before : List Rose) (last : Rose) :
    Points (last.index - 2) fun x => blocksTo x (before ++ [last]) := by
  refine (last.points_blocks.frame (blocksTo last.index before)).perm fun x => ?_
  rw [blocksTo_append, blocksTo_cons, blocksTo_nil, List.append_nil, lead_nil, lead_cons]
  exact List.perm_append_comm

/-- The link after some children of a node is held by the last of them or by the node itself. -/
theorem points_slot (b : Block) (before : List Rose) : Points (slot b.index before) fun x =>
    { b with first := some (lead x before) } :: blocksTo x before := by
  cases before using List.reverseRecOn with
  | nil => exact Points.first b
  | append_singleton before last =>
    rw [slot_concat]
    have framed := (points_blocksTo before last).frame
      [{ b with first := some (lead last.index before) }]
    refine framed.perm fun x => ?_
    rw [lead_append, lead_cons]
    exact (List.perm_append_singleton _ _).symm

end Rose

namespace Frame

open Arena

/-- The cell that links to the hole. -/
def slot (f : Frame) : Int := Rose.slot f.index f.before

theorem points (f : Frame) (next : Int) : Points f.slot (f.blocks next) :=
  (Rose.points_slot (f.block next 0) f.before).frame (Rose.blocksTo (-f.index) f.after)

end Frame

namespace Rose

open Arena

/-- The link to a place that is not the root is held by the frame of its parent. -/
theorem points_around (next : Int) (f : Frame) (fs : List Frame) :
    Points f.slot (around next (f :: fs)) := (f.points _).frame _

/-- The outermost frame holds the link after the whole tree. -/
theorem points_next (f : Frame) (fs : List Frame) (hole : Int) :
    Points (top (f :: fs) hole - 2) fun next => around next (f :: fs) hole := by
  induction fs generalizing f hole with
  | nil =>
    refine ((Points.next (f.block 0 hole)).frame
      (blocksTo hole f.before ++ blocksTo (-f.index) f.after)).perm fun x => ?_
    simp only [around, List.append_nil]
    exact List.Perm.refl _
  | cons g fs ih =>
    refine ((ih g f.index).frame (f.blocks g.link hole)).perm fun x => ?_
    rw [around]
    exact List.perm_append_comm

end Rose

end BilingualC
