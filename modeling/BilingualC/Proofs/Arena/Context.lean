import Mathlib
import BilingualC.Proofs.Arena.Block

/-!
# Contexts

A node of a tree is named by the tree around it: a list of frames, from the parent of the node
outwards. `fill` puts a subtree back into its place. `blocks_fill` splits the blocks of a tree into
those around a place and those of the subtree in it; only the frame of the parent knows which index
stands in the place. `fill_eq_fill` compares two places of one tree: either one lies inside the
other or they part at a node with two holes.
-/

namespace BilingualC

/-- A node with a hole in the place of one of its children. -/
structure Frame where
  index : Int
  type : Int
  args : List Int
  before : List Rose
  after : List Rose

namespace Frame

/-- Puts a child into the hole. -/
def plug (f : Frame) (s : Rose) : Rose := .node f.index f.type f.args (f.before ++ s :: f.after)

/-- The link after the hole. -/
def link (f : Frame) : Int := Rose.lead (-f.index) f.after

/-- The block of the node itself, with the link after it and the index in the hole. -/
def block (f : Frame) (next hole : Int) : Block :=
  ⟨f.index, next, f.type, f.before.length + 1 + f.after.length,
    some (Rose.lead hole f.before), f.args⟩

/-- The blocks around the hole, with the link after the node and the index in the hole. -/
def blocks (f : Frame) (next hole : Int) : List Block :=
  f.block next hole :: (Rose.blocksTo hole f.before ++ Rose.blocksTo (-f.index) f.after)

/-- The nodes around the hole other than the node itself. -/
def siblings (f : Frame) : List Rose := (f.before ++ f.after).flatMap Rose.nodes

@[simp] theorem plug_index (f : Frame) (s : Rose) : (f.plug s).index = f.index := rfl
@[simp] theorem plug_children (f : Frame) (s : Rose) :
    (f.plug s).children = f.before ++ s :: f.after :=
  rfl

theorem block_plug (f : Frame) (next : Int) (s : Rose) :
    (f.plug s).block next = f.block next s.index := by
  have first :
    (f.before ++ s :: f.after).head?.map Rose.index = some (Rose.lead s.index f.before) := by
    cases f.before <;> rfl
  simp only [Rose.block, block, plug, Rose.index_node, Rose.type_node, Rose.args_node,
    Rose.children_node, first, List.length_append, List.length_cons]
  congr 1
  omega

theorem blocks_plug (f : Frame) (next : Int) (s : Rose) :
    ((f.plug s).blocks next).Perm (f.blocks next s.index ++ s.blocks f.link) := by
  rw [Rose.blocks_eq, block_plug, plug_children, Rose.blocksTo_append, Rose.blocksTo_cons, blocks,
    List.cons_append, List.append_assoc]
  exact ((List.perm_append_comm.append_left _).cons _)

theorem nodes_plug (f : Frame) (s : Rose) :
    ((f.plug s).nodes).Perm (f.plug s :: (f.siblings ++ s.nodes)) := by
  rw [Rose.nodes_eq, plug_children, siblings]
  simp only [List.flatMap_append, List.flatMap_cons, List.append_assoc]
  exact (List.perm_append_comm.append_left _).cons _

end Frame

namespace Rose

/-- Puts a subtree into its place. -/
def fill : List Frame → Rose → Rose
  | [], s => s
  | f :: fs, s => fill fs (f.plug s)

/-- The link after the subtree in a place; the link after the whole tree is given. -/
def linkAfter (next : Int) : List Frame → Int
  | [] => next
  | f :: _ => f.link

/-- The blocks around a place that holds a given index. -/
def around (next : Int) : List Frame → Int → List Block
  | [], _ => []
  | f :: fs, hole => f.blocks (linkAfter next fs) hole ++ around next fs f.index

/-- The index of a tree whose place holds a given index. -/
def top : List Frame → Int → Int
  | [], hole => hole
  | f :: fs, _ => top fs f.index

@[simp] theorem fill_nil (s : Rose) : fill [] s = s := rfl
@[simp] theorem fill_cons (f : Frame) (fs : List Frame) (s : Rose) :
    fill (f :: fs) s = fill fs (f.plug s) :=
  rfl

theorem fill_append (fs gs : List Frame) (s : Rose) : fill (fs ++ gs) s = fill gs (fill fs s) := by
  induction fs generalizing s with
  | nil => rfl
  | cons f fs ih => exact ih _

theorem index_fill (fs : List Frame) (s : Rose) : (fill fs s).index = top fs s.index := by
  induction fs generalizing s with
  | nil => rfl
  | cons f fs ih => exact ih _

theorem blocks_fill (next : Int) (fs : List Frame) (s : Rose) :
    ((fill fs s).blocks next).Perm (around next fs s.index ++ s.blocks (linkAfter next fs)) := by
  induction fs generalizing s with
  | nil => exact List.Perm.refl _
  | cons f fs ih =>
    refine (ih (f.plug s)).trans ?_
    have inner := (f.blocks_plug (linkAfter next fs) s).append_left (around next fs f.index)
    refine inner.trans ?_
    rw [around, ← List.append_assoc]
    exact List.perm_append_comm.append_right _

/-- The nodes of a subtree are nodes of the whole tree. -/
theorem mem_nodes_fill (fs : List Frame) {s x : Rose} (mem : x ∈ s.nodes) :
    x ∈ (fill fs s).nodes := by
  induction fs generalizing s with
  | nil => exact mem
  | cons f fs ih => exact ih (mem_nodes_child (r := f.plug s) (c := s) (by simp) mem)

/-- Every node of a tree has a place. -/
theorem exists_fill {r s : Rose} (mem : s ∈ r.nodes) : ∃ fs, r = fill fs s := by
  induction r using Rose.induction_on with
  | step i type args children ih =>
    rw [nodes_eq, children_node] at mem
    rcases List.mem_cons.mp mem with rfl | below
    · exact ⟨[], rfl⟩
    · obtain ⟨c, hc, inside⟩ := List.mem_flatMap.mp below
      obtain ⟨fs, hfs⟩ := ih c hc inside
      obtain ⟨before, after, split⟩ := List.append_of_mem hc
      refine ⟨fs ++ [⟨i, type, args, before, after⟩], ?_⟩
      rw [fill_append, ← hfs, split]
      rfl

end Rose

/-! ## Two places -/

/-- A node with holes in the places of two of its children. -/
structure Fork where
  index : Int
  type : Int
  args : List Int
  before : List Rose
  between : List Rose
  after : List Rose

namespace Fork

/-- The frame of the first hole. -/
def left (f : Fork) (b : Rose) : Frame :=
  ⟨f.index, f.type, f.args, f.before, f.between ++ b :: f.after⟩

/-- The frame of the second hole. -/
def right (f : Fork) (a : Rose) : Frame :=
  ⟨f.index, f.type, f.args, f.before ++ a :: f.between, f.after⟩

/-- Fills both holes. -/
def plug (f : Fork) (a b : Rose) : Rose := (f.left b).plug a

theorem plug_right (f : Fork) (a b : Rose) : (f.right a).plug b = f.plug a b := by
  simp [plug, left, right, Frame.plug]

end Fork

namespace Rose

/-- One place lies before another: they part at a node with two holes. -/
def Parts (fs gs : List Frame) (a b : Rose) : Prop :=
  ∃ (f : Fork) (inner other outer : List Frame),
    fs = inner ++ f.left (fill other b) :: outer ∧ gs = other ++ f.right (fill inner a) :: outer

theorem Parts.outside {fs gs : List Frame} {a b : Rose} (parts : Parts fs gs a b) (f : Frame) :
    Parts (fs ++ [f]) (gs ++ [f]) a b := by
  obtain ⟨fork, inner, other, outer, rfl, rfl⟩ := parts
  exact ⟨fork, inner, other, outer ++ [f], by simp, by simp⟩

/-- Two elements of one list are the same or one of them comes first. -/
theorem split_eq_split {l l' r r' : List Rose} {x y : Rose} (same : l ++ x :: r = l' ++ y :: r') :
    (l = l' ∧ x = y ∧ r = r') ∨ (∃ m, l' = l ++ x :: m ∧ r = m ++ y :: r') ∨
      ∃ m, l = l' ++ y :: m ∧ r' = m ++ x :: r := by
  rcases List.append_eq_append_iff.mp same with ⟨m, hl, hr⟩ | ⟨m, hl, hr⟩ <;> cases m <;> simp_all

/-- Two places in one tree lie one inside the other or part. -/
theorem fill_eq_fill {fs gs : List Frame} {a b : Rose} (same : fill fs a = fill gs b) :
    (∃ inner, gs = inner ++ fs ∧ a = fill inner b) ∨
    (∃ inner, fs = inner ++ gs ∧ b = fill inner a) ∨ Parts fs gs a b ∨ Parts gs fs b a := by
  -- The frames are compared from the root on, which is the last one of each list.
  induction fs using List.reverseRecOn generalizing gs with
  | nil => exact .inl ⟨gs, by simp, same⟩
  | append_singleton fs f ih =>
    cases gs using List.reverseRecOn with
    | nil => exact .inr (.inl ⟨fs ++ [f], by simp, same.symm⟩)
    | append_singleton gs g =>
      rw [fill_append, fill_append] at same
      obtain ⟨fi, ft, fa, fb, fr⟩ := f
      obtain ⟨gi, gt, ga, gb, gr⟩ := g
      simp only [fill_cons, fill_nil, Frame.plug, Rose.node.injEq] at same
      obtain ⟨rfl, rfl, rfl, lists⟩ := same
      rcases split_eq_split lists with ⟨rfl, child, rfl⟩ | ⟨m, rfl, rfl⟩ | ⟨m, rfl, rfl⟩
      · rcases ih child with ⟨inner, rfl, h⟩ | ⟨inner, rfl, h⟩ | parts | parts
        · exact .inl ⟨inner, by simp, h⟩
        · exact .inr (.inl ⟨inner, by simp, h⟩)
        · exact .inr (.inr (.inl (parts.outside _)))
        · exact .inr (.inr (.inr (parts.outside _)))
      · exact .inr (.inr (.inl ⟨⟨fi, ft, fa, fb, m, gr⟩, fs, gs, [], rfl, rfl⟩))
      · exact .inr (.inr (.inr ⟨⟨fi, ft, fa, gb, m, fr⟩, gs, fs, [], rfl, rfl⟩))

end Rose

end BilingualC
