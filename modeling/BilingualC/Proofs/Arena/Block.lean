import Mathlib
import BilingualC.Arena.View
import BilingualC.Node

/-!
# Blocks of an arena

The record of a node is a block of cells. `Rose.blocks` lists the blocks that a tree takes in an
arena: each block knows the link to the next sibling, so that it speaks of its own cells only, and
the blocks of a tree can be checked one by one. `Arena.Has` says that an arena holds the blocks of a
tree, and every reading operation of the arena then answers as the tree does.
-/

namespace BilingualC

/-! ## Trees -/

namespace Rose

def index : Rose → Int
  | .node i _ _ _ => i

def type : Rose → Int
  | .node _ type _ _ => type

def args : Rose → List Int
  | .node _ _ args _ => args

def children : Rose → List Rose
  | .node _ _ _ children => children

def kind (r : Rose) : Kind := .ofNumber r.type

/-- The argument with a given number; a missing argument is zero. -/
def arg (r : Rose) (k : Nat) : Int := r.args.getD k 0

@[simp] theorem index_node (i type : Int) (args : List Int) (children : List Rose) :
    (node i type args children).index = i := rfl

@[simp] theorem type_node (i type : Int) (args : List Int) (children : List Rose) :
    (node i type args children).type = type := rfl

@[simp] theorem args_node (i type : Int) (args : List Int) (children : List Rose) :
    (node i type args children).args = args := rfl

@[simp] theorem children_node (i type : Int) (args : List Int) (children : List Rose) :
    (node i type args children).children = children := rfl

theorem eta (r : Rose) : node r.index r.type r.args r.children = r := by
  cases r
  rfl

/-- Induction on trees: a property of all children passes on to the node. -/
theorem induction_on {P : Rose → Prop}
    (step : ∀ i type args children, (∀ c ∈ children, P c) → P (node i type args children)) :
    ∀ r, P r
  | .node i type args children => step i type args children fun c _ => induction_on step c

mutual

/-- The number of nodes on the longest path to a leaf. -/
def height : Rose → Nat
  | .node _ _ _ children => heights children + 1

/-- The largest height of some trees. -/
def heights : List Rose → Nat
  | [] => 0
  | c :: cs => max c.height (heights cs)

end

theorem height_le_heights {c : Rose} {cs : List Rose} (mem : c ∈ cs) : c.height ≤ heights cs := by
  induction cs with
  | nil => simp at mem
  | cons d ds ih =>
    rcases List.mem_cons.mp mem with rfl | inTail
    · exact Nat.le_max_left _ _
    · exact Nat.le_trans (ih inTail) (Nat.le_max_right _ _)

/-- A child is lower than its node. -/
theorem height_child {r c : Rose} (mem : c ∈ r.children) : c.height + 1 ≤ r.height := by
  cases r with
  | node i type args children =>
    have := height_le_heights mem
    simp only [height, children_node] at *
    omega

mutual

/-- All subtrees of a tree. -/
def nodes : Rose → List Rose
  | .node i type args children => .node i type args children :: nodesAll children

/-- All subtrees of some trees. -/
def nodesAll : List Rose → List Rose
  | [] => []
  | c :: cs => c.nodes ++ nodesAll cs

end

theorem nodesAll_eq (cs : List Rose) : nodesAll cs = cs.flatMap nodes := by
  induction cs with
  | nil => rw [nodesAll]; rfl
  | cons c cs ih => rw [nodesAll, ih, List.flatMap_cons]

theorem nodes_eq (r : Rose) : r.nodes = r :: r.children.flatMap nodes := by
  cases r
  rw [nodes, nodesAll_eq, children_node]

theorem mem_nodes_self (r : Rose) : r ∈ r.nodes := by
  rw [nodes_eq]
  exact List.mem_cons_self

theorem mem_nodes_child {r c x : Rose} (child : c ∈ r.children) (mem : x ∈ c.nodes) :
    x ∈ r.nodes := by
  rw [nodes_eq]
  exact List.mem_cons_of_mem _ (List.mem_flatMap.mpr ⟨c, child, mem⟩)

theorem mem_nodes_trans {r x y : Rose} (first : x ∈ y.nodes) (second : y ∈ r.nodes) :
    x ∈ r.nodes := by
  induction r using Rose.induction_on with
  | step i type args children ih =>
    rw [nodes_eq] at second
    rcases List.mem_cons.mp second with rfl | below
    · exact first
    · obtain ⟨c, child, inside⟩ := List.mem_flatMap.mp below
      exact mem_nodes_child child (ih c child inside)

end Rose

/-! ## Blocks -/

/-- The cells of a record. A node without children may have any first child. -/
structure Block where
  index : Int
  next : Int
  type : Int
  count : Int
  first : Option Int
  args : List Int

/-- Two blocks have no cell in common. -/
def Block.Apart (a b : Block) : Prop :=
  a.index + 5 + a.args.length ≤ b.index ∨ b.index + 5 + b.args.length ≤ a.index

/-- An arena has the cells of a block. -/
structure Arena.HasBlock (t : Arena) (b : Block) : Prop where
  low : 2 ≤ b.index
  high : b.index + 3 + b.args.length ≤ t.size
  next : t.fixedCell (b.index - 2) = b.next
  type : t.fixedCell (b.index - 1) = b.type
  count : t.fixedCell b.index = b.count
  first : ∀ c ∈ b.first, t.fixedCell (b.index + 1) = c
  argc : t.fixedCell (b.index + 2) = b.args.length
  args : ∀ k (h : k < b.args.length), t.fixedCell (b.index + 3 + k) = b.args[k]

instance (t : Arena) (b : Block) : Decidable (t.HasBlock b) :=
  decidable_of_iff (2 ≤ b.index ∧ b.index + 3 + b.args.length ≤ t.size ∧ t.fixedCell (b.index - 2) =
    b.next ∧ t.fixedCell (b.index - 1) = b.type ∧ t.fixedCell b.index = b.count ∧
    (∀ c ∈ b.first, t.fixedCell (b.index + 1) = c) ∧ t.fixedCell (b.index + 2) = b.args.length ∧
    ∀ k : Fin b.args.length, t.fixedCell (b.index + 3 + (k : Nat)) = b.args[k])
    ⟨fun ⟨low, high, next, type, count, first, argc, args⟩ =>
      ⟨low, high, next, type, count, first, argc, fun k inside => args ⟨k, inside⟩⟩,
      fun h => ⟨h.low, h.high, h.next, h.type, h.count, h.first, h.argc, fun k => h.args k k.isLt⟩⟩

namespace Rose

/-- The link that leads to the first of some siblings; there is a link after the last one too. -/
def lead (last : Int) : List Rose → Int
  | [] => last
  | c :: _ => c.index

@[simp] theorem lead_nil (last : Int) : lead last [] = last := rfl
@[simp] theorem lead_cons (last : Int) (c : Rose) (cs : List Rose) :
    lead last (c :: cs) = c.index :=
  rfl

theorem lead_append (last : Int) (cs ds : List Rose) :
    lead last (cs ++ ds) = lead (lead last ds) cs := by
  cases cs <;> rfl

/-- The block of a node whose next link is given. -/
def block (next : Int) (r : Rose) : Block :=
  ⟨r.index, next, r.type, r.children.length, r.children.head?.map index, r.args⟩

mutual

/-- The blocks of a tree whose next link is given. -/
def blocks (next : Int) : Rose → List Block
  | .node i type args children =>
    block next (.node i type args children) :: blocksTo (-i) children

/-- The blocks of siblings; the last one has the given link. -/
def blocksTo (last : Int) : List Rose → List Block
  | [] => []
  | c :: cs => c.blocks (lead last cs) ++ blocksTo last cs

end

theorem blocks_eq (next : Int) (r : Rose) :
    r.blocks next = r.block next :: blocksTo (-r.index) r.children := by
  cases r
  rw [blocks]
  rfl

theorem block_mem_blocks (next : Int) (r : Rose) : r.block next ∈ r.blocks next := by
  simp [blocks_eq]

@[simp] theorem blocksTo_nil (last : Int) : blocksTo last [] = [] := by rw [blocksTo]

@[simp] theorem blocksTo_cons (last : Int) (c : Rose) (cs : List Rose) :
    blocksTo last (c :: cs) = c.blocks (lead last cs) ++ blocksTo last cs := by rw [blocksTo]

theorem blocksTo_append (last : Int) (cs ds : List Rose) :
    blocksTo last (cs ++ ds) = blocksTo (lead last ds) cs ++ blocksTo last ds := by
  induction cs with
  | nil => simp
  | cons c cs ih => simp [ih, lead_append]

theorem blocks_sub_blocksTo (last : Int) {c : Rose} {cs : List Rose} (mem : c ∈ cs) :
    ∃ next, ∀ b ∈ c.blocks next, b ∈ blocksTo last cs := by
  obtain ⟨before, after, rfl⟩ := List.append_of_mem mem
  refine ⟨lead last after, fun b hb => ?_⟩
  simp [blocksTo_append, hb]

end Rose

namespace Arena

/-- An arena holds the blocks of a tree. -/
def Has (t : Arena) (r : Rose) : Prop := ∃ next, ∀ b ∈ r.blocks next, t.HasBlock b

theorem Has.block {t : Arena} {r : Rose} (h : t.Has r) : ∃ next, t.HasBlock (r.block next) := by
  obtain ⟨next, all⟩ := h
  exact ⟨next, all _ (by simp [Rose.blocks_eq])⟩

/-- The subtrees of a held tree are held. -/
theorem Has.child {t : Arena} {r c : Rose} (h : t.Has r) (mem : c ∈ r.children) : t.Has c := by
  obtain ⟨next, all⟩ := h
  obtain ⟨link, sub⟩ := Rose.blocks_sub_blocksTo (-r.index) mem
  refine ⟨link, fun b hb => all b ?_⟩
  rw [Rose.blocks_eq]
  exact List.mem_cons_of_mem _ (sub b hb)

/-! ## Reading -/

theorem cell_of_range {t : Arena} {i : Int} (low : 0 ≤ i) (high : i < t.size) :
    t.cell i = .ok (t.fixedCell i) := by
  have inside : i.toNat < t.items.size := by
    unfold size at high
    omega
  simp [cell, fixedCell, cellAt, Int.not_lt.mpr low, inside, pure, Except.pure]

theorem isBroken_broken (t : Arena) : t.isBroken .broken = true := by
  simp [isBroken, hasRecord, Handle.broken, rootIndex]

theorem HasBlock.hasRecord {t : Arena} {b : Block} (h : t.HasBlock b) :
    t.hasRecord b.index = true := by
  have low := h.low
  have high := h.high
  have inside : b.index + 2 < t.size := by omega
  simp [Arena.hasRecord, rootIndex, low, inside]

theorem HasBlock.isBroken {t : Arena} {b : Block} (h : t.HasBlock b) :
    t.isBroken (t.handle b.index) = false := by
  simp [Arena.isBroken, handle, h.hasRecord]

namespace Has

variable {t : Arena} {r : Rose}

theorem isBroken (h : t.Has r) : t.isBroken (t.handle r.index) = false := by
  obtain ⟨next, hb⟩ := h.block
  exact hb.isBroken

theorem typeOf (h : t.Has r) : t.typeOf (t.handle r.index) = r.type := by
  obtain ⟨next, hb⟩ := h.block
  rw [Arena.typeOf, h.isBroken]
  exact hb.type

theorem kind (h : t.Has r) : t.kind (t.handle r.index) = r.kind := by
  rw [Arena.kind, h.typeOf, Rose.kind]

theorem amount (h : t.Has r) : t.amount (t.handle r.index) = r.children.length := by
  obtain ⟨next, hb⟩ := h.block
  rw [Arena.amount, h.isBroken]
  exact hb.count

theorem argc (h : t.Has r) : t.argc (t.handle r.index) = r.args.length := by
  obtain ⟨next, hb⟩ := h.block
  rw [Arena.argc, h.isBroken]
  exact hb.argc

theorem arg (h : t.Has r) (k : Nat) : t.arg (t.handle r.index) k = .ok (r.arg k) := by
  obtain ⟨next, hb⟩ := h.block
  simp only [Arena.arg, h.argc]
  by_cases inside : k < r.args.length
  · have low := hb.low
    have high := hb.high
    have read := hb.args k inside
    simp only [Rose.block] at low high read
    have there : ¬ ((k : Int) < 0 ∨ (r.args.length : Int) ≤ k) := by omega
    simp only [Bool.or_eq_true, decide_eq_true_eq, there, if_false]
    rw [cell_of_range (by simp only [handle]; omega) (by simp only [handle]; omega)]
    simp only [handle, read, Rose.arg]
    rw [List.getD_eq_getElem _ _ inside]
  · have gone : (r.args.length : Int) ≤ k := by omega
    rw [Rose.arg, List.getD_eq_default _ _ (Nat.not_lt.mp inside)]
    simp [gone, pure, Except.pure]

/-- Following sibling links passes through the children in order. -/
theorem follow_blocksTo {t : Arena} {last : Int} {cs : List Rose}
    (all : ∀ b ∈ Rose.blocksTo last cs, t.HasBlock b) {k : Nat} (inside : k < cs.length) :
    t.follow k (Rose.lead last cs) = .ok cs[k].index := by
  induction cs generalizing k with
  | nil => simp at inside
  | cons c cs ih =>
    cases k with
    | zero => rfl
    | succ k =>
      have tail : ∀ b ∈ Rose.blocksTo last cs, t.HasBlock b := fun b hb => all b (by simp [hb])
      have here : t.HasBlock (c.block (Rose.lead last cs)) := all _ (by simp [Rose.blocks_eq])
      have low := here.low
      have high := here.high
      have next := here.next
      simp only [Rose.block] at low high next
      rw [follow, Rose.lead_cons, cell_of_range (by omega) (by omega), next]
      exact ih tail (by simpa using inside)

theorem child_at (h : t.Has r) {k : Nat} (inside : k < r.children.length) :
    t.child (t.handle r.index) k = .ok (t.handle r.children[k].index) := by
  obtain ⟨next, all⟩ := h
  have here : t.Has r := ⟨next, all⟩
  have siblings : ∀ b ∈ Rose.blocksTo (-r.index) r.children, t.HasBlock b := fun b hb =>
    all b (by simp [Rose.blocks_eq, hb])
  have first := (all _ (by simp [Rose.blocks_eq]) : t.HasBlock (r.block next)).first
  have lead : t.fixedCell (r.index + 1) = Rose.lead (-r.index) r.children := by
    cases hc : r.children with
    | nil => simp [hc] at inside
    | cons c cs => exact first _ (by simp [Rose.block, hc])
  have there : ¬ ((k : Int) < 0 ∨ (r.children.length : Int) ≤ k) := by omega
  simp only [Arena.child, here.amount, Bool.or_eq_true, decide_eq_true_eq, there, if_false]
  have followed := follow_blocksTo siblings inside
  simp only [handle, lead, Int.toNat_natCast, followed]
  rfl

end Has

end Arena

end BilingualC
