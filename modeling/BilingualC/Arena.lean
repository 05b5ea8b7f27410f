import BilingualC.Fault
import Std.Data.TreeMap

/-!
# The node arena

An ordered tree is kept as linked records in one growing table of words. A record that starts at
index `i` has these cells:

* `i - 2`: the index of the next sibling, or minus the index of the parent for the last child;
* `i - 1`: the type of the node;
* `i`: the number of children;
* `i + 1`: the index of the first child;
* `i + 2`: the number of arguments;
* from `i + 3` on: the arguments.

A node is named by a handle: the index of its record and the generation of that index. Removing a
node starts a new generation of its index, so a handle to a removed node is broken for good, even
when the index is used again.
-/

namespace BilingualC

/-- The table of records and the generations of the indices whose node was removed. -/
structure Arena where
  items : Array Int
  generations : Std.TreeMap Int UInt32
deriving Inhabited

/-- Names a node of an arena. -/
structure Handle where
  index : Int
  generation : UInt32
deriving DecidableEq, Repr, Inhabited

/-- The handle that names no node of any arena. -/
def Handle.broken : Handle := ⟨0, 0⟩

/-- Why an operation on nodes is refused. -/
inductive Refusal where
  | brokenNode
  | noArgument (argument index : Int)
  | closedRecord (index : Int)
  | differentTrees
  | nestedNodes (first second : Int)
  | rootRemoval
deriving DecidableEq, Repr

def Refusal.message : Refusal → String
  | .brokenNode => "tree: broken node"
  | .noArgument argument index => s!"tree: argument {argument} out of range for node {index}"
  | .closedRecord index => s!"tree: node {index} is closed for new arguments"
  | .differentTrees => "tree: cannot swap nodes of different trees"
  | .nestedNodes first second => s!"tree: cannot swap nested nodes {first} and {second}"
  | .rootRemoval => "tree: cannot remove the root"

/-- The answer of an operation that may be refused. -/
abbrev Answer (α : Type) := Except Refusal α

namespace Arena

/-- The index of the root. -/
def rootIndex : Int := 2

/-- An arena with a root of the given type and nothing else. -/
def new (rootType : Int) : Arena := ⟨#[0, rootType, 0, 0, 0], ∅⟩

/-- The number of cells in use. -/
def size (t : Arena) : Nat := t.items.size

/-- The current generation of an index. -/
def generation (t : Arena) (index : Int) : UInt32 := t.generations.getD index 0

/-- The current handle of an index. -/
def handle (t : Arena) (index : Int) : Handle := ⟨index, t.generation index⟩

def root (t : Arena) : Handle := t.handle rootIndex

/-- Says whether a record can start at an index: its fixed cells lie in the table. -/
def hasRecord (t : Arena) (index : Int) : Bool := rootIndex ≤ index && index + 2 < t.size

/-- Says whether a handle names no node. -/
def isBroken (t : Arena) (n : Handle) : Bool :=
  !t.hasRecord n.index || t.generation n.index != n.generation

/-- The handle of a saved index. -/
def load (t : Arena) (index : Int) : Handle := if t.hasRecord index then t.handle index else .broken

/-- The index under which a node can be loaded again. -/
def save (t : Arena) (n : Handle) : Int := if t.isBroken n then 0 else n.index

/-! ## Cells -/

/-- Reads a cell that a record is known to have. -/
def fixedCell (t : Arena) (i : Int) : Int := t.items.getD i.toNat 0

/-- Reads a cell that a link leads to. -/
def cell (t : Arena) (i : Int) : Guarded Int := cellAt t.items i

/-- Writes a cell. -/
def setCell (t : Arena) (i value : Int) : Guarded Arena := do
  return { t with items := ← setCellAt t.items i value }

/-- Writes a cell that a record is known to have. -/
def setFixedCell (t : Arena) (i value : Int) : Arena :=
  { t with items := t.items.setIfInBounds i.toNat value }

/-- Appends cells. -/
def append (t : Arena) (cells : List Int) : Arena := { t with items := t.items ++ cells }

/-! ## Reading a node -/

def typeOf (t : Arena) (n : Handle) : Int := if t.isBroken n then 0 else t.fixedCell (n.index - 1)
def amount (t : Arena) (n : Handle) : Int := if t.isBroken n then 0 else t.fixedCell n.index
def argc (t : Arena) (n : Handle) : Int := if t.isBroken n then 0 else t.fixedCell (n.index + 2)

/-- The argument with a given number; a missing argument is zero. -/
def arg (t : Arena) (n : Handle) (i : Int) : Guarded Int :=
  if i < 0 || t.argc n ≤ i then pure 0 else t.cell (n.index + 3 + i)

/-- Follows sibling links. -/
def follow (t : Arena) : Nat → Int → Guarded Int
  | 0, index => pure index
  | steps + 1, index => do t.follow steps (← t.cell (index - 2))

/-- The child with a given number. -/
def child (t : Arena) (n : Handle) (i : Int) : Guarded Handle :=
  if i < 0 || t.amount n ≤ i then pure .broken
  else do return t.handle (← t.follow i.toNat (t.fixedCell (n.index + 1)))

/-- The number of links after which a walk through the arena repeats itself. -/
def walkBound (t : Arena) : Nat := t.size + 1

/-- The node above a record: sibling links lead to the last child, which links back to it. -/
def climb (t : Arena) : Nat → Int → Guarded Handle
  | 0, _ => throw .endless
  | steps + 1, index => do
    let next ← t.cell (index - 2)
    if next < 0 then return t.handle (-next)
    else if next == 0 then return .broken
    else t.climb steps next

/-- The node that a node is a child of. -/
def parent (t : Arena) (n : Handle) : Guarded Handle :=
  if t.isBroken n || n.index == rootIndex then pure .broken else t.climb t.walkBound n.index

/-- The node after a subtree in pre-order. -/
def following (t : Arena) : Nat → Int → Guarded Handle
  | 0, _ => throw .endless
  | steps + 1, index => do
    let next ← t.cell (index - 2)
    if 0 < next then return t.handle next
    else if next == 0 then return .broken
    else t.following steps (-next)

/-- The next node in pre-order. -/
def next (t : Arena) (n : Handle) : Guarded Handle :=
  if t.isBroken n then pure .broken
  else if 0 < t.amount n then t.child n 0
  else t.following t.walkBound n.index

/-! ## Changing a node -/

def setType (t : Arena) (n : Handle) (type : Int) : Answer Arena :=
  if t.isBroken n then .error .brokenNode else .ok (t.setFixedCell (n.index - 1) type)

def setArg (t : Arena) (n : Handle) (i value : Int) : Guarded (Answer Arena) :=
  if t.isBroken n then pure (.error .brokenNode)
  else if i < 0 || t.argc n ≤ i then pure (.error (.noArgument i n.index))
  else do return .ok (← t.setCell (n.index + 3 + i) value)

/-- Appends an argument. Only the last record of the arena can grow, and only while it has no
children. -/
def addArg (t : Arena) (n : Handle) (value : Int) : Answer Arena :=
  if t.isBroken n then .error .brokenNode
  else if t.amount n != 0 || n.index + 3 + t.argc n != t.size then .error (.closedRecord n.index)
  else .ok ((t.append [value]).setFixedCell (n.index + 2) (t.argc n + 1))

/-- The index that the next record gets. -/
def freshIndex (t : Arena) : Int := t.size + 2

/-- Appends a new last child. Under a broken node nothing is added. -/
def addChild (t : Arena) (n : Handle) (type : Int) (args : List Int) : Guarded (Arena × Handle) :=
  if t.isBroken n then pure (t, .broken)
  else do
    let last ← t.child n (t.amount n - 1)
    let index := t.freshIndex
    let grown := t.append ([-n.index, type, 0, 0, args.length] ++ args)
    let linked := if grown.isBroken last then grown.setFixedCell (n.index + 1) index
      else grown.setFixedCell (last.index - 2) index
    let counted := linked.setFixedCell n.index (linked.fixedCell n.index + 1)
    return (counted, counted.handle index)

/-- The cell that links to an index, looked for from a given cell on. -/
def linkFrom (t : Arena) (index : Int) : Nat → Int → Guarded Int
  | 0, _ => throw .endless
  | steps + 1, slot => do
    let target ← t.cell slot
    if target == index then return slot else t.linkFrom index steps (target - 2)

/-- The cell that links to a node: the first-child cell of its parent or the sibling cell of the
node before it. -/
def link (t : Arena) (n : Handle) : Guarded Int := do
  t.linkFrom n.index t.walkBound ((← t.parent n).index + 1)

/-- Puts a new node with zero arguments in the place of a node, which becomes its only child. -/
def insert (t : Arena) (n : Handle) (type argc : Int) : Guarded (Arena × Handle) :=
  if t.isBroken n || n.index == rootIndex then pure (t, .broken)
  else do
    let slot ← t.link n
    if argc < 0 || largestBlock < argc then throw .badLength
    let index := t.freshIndex
    let grown :=
      t.append ([t.fixedCell (n.index - 2), type, 1, n.index, argc] ++ List.replicate argc.toNat 0)
    let linked ← grown.setCell slot index
    let wrapped := linked.setFixedCell (n.index - 2) (-index)
    return (wrapped, wrapped.handle index)

/-- Says whether the nodes above a node include a given index. -/
def isBelow (t : Arena) (index : Int) : Nat → Handle → Guarded Bool
  | 0, _ => throw .endless
  | steps + 1, n => do
    let above ← t.parent n
    if t.isBroken above then return false
    else if above.index == index then return true
    else t.isBelow index steps above

/-- Says whether one node lies above another. -/
def isAncestor (t : Arena) (above below : Handle) : Guarded Bool :=
  t.isBelow above.index t.walkBound below

/-- Says whether two nodes cannot change places: one of them is the root or lies above the other. -/
def isNested (t : Arena) (a b : Handle) : Guarded Bool := do
  if a.index == rootIndex || b.index == rootIndex then return true
  if ← t.isAncestor a b then return true
  t.isAncestor b a

/-- Why two nodes cannot change places, if they cannot. -/
def swapRefusal? (t : Arena) (a b : Handle) : Guarded (Option Refusal) := do
  if t.isBroken a || t.isBroken b then return some .brokenNode
  else if a.index == b.index then return none
  else if ← t.isNested a b then return some (.nestedNodes a.index b.index)
  else return none

/-- Exchanges the links to two nodes and the links from them to their siblings. -/
def exchange (t : Arena) (a b : Handle) : Guarded Arena :=
  if a.index == b.index then pure t
  else do
    let slotA ← t.link a
    let slotB ← t.link b
    let atA ← t.cell slotA
    let atB ← t.cell slotB
    let t ← t.setCell slotA atB
    let t ← t.setCell slotB atA
    let nextA := t.fixedCell (a.index - 2)
    let nextB := t.fixedCell (b.index - 2)
    return (t.setFixedCell (a.index - 2) nextB).setFixedCell (b.index - 2) nextA

/-- Exchanges the places of two nodes together with their subtrees. -/
def swap (t : Arena) (a b : Handle) : Guarded (Answer Arena) := do
  match ← t.swapRefusal? a b with
  | some refusal => return .error refusal
  | none => return .ok (← t.exchange a b)

/-- Gives the cells of a removed record back if it was the last one and had no children. -/
def reclaim (t : Arena) (n : Handle) : Arena :=
  if t.fixedCell n.index == 0 && n.index + 3 + t.fixedCell (n.index + 2) == t.size then
    { t with items := t.items.shrink (n.index - 2).toNat }
  else t

/-- Why a node cannot be removed, if it cannot. -/
def removalRefusal? (t : Arena) (n : Handle) : Option Refusal :=
  if t.isBroken n then some .brokenNode
  else if n.index == rootIndex then some .rootRemoval
  else none

/-- Takes the record of a node out of the links and raises the generation of its index. -/
def detach (t : Arena) (n : Handle) : Guarded Arena := do
  let above ← t.parent n
  let slot ← t.link n
  let t ← t.setCell slot (t.fixedCell (n.index - 2))
  let t ← t.setCell above.index ((← t.cell above.index) - 1)
  let t := t.reclaim n
  return { t with generations := t.generations.insert n.index (t.generation n.index + 1) }

/-- Takes a node with its subtree out of the tree and breaks every handle to it. -/
def remove (t : Arena) (n : Handle) : Guarded (Answer Arena) :=
  match t.removalRefusal? n with
  | some refusal => pure (.error refusal)
  | none => do return .ok (← t.detach n)

/-- Moves a node with its subtree to the end of the children of another node. The node changes
places with a new child, which is then removed; when the move is refused the new child is removed
again. -/
def adopt (t : Arena) (above below : Handle) : Guarded (Arena × Option Refusal) := do
  let (t, placeholder) ← t.addChild above 0 []
  if t.isBroken placeholder then return (t, some .brokenNode)
  let refusal ← t.swapRefusal? placeholder below
  let t ← if refusal.isNone then t.exchange placeholder below else pure t
  match t.removalRefusal? placeholder with
  | some other => return (t, refusal <|> some other)
  | none => return (← t.detach placeholder, refusal)

/-- The arguments of a node. -/
def args (t : Arena) (n : Handle) : Guarded (List Int) :=
  let count := t.argc n
  if count < 0 || largestBlock < count then throw .badLength
  else (List.range count.toNat).mapM fun i => t.arg n (Int.ofNat i)

/-! ## The whole tree -/

/-- Checks the records below an index: every link stays inside the table and the children of every
node end with a link back to it. -/
def isCorrectAt (t : Arena) : Nat → Int → Guarded Bool
  | 0, _ => throw .endless
  | depth + 1, index =>
    if !t.hasRecord index then pure false
    else
      let amount := t.fixedCell index
      if amount == 0 then pure true
      else chain depth index amount.toNat (t.fixedCell (index + 1))
where
  /-- Checks the last so many children of a node, the first of which is given. -/
  chain (depth : Nat) (index : Int) : Nat → Int → Guarded Bool
    | 0, _ => pure true
    | left + 1, child => do
      if !(← t.isCorrectAt depth child) then return false
      let next := t.fixedCell (child - 2)
      if left == 0 then return next == -index else chain depth index left next

/-- Checks the links of the whole tree. -/
def isCorrect (t : Arena) : Guarded Bool := t.isCorrectAt t.walkBound rootIndex

/-- The nodes from a node on in pre-order. -/
def orderFrom (t : Arena) : Nat → Handle → Guarded (List Int)
  | 0, _ => throw .endless
  | steps + 1, n => do
    if t.isBroken n then return []
    return n.index :: (← t.orderFrom steps (← t.next n))

/-- The indices of all nodes in pre-order. -/
def order (t : Arena) : Guarded (List Int) := t.orderFrom t.walkBound t.root

end Arena

end BilingualC
