import BilingualC.Arena.View

/-!
# Several arenas

A forest holds several arenas. Its nodes know their arena, so that an operation on two nodes can
tell whether they belong together: nodes of different arenas cannot change places, but a subtree can
be copied from one arena to another.
-/

namespace BilingualC

/-- Several arenas, numbered from zero. -/
structure Forest where
  arenas : Array Arena

/-- A node of one of several arenas; the node of no arena is broken. -/
structure ForestNode where
  arena : Option Nat
  handle : Handle
deriving DecidableEq, Repr, Inhabited

namespace ForestNode

def broken : ForestNode := ⟨none, .broken⟩

end ForestNode

namespace Forest

/-- Adds an arena and gives its number. -/
def plant (f : Forest) (t : Arena) : Forest × Nat := (⟨f.arenas.push t⟩, f.arenas.size)

def arena? (f : Forest) (n : ForestNode) : Option Arena := n.arena.bind (f.arenas[·]?)

def isBroken (f : Forest) (n : ForestNode) : Bool :=
  match f.arena? n with
  | some t => t.isBroken n.handle
  | none => true

/-- Reads something from the arena of a node; the node of no arena answers as given. -/
def read (f : Forest) (n : ForestNode) (default : α) (query : Arena → Handle → α) : α :=
  match f.arena? n with
  | some t => query t n.handle
  | none => default

/-- Replaces the arena of a node. -/
def replace (f : Forest) (n : ForestNode) (t : Arena) : Forest :=
  match n.arena with
  | some i => ⟨f.arenas.setIfInBounds i t⟩
  | none => f

/-- A node reached from a node of the same arena. -/
def walk (f : Forest) (n : ForestNode) (query : Arena → Handle → Guarded Handle) :
    Guarded ForestNode :=
  match f.arena? n with
  | some t => do return ⟨n.arena, ← query t n.handle⟩
  | none => pure .broken

/-- Adds a node to the arena of a node. -/
def grow (f : Forest) (n : ForestNode) (add : Arena → Handle → Guarded (Arena × Handle)) :
    Guarded (Forest × ForestNode) :=
  match f.arena? n with
  | some t => do
    let (t, added) ← add t n.handle
    return (f.replace n t, ⟨n.arena, added⟩)
  | none => pure (f, .broken)

/-- Changes the arena of a node unless the change is refused. -/
def change (f : Forest) (n : ForestNode) (act : Arena → Handle → Guarded (Answer Arena)) :
    Guarded (Forest × Option Refusal) :=
  match f.arena? n with
  | some t => do
    match ← act t n.handle with
    | .ok t => return (f.replace n t, none)
    | .error refusal => return (f, some refusal)
  | none => pure (f, some .brokenNode)

/-- Exchanges the places of two nodes together with their subtrees. -/
def swap (f : Forest) (a b : ForestNode) : Guarded (Forest × Option Refusal) :=
  if f.isBroken a || f.isBroken b then pure (f, some .brokenNode)
  else if a.arena != b.arena then pure (f, some .differentTrees)
  else f.change a fun t n => t.swap n b.handle

/-- Moves a node with its subtree to the end of the children of another node of the same arena. -/
def adopt (f : Forest) (above below : ForestNode) : Guarded (Forest × Option Refusal) :=
  match f.arena? above with
  | none => pure (f, some .brokenNode)
  | some t => do
    let moved := if above.arena == below.arena then below.handle else .broken
    let (t, refusal) ← t.adopt above.handle moved
    let refusal := if refusal == some .brokenNode && above.arena != below.arena
        && !f.isBroken below && !f.isBroken above then some .differentTrees else refusal
    return (f.replace above t, refusal)

/-- Appends a copy of a subtree as the last child of a node of any arena. -/
def copy (f : Forest) (n under : ForestNode) : Guarded (Forest × ForestNode) :=
  match f.arena? n with
  | none => pure (f, .broken)
  | some t =>
    if t.isBroken n.handle then pure (f, .broken)
    else do
      let rose ← t.viewOf n.handle
      f.grow under fun t n => t.graft n rose

end Forest

end BilingualC
