import BilingualC.Arena

/-!
# The tree that an arena holds

`Arena.view` reads the nodes below the root into an ordinary tree, and `Arena.copy` appends a copy
of a subtree under another node.
-/

namespace BilingualC

/-- An ordered tree whose nodes carry their index in the arena, a type and arguments. -/
inductive Rose where
  | node (index type : Int) (args : List Int) (children : List Rose)
deriving Repr, Inhabited

namespace Arena

/-- Reads the subtree of a node, at most so many levels deep. -/
def viewAt (t : Arena) : Nat → Handle → Guarded Rose
  | 0, _ => throw .endless
  | depth + 1, n => do
    let args ← t.args n
    let children ← (List.range (t.amount n).toNat).mapM fun i => do
      t.viewAt depth (← t.child n (Int.ofNat i))
    return .node n.index (t.typeOf n) args children

/-- Reads the subtree of a node. -/
def viewOf (t : Arena) (n : Handle) : Guarded Rose := t.viewAt t.walkBound n

/-- Reads the whole tree. -/
def view (t : Arena) : Guarded Rose := t.viewOf t.root

/-- Appends a copy of a tree as the last child of a node. -/
def graft (t : Arena) (under : Handle) : Rose → Guarded (Arena × Handle)
  | .node _ type args children => do
    let (t, copy) ← t.addChild under type args
    return (← graftAll t copy children, copy)
where
  /-- Appends copies of trees as the last children of a node. -/
  graftAll (t : Arena) (under : Handle) : List Rose → Guarded Arena
    | [] => pure t
    | first :: rest => do
      let (t, _) ← t.graft under first
      graftAll t under rest

/-- Appends a copy of a subtree as the last child of a node, which has to lie outside the
subtree. -/
def copy (t : Arena) (n under : Handle) : Guarded (Arena × Handle) :=
  if t.isBroken n then pure (t, .broken)
  else do t.graft under (← t.viewOf n)

end Arena

end BilingualC
