import PagedTree.Tree.Basic

/-! # Looking up

A lookup follows the candidate children of each branch from right to left and stops at the first
leaf that holds the key, so it reads a second path only past a separator equal to the key. The
leftmost and rightmost paths lead to the ends of the tree.
-/
namespace PagedTree.Tree

def lookupBelow (key : UInt64) : Nat → NodeId → Call Tree (Option ByteArray)
  | 0, _ => throw .endless
  | limit + 1, id => do
    match (← held id).node with
    | .leaf l => return l.get? key
    | .branch b =>
      (b.slotsFor key).findSomeM? fun slot => do
        lookupBelow key limit (← child id slot)

/-- One of the values stored under the key. -/
def get? (key : UInt64) : Call Tree (Option ByteArray) := do
  let t ← get
  lookupBelow key t.walkLimit t.rootId

/-- The leaf that is reached by taking the child that `slot?` picks at every branch. -/
def leafBelow (slot? : Branch Slot → Option Nat) : Nat → NodeId → Call Tree (NodeId × Leaf)
  | 0, _ => throw .endless
  | limit + 1, id => do
    match (← held id).node with
    | .leaf l => return (id, l)
    | .branch b => leafBelow slot? limit (← child id (← Call.orFault (slot? b)))

def firstLeaf : Call Tree (NodeId × Leaf) := do
  let t ← get
  leafBelow (fun _ => some 0) t.walkLimit t.rootId

def lastSlot? (b : Branch Slot) : Option Nat :=
  match b.children.length with
  | 0 => none
  | n + 1 => some n

def lastLeaf : Call Tree (NodeId × Leaf) := do
  let t ← get
  leafBelow lastSlot? t.walkLimit t.rootId

/-- The number of entries in the rightmost leaf. -/
def lastLeafSize : Call Tree Nat :=
  return (← lastLeaf).2.entries.length

end PagedTree.Tree
