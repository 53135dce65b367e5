import PagedTree.Tree.Basic

/-! # Inserting

An entry goes into the leaf that its key is routed to. A node that becomes full gives its right
half to a fresh page, which is written before the page that will lead to it. When the root splits
its left half moves to a fresh page as well, and the root page becomes a branch over the two.
-/
namespace PagedTree.Tree

/-- A node that has given its entries from `key` on to a new one. -/
structure Split where
  key : UInt64
  left : NodeId
  right : NodeId

/-- Puts the halves of a node in its place and on the page `right`. -/
def putHalves (id : NodeId) (right : PageNo) : NodeOf Slot × UInt64 × NodeOf Slot → Call Tree Split
  | (l, key, r) => do
    put id l
    let new ← keep ⟨right, r⟩
    write new
    write id
    return ⟨key, id, new⟩

def splitLeaf (id : NodeId) : Call Tree Split := do
  let right ← onStore PageStore.allocate
  let (l, key, r) ← Call.orFault ((← heldLeaf id).split? right)
  putHalves id right (.leaf l, key, .leaf r)

def splitBranch (id : NodeId) : Call Tree Split := do
  let right ← onStore PageStore.allocate
  let (l, key, r) ← Call.orFault (← heldBranch id).split?
  putHalves id right (.branch l, key, .branch r)

def insertIntoLeaf (id : NodeId) (e : Entry) : Call Tree (Option Split) := do
  let l := (← heldLeaf id).insert e
  put id (.leaf l)
  if l.isFull then
    return some (← splitLeaf id)
  else
    write id
    return none

/-- Takes the split of the child in `slot` up into a branch. -/
def absorb (id : NodeId) (slot : Nat) (s : Split) : Call Tree (Option Split) := do
  let b ← Call.orFault ((← heldBranch id).absorb? slot (.loaded s.left) s.key (.loaded s.right))
  put id (.branch b)
  if b.isFull then
    return some (← splitBranch id)
  else
    write id
    return none

def insertBelow (e : Entry) : Nat → NodeId → Call Tree (Option Split)
  | 0, _ => throw .endless
  | limit + 1, id => do
    match (← held id).node with
    | .leaf _ => insertIntoLeaf id e
    | .branch b =>
      let slot := b.slotOf e.key
      match ← insertBelow e limit (← child id slot) with
      | some s => absorb id slot s
      | none => return none

def rebind (id : NodeId) (p : PageNo) : Call Tree Unit := do
  let t ← get
  let resident ← Call.orFault (t.resident.rebind? id p)
  set { t with resident }

/-- Moves the left half of a root off the root page and puts a branch over both halves there. -/
def raiseRoot (s : Split) : Call Tree Unit := do
  let page := (← held s.left).page
  let moved ← onStore PageStore.allocate
  writeTo s.left moved
  rebind s.left moved
  let id ← keep ⟨page, .branch ⟨[s.key], [.loaded s.left, .loaded s.right]⟩⟩
  write id
  modify fun t => { t with rootId := id }

/-- Adds an entry in front of those with its key that its leaf holds. -/
def insert (key : UInt64) (value : ByteArray) : Call Tree Unit := do
  if maxValueSize < value.size then
    Call.fail (.valueTooLarge value.size maxValueSize)
  let t ← get
  match ← insertBelow ⟨key, value⟩ t.walkLimit t.rootId with
  | some s => raiseRoot s
  | none => return

end PagedTree.Tree
