import PagedTree.Tree.Basic

/-! # Erasing

One entry is taken out of the leaf in which a lookup would find the key. A leaf that becomes empty
is dropped from its parent with one separator, unless it is the only child; the chain of leaves
still runs through it. A branch left without separators is replaced by its only child.
-/
namespace PagedTree.Tree

/-- Changes a branch; a leaf stays as it is. -/
def updateBranch (id : NodeId) (f : Branch Slot → Option (Branch Slot)) : Call Tree Unit := do
  match (← held id).node with
  | .leaf _ => return
  | .branch b => update id (.branch (← Call.orFault (f b)))

/-- Tidies up a branch after an entry was erased below its child `c` in `slot`. -/
def tidy (id : NodeId) (slot : Nat) (c : NodeId) : Call Tree Unit := do
  match (← held c).node with
  | .leaf l =>
    if l.entries.isEmpty then
      match (← held id).node with
      | .branch b => if !b.keys.isEmpty then updateBranch id (·.unlink? slot)
      | .leaf _ => return
  | .branch d =>
    if d.keys.isEmpty then
      let only ← Call.orFault d.children.head?
      updateBranch id (·.replace? slot only)

def eraseBelow (key : UInt64) : Nat → NodeId → Call Tree Bool
  | 0, _ => throw .endless
  | limit + 1, id => do
    match (← held id).node with
    | .leaf l =>
      if l.entries.any (·.key == key) then
        update id (.leaf (l.erase key))
        return true
      else
        return false
    | .branch b =>
      (b.slotsFor key).anyM fun slot => do
        let c ← child id slot
        let erased ← eraseBelow key limit c
        if erased then tidy id slot c
        return erased

/-- Takes out one entry with the key and tells whether there was one. -/
def erase (key : UInt64) : Call Tree Bool := do
  let t ← get
  eraseBelow key t.walkLimit t.rootId

end PagedTree.Tree
