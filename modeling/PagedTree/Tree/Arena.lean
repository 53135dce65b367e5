import PagedTree.Node.Branch
import Std.Data.HashMap

/-! # Nodes in memory

An arena holds the nodes that a handle has read or built. A node keeps its number as long as the
handle lives, also when it moves to another page, and an index leads from each page to the node on
it. A branch knows a child by its page until a call goes down to it, and by its number afterwards.
-/
namespace PagedTree

abbrev NodeId := Nat

inductive Slot where
  | unloaded (p : PageNo)
  | loaded (id : NodeId)
  deriving DecidableEq

/-- A node in memory and the page that it belongs on. -/
structure Resident where
  page : PageNo
  node : NodeOf Slot

structure Arena where
  nodes : Array Resident
  byPage : Std.HashMap PageNo NodeId

namespace Arena

def empty : Arena := ⟨#[], {}⟩

def size (a : Arena) : Nat := a.nodes.size

/-- Takes in a node, whose number is the size that the arena had. -/
def add (a : Arena) (r : Resident) : Arena := ⟨a.nodes.push r, a.byPage.insert r.page a.size⟩

def pageOf? (a : Arena) (id : NodeId) : Option PageNo := a.nodes[id]?.map Resident.page

def nodeOf? (a : Arena) (id : NodeId) : Option (NodeOf Slot) := a.nodes[id]?.map Resident.node

def put (a : Arena) (id : NodeId) (n : NodeOf Slot) : Arena :=
  { a with nodes := a.nodes.modify id ({ · with node := n }) }

/-- Moves a node to another page; the old page leads nowhere then, unless to another node. -/
def rebind? (a : Arena) (id : NodeId) (p : PageNo) : Option Arena := do
  let old ← a.pageOf? id
  let byPage := if a.byPage[old]? = some id then a.byPage.erase old else a.byPage
  return ⟨a.nodes.modify id ({ · with page := p }), byPage.insert p id⟩

def slotPage? (a : Arena) : Slot → Option PageNo
  | .unloaded p => some p
  | .loaded id => a.pageOf? id

/-- The node as it is to stand on a page. -/
def onPage? (a : Arena) : NodeOf Slot → Option Node
  | .leaf l => some (.leaf l)
  | .branch b => do return .branch ⟨b.keys, ← b.children.mapM a.slotPage?⟩

end Arena

end PagedTree
