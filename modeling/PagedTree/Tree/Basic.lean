import PagedTree.Node.Decode
import PagedTree.PageStore.Basic
import PagedTree.Tree.Arena

/-! # Trees on pages

A tree is known by its root page, which never changes. A handle on it keeps every node that it has
read or built, one for each page, so a node reached by two ways is the same node; whatever changes
a node also writes its page.
-/
namespace PagedTree

/-- A leaf and an index into its entries. -/
structure Position where
  leaf : NodeId
  index : Nat

structure Tree where
  store : PageStore
  resident : Arena
  rootId : NodeId
  cursor : Option Position

namespace Tree

variable {α : Type}

/-- The longest value of which a leaf that is not yet full holds as many as it has entries. -/
def maxValueSize : Nat :=
  (pageSize - NodeHeader.tableStart - (order - 1) * 2) / (order - 1) - 10

/-- The page of the root; a handle always holds a root. -/
def root (t : Tree) : PageNo := (t.resident.pageOf? t.rootId).getD 0

def onStore (c : Call PageStore α) : Call Tree α :=
  c.onPart Tree.store fun t s => { t with store := s }

def readNode (p : PageNo) : Call PageStore Node := do
  Call.ofExcept (Node.decode p (← PageStore.readPage p))

/-- Takes a node into memory. -/
def keep (r : Resident) : Call Tree NodeId := do
  let t ← get
  set { t with resident := t.resident.add r }
  return t.resident.size

/-- The node of page `p`, read on first use. -/
def resolve (p : PageNo) : Call Tree NodeId := do
  match (← get).resident.byPage[p]? with
  | some id => return id
  | none =>
    let n ← onStore (readNode p)
    keep ⟨p, n.map .unloaded⟩

def held (id : NodeId) : Call Tree Resident := do
  Call.orFault (← get).resident.nodes[id]?

def heldLeaf (id : NodeId) : Call Tree Leaf := do
  let r ← held id
  match r.node with
  | .leaf l => return l
  | .branch _ => Call.fail (.corruptPage r.page .noLeaf)

def heldBranch (id : NodeId) : Call Tree (Branch Slot) := do
  let r ← held id
  match r.node with
  | .branch b => return b
  | .leaf _ => Call.fail (.corruptPage r.page .noBranch)

def put (id : NodeId) (n : NodeOf Slot) : Call Tree Unit :=
  modify fun t => { t with resident := t.resident.put id n }

/-- The child in `slot` of a branch, whose slot leads to it directly from then on. -/
def child (id : NodeId) (slot : Nat) : Call Tree NodeId := do
  let r ← held id
  match r.node with
  | .leaf _ => Call.fail (.corruptPage r.page (.noChild slot))
  | .branch b =>
    match b.children[slot]? with
    | some (.loaded c) => return c
    | some (.unloaded p) =>
      let c ← resolve p
      put id ((← held id).node.setChild slot (.loaded c))
      return c
    | none => Call.fail (.corruptPage r.page (.noChild slot))

/-- Writes a node onto page `p`, whether or not it belongs there. -/
def writeTo (id : NodeId) (p : PageNo) : Call Tree Unit := do
  let r ← held id
  let n ← Call.orFault ((← get).resident.onPage? r.node)
  let b ← Node.encode p n
  onStore (PageStore.writePage p b)

def write (id : NodeId) : Call Tree Unit := do
  writeTo id (← held id).page

/-- Changes a node in memory and on file. -/
def update (id : NodeId) (n : NodeOf Slot) : Call Tree Unit := do
  put id n
  write id

/-- A walk that visits more pages than there are comes back to one and never ends. -/
def walkLimit (t : Tree) : Nat := t.store.pageCount + 2

/-- Allocates the root page of a new tree, an empty leaf. -/
def create : Call PageStore PageNo := do
  let p ← PageStore.allocate
  let b ← Node.encode p (.leaf .empty)
  PageStore.writePage p b
  return p

/-- A handle on the tree at `root`, of which only the root is read. -/
def load (root : PageNo) : Call PageStore Tree := do
  let n ← readNode root
  return ⟨← get, Arena.empty.add ⟨root, n.map .unloaded⟩, 0, none⟩

/-- Runs a call on a handle of its own, which is then given up. -/
def on (root : PageNo) (c : Call Tree α) : Call PageStore α := do
  let t ← load root
  let (r, t) := c.result t
  set t.store
  Call.resume r

end Tree

end PagedTree
