import PagedTree.Node.Encode

/-! # Nodes from pages

Reads a page of any content: every count, address and offset is taken from the page and checked
before use. A page that has never been written is an empty leaf.
-/
namespace PagedTree.Node

/-- Where cell `i` starts, by the table at `table`. -/
def cellStart (b : ByteArray) (table i : Nat) : Except PageFault Nat :=
  field 16 b (table + 2 * i)

def pageAt (offset : Nat) : Except PageFault PageNo :=
  match PageNo.ofOffset? offset with
  | some p => .ok p
  | none => .error (.noPageAt offset)

def childAt (b : ByteArray) (pos : Nat) : Except PageFault PageNo := do
  pageAt (← field 64 b pos)

def readLeafCell (b : ByteArray) (table i : Nat) : Except PageFault Entry := do
  let start ← cellStart b table i
  let key ← field 64 b start
  let size ← field 16 b (start + 8)
  if start + 10 + size ≤ b.size then
    return ⟨.ofNat key, b.extract (start + 10) (start + 10 + size)⟩
  else throw (.cellPastEnd i)

def readBranchCell (b : ByteArray) (table i : Nat) : Except PageFault (UInt64 × PageNo) := do
  let start ← cellStart b table i
  let key ← field 64 b start
  return (.ofNat key, ← childAt b (start + 8))

/-- The child behind the last of `cells` separators; a branch without separators has its only
child where its first cell would be. -/
def readLastChild (b : ByteArray) (table : Nat) : Nat → Except PageFault PageNo
  | 0 => do childAt b (← cellStart b table 0)
  | last + 1 => do
    let start ← cellStart b table last
    if start < 8 then throw .trailingChild
    childAt b (start - 8)

def readLeaf (b : ByteArray) (h : NodeHeader) : Except PageFault Leaf := do
  let entries ← (List.range h.cells.toNat).mapM (readLeafCell b h.table.toNat)
  if h.link = 0 then
    return ⟨entries, none⟩
  else
    return ⟨entries, some (← pageAt h.link.toNat)⟩

def readBranch (b : ByteArray) (h : NodeHeader) : Except PageFault (Branch PageNo) := do
  let cells ← (List.range h.cells.toNat).mapM (readBranchCell b h.table.toNat)
  let last ← readLastChild b h.table.toNat h.cells.toNat
  return ⟨cells.map Prod.fst, cells.map Prod.snd ++ [last]⟩

def read (b : ByteArray) : Except PageFault Node := do
  match ← NodeHeader.decode b with
  | none => return .leaf .empty
  | some h =>
    match h.kind with
    | .leaf => return .leaf (← readLeaf b h)
    | .branch => return .branch (← readBranch b h)

def decode (p : PageNo) (b : ByteArray) : Except StoreError Node := do
  checkBuffer p b
  match read b with
  | .ok n => return n
  | .error fault => throw (.corruptPage p fault)

end PagedTree.Node
