import PagedTree.Call
import PagedTree.Node.Branch
import PagedTree.Node.Header

/-! # Nodes onto pages

Cells are laid from the end of the page towards its front, and the table behind the header records
where each one starts. A leaf cell is a key, the length of the value and the value. A branch cell
is a separator below the offset of the child on its left; the last child has a cell of its own. A
node that does not fit leaves the table and the cells laid so far on a page without a header.
-/
namespace PagedTree

/-- A page under construction. -/
structure Draft where
  /-- Where the lowest cell starts. -/
  content : Nat
  /-- Where the cells start, the newest first. -/
  table : List Nat
  /-- The newest, which lies lowest, first. -/
  cells : List ByteArray

namespace Draft

def blank : Draft := ⟨pageSize, [], []⟩

/-- Lays a cell below the others, if there is room for `need` bytes and one more address. -/
def add? (d : Draft) (need : Nat) (cell : ByteArray) : Option Draft :=
  if d.content < NodeHeader.tableStart + 2 * (d.table.length + 1) + need then none
  else some ⟨d.content - cell.size, (d.content - cell.size) :: d.table, cell :: d.cells⟩

def page (d : Draft) : ByteArray :=
  let table := (d.table.reverse.flatMap (leBytes 2)).toByteArray
  let gap := d.content - NodeHeader.tableStart - table.size
  d.cells.foldl (· ++ ·) (zeros NodeHeader.tableStart ++ table ++ zeros gap)

end Draft

namespace Node

def leafCell (key : UInt64) (value : ByteArray) : ByteArray :=
  (leBytes 8 key.toNat ++ leBytes 2 value.size).toByteArray ++ value

/-- The cell of a child and of the separator on its right, if there is one. -/
def branchCell (key : Option UInt64) (child : PageNo) : ByteArray :=
  ((match key with
    | some key => leBytes 8 key.toNat
    | none => []) ++ leBytes 8 child.offset).toByteArray

def addCell (p : PageNo) (total need : Nat) (cell : ByteArray) : Call Draft Unit := do
  match (← get).add? need cell with
  | some d => set d
  | none => Call.fail (.corruptPage p (.overfull total))

/-- The longest value whose length fits its field. -/
def maxCellValue : Nat := 65535

def layLeaf (p : PageNo) (total : Nat) : List (UInt64 × ByteArray) → Call Draft Unit
  | [] => pure ()
  | (key, value) :: rest => do
    if maxCellValue < value.size then Call.fail (.valueTooLarge value.size maxCellValue)
    addCell p total (10 + value.size) (leafCell key value)
    layLeaf p total rest

/-- Every child needs room for a separator, also the last one, which has none. -/
def layBranch (p : PageNo) (total : Nat) : List UInt64 → List PageNo → Call Draft Unit
  | _, [] => pure ()
  | keys, child :: rest => do
    addCell p total 16 (branchCell keys.head? child)
    layBranch p total keys.tail rest

/-- Replaces a buffer by a page: the cells first, then, if all of them fit, the header. -/
def writeDraft (kind : NodeKind) (cells link : Nat) (lay : Call Draft Unit) :
    Call ByteArray Unit := do
  let (r, d) := lay.result Draft.blank
  set d.page
  Call.resume r
  let header : NodeHeader :=
    ⟨kind, .ofNat cells, .ofNat d.content, .ofNat NodeHeader.tableStart, .ofNat link⟩
  set (← Call.orFault (header.stamp? d.page))

def checkBuffer (p : PageNo) (b : ByteArray) : Except StoreError Unit :=
  if b.size ≠ pageSize then .error (.corruptPage p (.bufferSize b.size)) else .ok ()

def encodeLeaf (p : PageNo) (keys : List UInt64) (values : List ByteArray)
    (next : Option PageNo) : Call ByteArray Unit := do
  Call.ofExcept (checkBuffer p (← get))
  if keys.length ≠ values.length then
    Call.fail (.corruptPage p (.valueCount keys.length values.length))
  writeDraft .leaf keys.length ((next.map PageNo.offset).getD 0)
    (layLeaf p keys.length (keys.zip values))

def encodeBranch (p : PageNo) (keys : List UInt64) (children : List PageNo) :
    Call ByteArray Unit := do
  Call.ofExcept (checkBuffer p (← get))
  if children.length ≠ keys.length + 1 then
    Call.fail (.corruptPage p (.childCount keys.length children.length))
  writeDraft .branch keys.length 0 (layBranch p keys.length keys children)

/-- The page of a node that is to lie on page `p`. -/
def encode {σ : Type} (p : PageNo) (n : Node) : Call σ ByteArray := do
  let (r, b) := Call.result (match n with
    | .leaf l => encodeLeaf p l.keys (l.entries.map Entry.value) l.next
    | .branch b => encodeBranch p b.keys b.children) (zeros pageSize)
  Call.resume r
  return b

end Node

end PagedTree
