import PagedTree.Bytes
import PagedTree.StoreError

/-! # The header of a page

Eighteen bytes in front of every node: its kind, the number of its cells, where their contents and
the table of their addresses start, and one file offset, which in a leaf names the next one. A
page on which the table starts at zero has never been written.
-/
namespace PagedTree

inductive NodeKind where
  | leaf
  | branch
  deriving DecidableEq

namespace NodeKind

def byte : NodeKind → Nat
  | leaf => 0
  | branch => 1

def ofByte? : Nat → Option NodeKind
  | 0 => some leaf
  | 1 => some branch
  | _ => none

end NodeKind

structure NodeHeader where
  kind : NodeKind
  cells : UInt16
  content : UInt16
  table : UInt16
  link : UInt64
  deriving DecidableEq

/-- A word of `bits` bits at `pos`, which has to lie inside the page. -/
def field (bits : Nat) (b : ByteArray) (pos : Nat) : Except PageFault Nat :=
  match word? (bits / 8) b pos with
  | some n => .ok n
  | none => .error (.noWord bits pos)

namespace NodeHeader

def size : Nat := 18

/-- Where the table of addresses starts on every page that is written. -/
def tableStart : Nat := size + 1

/-- Writes the fields into `b`, which has to hold them, and leaves the rest as it is. -/
def stamp? (h : NodeHeader) (b : ByteArray) : Option ByteArray :=
  if size ≤ b.size then
    let b := putWord 1 b 0 h.kind.byte
    let b := putWord 2 b 3 h.cells.toNat
    let b := putWord 2 b 5 h.content.toNat
    let b := putWord 2 b 7 h.table.toNat
    some (putWord 8 b 10 h.link.toNat)
  else none

def decode (b : ByteArray) : Except PageFault (Option NodeHeader) := do
  let table ← field 16 b 7
  if table = 0 then
    return none
  let byte := word 1 b 0
  match NodeKind.ofByte? byte with
  | none => throw (.nodeKind byte)
  | some kind =>
    let cells ← field 16 b 3
    let content ← field 16 b 5
    let link ← field 64 b 10
    return some ⟨kind, .ofNat cells, .ofNat content, .ofNat table, .ofNat link⟩

end NodeHeader

end PagedTree
