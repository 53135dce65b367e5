import PagedTree.Bytes
import PagedTree.Row.Basic
import PagedTree.Text.Utf8

/-! # Rows as bytes

A row is the concatenation of its columns: a code of eight bytes, then a body whose kind and
length the code tells. The code of a text of `n` bytes is `13 + 2 * n`.
-/
namespace PagedTree

/-- Why bytes are no row, or a row no entry of the catalog. -/
inductive RecordFault where
  | unknownCode (code : Nat)
  | truncated (length offset : Nat)
  | notText (fault : Text.Utf8Fault)
  | shape (rowId : UInt64) (row : Row)
  | page (rowId : UInt64) (n : Int64)

def RecordFault.message : RecordFault → String
  | .unknownCode code => s!"unknown serial code {code}"
  | .truncated length offset => s!"record truncated: need {length} bytes at offset {offset}"
  | .notText fault => s!"invalid utf-8 text: {fault.message}"
  | .shape rowId row => s!"catalog row {rowId} has unexpected shape {row.listed}"
  | .page rowId n => s!"catalog row {rowId}: bad page {n.toInt}"

namespace Datum

def code : Datum → Nat
  | integer _ => 6
  | real _ => 7
  | text s => 13 + 2 * s.utf8ByteSize

def body : Datum → ByteArray
  | integer n => (leBytes 8 n.toUInt64.toNat).toByteArray
  | real bits => (leBytes 8 bits.toNat).toByteArray
  | text s => s.toUTF8

def encode (d : Datum) : ByteArray := (leBytes 8 d.code).toByteArray ++ d.body

def width : Datum → Nat
  | integer _ | real _ => 16
  | text s => 8 + s.utf8ByteSize

theorem size_encode (d : Datum) : d.encode.size = d.width := by
  cases d <;> simp [encode, body, width, ByteArray.size_append]

theorem width_pos (d : Datum) : 0 < d.width := by
  cases d with
  | integer | real => simp [width]
  | text s => exact Nat.add_pos_left (by decide) s.utf8ByteSize

/-- The `length` bytes from `pos` on, all of which have to be there. -/
def bytesAt (b : ByteArray) (pos length : Nat) : Except RecordFault ByteArray :=
  if pos + length ≤ b.size then .ok (b.extract pos (pos + length))
  else .error (.truncated length pos)

def wordAt (b : ByteArray) (pos : Nat) : Except RecordFault Nat :=
  return word 8 (← bytesAt b pos 8) 0

/-- The column that starts at `pos`. -/
def decodeAt (b : ByteArray) (pos : Nat) : Except RecordFault Datum := do
  let code ← wordAt b pos
  if code = 6 then
    return integer (UInt64.ofNat (← wordAt b (pos + 8))).toInt64
  else if code = 7 then
    return real (UInt64.ofNat (← wordAt b (pos + 8)))
  else if 13 ≤ code ∧ (code - 13) % 2 = 0 then
    match Text.readText (← bytesAt b (pos + 8) ((code - 13) / 2)) with
    | .ok s => return text s
    | .error fault => throw (.notText fault)
  else throw (.unknownCode code)

end Datum

namespace Row

def encode : Row → ByteArray
  | [] => .empty
  | d :: ds => d.encode ++ encode ds

def decodeFrom (b : ByteArray) (pos : Nat) : Except RecordFault Row :=
  if pos < b.size then
    match Datum.decodeAt b pos with
    | .ok d => (decodeFrom b (pos + d.width)).map (d :: ·)
    | .error fault => .error fault
  else .ok []
termination_by b.size - pos
decreasing_by have := d.width_pos; omega

def decode (b : ByteArray) : Except RecordFault Row := decodeFrom b 0

end Row

end PagedTree
