/-! # Reading UTF-8

A byte string falls into pieces, each a character or the longest start of one that cannot be
continued. Replacing every broken piece by U+FFFD gives a text for any bytes, and the first broken
piece says why bytes are no text.
-/
namespace PagedTree.Text

/-- `broken n` is `n` bytes that no further byte could complete; `cut n` are the last `n` bytes of
the string, which more bytes could. -/
inductive Piece where
  | char (c : Char) (width : Nat)
  | broken (width : Nat)
  | cut (width : Nat)

/-- What a first byte announces: the bytes still owed, the range of the next one, and the bits
that it carries itself. -/
structure Lead where
  owed : Nat
  low : Nat
  high : Nat
  bits : Nat

def lead? (b : UInt8) : Option Lead :=
  let n := b.toNat
  if n ≤ 0x7F then some ⟨0, 0, 0, n⟩
  else if 0xC2 ≤ n ∧ n ≤ 0xDF then some ⟨1, 0x80, 0xBF, n - 0xC0⟩
  else if n = 0xE0 then some ⟨2, 0xA0, 0xBF, 0⟩
  else if n = 0xED then some ⟨2, 0x80, 0x9F, 0xD⟩
  else if 0xE1 ≤ n ∧ n ≤ 0xEF then some ⟨2, 0x80, 0xBF, n - 0xE0⟩
  else if n = 0xF0 then some ⟨3, 0x90, 0xBF, 0⟩
  else if 0xF1 ≤ n ∧ n ≤ 0xF3 then some ⟨3, 0x80, 0xBF, n - 0xF0⟩
  else if n = 0xF4 then some ⟨3, 0x80, 0x8F, 4⟩
  else none

/-- Reads the bytes that are owed, of which the next one lies between `low` and `high`. -/
def follow (width bits low high : Nat) : Nat → List UInt8 → Piece
  | 0, _ => .char (Char.ofNat bits) width
  | _ + 1, [] => .cut width
  | owed + 1, b :: bs =>
    if low ≤ b.toNat ∧ b.toNat ≤ high then
      follow (width + 1) (bits * 64 + (b.toNat - 0x80)) 0x80 0xBF owed bs
    else .broken width

def Piece.width : Piece → Nat
  | .char _ n | .broken n | .cut n => n

def piece (b : UInt8) (bs : List UInt8) : Piece :=
  match lead? b with
  | none => .broken 1
  | some l => follow 1 l.bits l.low l.high l.owed bs

def pieces : List UInt8 → List Piece
  | [] => []
  | b :: bs =>
    let p := piece b bs
    p :: pieces (bs.drop (p.width - 1))
termination_by bs => bs.length
decreasing_by simp only [List.length_drop, List.length_cons]; omega

def Piece.toChar : Piece → Char
  | .char c _ => c
  | .broken _ | .cut _ => '\uFFFD'

/-- Reads any bytes as text, with one U+FFFD for each broken piece. -/
def lossy (b : ByteArray) : String :=
  String.ofList ((pieces b.data.toList).map Piece.toChar)

/-- Why bytes are no text: the length of the first broken piece and where it starts. -/
inductive Utf8Fault where
  | invalid (width index : Nat)
  | incomplete (index : Nat)
  deriving DecidableEq

def Utf8Fault.message : Utf8Fault → String
  | .invalid width index => s!"invalid utf-8 sequence of {width} bytes from index {index}"
  | .incomplete index => s!"incomplete utf-8 byte sequence from index {index}"

def firstFault (index : Nat) : List Piece → Option Utf8Fault
  | [] => none
  | .char _ width :: ps => firstFault (index + width) ps
  | .broken width :: _ => some (.invalid width index)
  | .cut _ :: _ => some (.incomplete index)

/-- Bytes that are no text have a broken piece; the fallback is never taken. -/
def readText (b : ByteArray) : Except Utf8Fault String :=
  match String.fromUTF8? b with
  | some s => .ok s
  | none => .error ((firstFault 0 (pieces b.data.toList)).getD (.incomplete b.size))

end PagedTree.Text
