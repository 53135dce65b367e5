import Mathlib.Algebra.GroupWithZero.Nat
import PagedTree.Catalog.Table

/-! # Rows and tables read back

The bytes of a row read back as that row: each column starts with a code that tells how long it is, so
the columns can be laid one behind the other. The code of a text counts its bytes twice, and stays
within eight bytes as long as the row is shorter than 2^63 bytes. A table is a row of its own.
-/
namespace PagedTree

namespace Text

/-- The bytes of a text are that text. -/
theorem readText_toUTF8 (s : String) : readText s.toUTF8 = .ok s := by
  have hread : String.fromUTF8? s.toUTF8 = some s := by
    rw [String.fromUTF8?, String.toUTF8_eq_toByteArray, dif_pos s.isValidUTF8]
    rfl
  rw [readText, hread]

end Text

namespace Datum

variable {a b c : ByteArray} {n : Nat} {d : Datum}

theorem bytesAt_middle (a b c : ByteArray) : bytesAt (a ++ (b ++ c)) a.size b.size = .ok b := by
  have hroom : a.size + b.size ≤ (a ++ (b ++ c)).size := by
    simp only [ByteArray.size_append]
    omega
  have hcut := ByteArray.extract_append_size_add (a := a) (b := b ++ c) (i := 0) (j := b.size)
  rw [Nat.add_zero, ByteArray.extract_append_eq_left rfl] at hcut
  rw [bytesAt, if_pos hroom, hcut]

theorem wordAt_middle (a c : ByteArray) (hn : n < UInt64.size) :
    wordAt (a ++ ((leBytes 8 n).toByteArray ++ c)) a.size = .ok n := by
  have hsize : (leBytes 8 n).toByteArray.size = 8 := by simp
  have hword : word 8 (leBytes 8 n).toByteArray 0 = n := by
    rw [word_eq]
    simp only [List.drop_zero, List.data_toByteArray]
    rw [List.take_of_length_le (by simp), leNat_leBytes]
    exact Nat.mod_eq_of_lt hn
  have hbytes := bytesAt_middle a (leBytes 8 n).toByteArray c
  rw [hsize] at hbytes
  rw [wordAt, hbytes]
  exact congrArg Except.ok hword

theorem code_lt (h : d.encode.size < 2 ^ 63) : d.code < UInt64.size := by
  rw [size_encode] at h
  have hbound : UInt64.size = 2 * 2 ^ 63 := by decide
  cases d with
  | integer => exact (by decide : 6 < UInt64.size)
  | real => exact (by decide : 7 < UInt64.size)
  | text s =>
    simp only [width, code] at h ⊢
    omega

/-- A column reads back wherever it stands. -/
theorem decodeAt_middle (a c : ByteArray) (h : d.encode.size < 2 ^ 63) :
    decodeAt (a ++ (d.encode ++ c)) a.size = .ok d := by
  have hsize : (leBytes 8 d.code).toByteArray.size = 8 := by simp
  have hbody : a ++ (d.encode ++ c) = (a ++ (leBytes 8 d.code).toByteArray) ++ (d.body ++ c) := by
    simp only [encode, ByteArray.append_assoc]
  have hbodyAt : (a ++ (leBytes 8 d.code).toByteArray).size = a.size + 8 := by
    rw [ByteArray.size_append, hsize]
  have hcode : wordAt (a ++ (d.encode ++ c)) a.size = .ok d.code := by
    have hword := wordAt_middle a (d.body ++ c) (code_lt h)
    rwa [encode, ByteArray.append_assoc]
  rw [decodeAt, hcode]
  cases d with
  | integer n =>
    have hword := wordAt_middle (a ++ (leBytes 8 (integer n).code).toByteArray) c n.toUInt64.toNat_lt
    rw [hbodyAt] at hword
    rw [hbody, body, hword]
    simp [code, bind, Except.bind, pure, Except.pure]
  | real bits =>
    have hword := wordAt_middle (a ++ (leBytes 8 (real bits).code).toByteArray) c bits.toNat_lt
    rw [hbodyAt] at hword
    rw [hbody, body, hword]
    simp [code, bind, Except.bind, pure, Except.pure]
  | text s =>
    have hbytes := bytesAt_middle (a ++ (leBytes 8 (text s).code).toByteArray) s.toUTF8 c
    rw [hbodyAt] at hbytes
    have hlen : (13 + 2 * s.utf8ByteSize - 13) / 2 = s.toUTF8.size := by
      rw [String.toUTF8_eq_toByteArray, String.size_toByteArray]
      omega
    have heven : (13 + 2 * s.utf8ByteSize - 13) % 2 = 0 := by omega
    rw [hbody, body]
    simp only [code] at hbytes
    simp only [code, bind, Except.bind, hlen, hbytes, Text.readText_toUTF8]
    rw [if_neg (by omega), if_neg (by omega), if_pos ⟨by omega, heven⟩]
    rfl

end Datum

namespace Row

theorem size_encode (row : Row) : row.encode.size = (row.map Datum.width).sum := by
  induction row with
  | nil => simp [encode]
  | cons d ds ih => simp [encode, ByteArray.size_append, Datum.size_encode, ih]

theorem decodeFrom_append {row : Row} (pre : ByteArray) (h : row.encode.size < 2 ^ 63) :
    decodeFrom (pre ++ row.encode) pre.size = .ok row := by
  induction row generalizing pre with
  | nil =>
    rw [decodeFrom, if_neg]
    simp [encode]
  | cons d ds ih =>
    have hsizes : (Row.encode (d :: ds)).size = d.encode.size + (Row.encode ds).size := by
      rw [encode, ByteArray.size_append]
    have hd := d.size_encode
    have hpos := d.width_pos
    have hlt : pre.size < (pre ++ Row.encode (d :: ds)).size := by
      rw [ByteArray.size_append]
      omega
    have hnext : pre.size + d.width = (pre ++ d.encode).size := by rw [ByteArray.size_append, hd]
    rw [decodeFrom, if_pos hlt, encode, Datum.decodeAt_middle pre (encode ds) (by omega)]
    simp only
    rw [hnext, ← ByteArray.append_assoc, ih _ (by omega)]
    rfl

/-- The bytes of a row read back as that row, bit for bit. -/
theorem decode_encode {row : Row} (h : row.encode.size < 2 ^ 63) :
    decode row.encode = .ok row := by
  have hfrom := decodeFrom_append .empty h
  rwa [ByteArray.empty_append] at hfrom

end Row

/-- A table reads back under the number of its row. -/
theorem Table.decode_encode {t : Table} (h : t.encode.size < 2 ^ 63) :
    decode t.rowId t.encode = .ok t := by
  have hpage : (Int64.ofNat t.root.toNat).toInt = t.root.toNat := by
    have hlt := t.root.toNat_lt
    rw [Int64.toInt_ofNat_of_lt]
    omega
  have hrow := Row.decode_encode h
  have hback : ofRow t.rowId t.toRow = .ok t := by
    have hlt := t.root.toNat_lt
    simp only [ofRow, toRow, Datum.text?, Datum.integer?, hpage, Int.toNat_natCast]
    rw [if_pos ⟨Int.natCast_nonneg _, hlt⟩]
    simp
  unfold decode
  rw [show t.encode = t.toRow.encode from rfl, hrow]
  simp only [hback]

end PagedTree
