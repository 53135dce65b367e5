import PagedTree.Catalog.Basic
import PagedTree.Proofs.Calls
import PagedTree.Proofs.RowCodec

/-! # One byte string for each row

Bytes that read as a row are the bytes of that row: a word has one list of eight bytes, a text one
list of bytes, and the columns leave nothing between them. So the byte strings that read as a row are
exactly the rows that are written, and every other one is refused.
-/
namespace PagedTree

theorem Text.toUTF8_of_readText {b : ByteArray} {s : String} (h : readText b = .ok s) :
    s.toUTF8 = b := by
  rw [readText, String.fromUTF8?] at h
  by_cases hvalid : b.IsValidUTF8
  · rw [dif_pos hvalid] at h
    cases h
    rfl
  · rw [dif_neg hvalid] at h
    cases h

namespace Datum

variable {b c : ByteArray} {pos n : Nat} {d : Datum}

theorem bytesAt_eq (h : bytesAt b pos n = .ok c) :
    pos + n ≤ b.size ∧ b.extract pos (pos + n) = c := by
  unfold bytesAt at h
  split at h
  case isTrue hroom =>
    cases h
    exact ⟨hroom, rfl⟩
  case isFalse => cases h

theorem wordAt_eq (h : wordAt b pos = .ok n) : pos + 8 ≤ b.size ∧ n < UInt64.size ∧
    b.extract pos (pos + 8) = (leBytes 8 n).toByteArray := by
  obtain ⟨c, hbytes, h⟩ := exists_of_except_bind_ok h
  cases h
  obtain ⟨hroom, hcut⟩ := bytesAt_eq hbytes
  have hlength : c.data.toList.length = 8 := by
    rw [← hcut, Array.length_toList, ByteArray.size_data, ByteArray.size_extract]
    omega
  have hword : word 8 c 0 = leNat c.data.toList := by
    rw [word_eq, List.drop_zero, List.take_of_length_le (Nat.le_of_eq hlength)]
  have hback := leBytes_leNat c.data.toList
  refine ⟨hroom, word_lt 8 c 0, ?_⟩
  rw [hlength] at hback
  rw [hcut, hword, hback]
  exact ByteArray.ext (by simp)

theorem le_width (d : Datum) : 8 ≤ d.width := by cases d <;> simp [width]

theorem extract_encode (hcode : b.extract pos (pos + 8) = (leBytes 8 d.code).toByteArray)
    (hbody : b.extract (pos + 8) (pos + d.width) = d.body) :
    b.extract pos (pos + d.width) = d.encode := by
  have hwidth := d.le_width
  rw [ByteArray.extract_eq_extract_append_extract (pos + 8) (by omega) (by omega), hcode, hbody,
    encode]

/-- A column that is read stands there byte by byte. -/
theorem decodeAt_eq (h : decodeAt b pos = .ok d) :
    pos + d.width ≤ b.size ∧ b.extract pos (pos + d.width) = d.encode := by
  obtain ⟨code, hcode, h⟩ := exists_of_except_bind_ok h
  obtain ⟨-, -, hcodeBytes⟩ := wordAt_eq hcode
  split at h
  case isTrue hinteger =>
    subst hinteger
    obtain ⟨n, hword, h⟩ := exists_of_except_bind_ok h
    cases h
    obtain ⟨hroom, hn, hbytes⟩ := wordAt_eq hword
    refine ⟨hroom, extract_encode hcodeBytes (hbytes.trans ?_)⟩
    rw [body, UInt64.toUInt64_toInt64, UInt64.toNat_ofNat_of_lt' hn]
  case isFalse =>
    split at h
    case isTrue hreal =>
      subst hreal
      obtain ⟨n, hword, h⟩ := exists_of_except_bind_ok h
      cases h
      obtain ⟨hroom, hn, hbytes⟩ := wordAt_eq hword
      refine ⟨hroom, extract_encode hcodeBytes (hbytes.trans ?_)⟩
      rw [body, UInt64.toNat_ofNat_of_lt' hn]
    case isFalse =>
      split at h
      case isTrue htext =>
        obtain ⟨c, hbytesAt, h⟩ := exists_of_except_bind_ok h
        obtain ⟨hroom, hbytes⟩ := bytesAt_eq hbytesAt
        split at h
        case h_1 s hread =>
          cases h
          have hutf8 := Text.toUTF8_of_readText hread
          have hlength : (code - 13) / 2 = s.utf8ByteSize := by
            have hsize := congrArg ByteArray.size (hbytes.trans hutf8.symm)
            rw [String.toUTF8_eq_toByteArray, String.size_toByteArray, ByteArray.size_extract]
              at hsize
            omega
          have hcodeText : code = (text s).code := by
            rw [Datum.code]
            omega
          rw [hcodeText] at hcodeBytes
          rw [hlength, Nat.add_assoc] at hroom hbytes
          exact ⟨hroom, extract_encode hcodeBytes (hbytes.trans hutf8.symm)⟩
        case h_2 => cases h
      case isFalse => cases h

end Datum

namespace Row

/-- What is read from some position on is all that stands there. -/
theorem decodeFrom_eq {b : ByteArray} {pos : Nat} {row : Row} (hpos : pos ≤ b.size)
    (h : decodeFrom b pos = .ok row) : b.extract pos b.size = row.encode := by
  fun_induction decodeFrom b pos generalizing row with
  | case1 pos hlt d hd ih =>
    cases hrest : decodeFrom b (pos + d.width) with
    | error fault =>
      rw [hrest] at h
      cases h
    | ok ds =>
      rw [hrest] at h
      cases h
      obtain ⟨hroom, hcut⟩ := Datum.decodeAt_eq hd
      have hend := ih hroom hrest
      have hsplit := ByteArray.extract_eq_extract_append_extract (a := b) (i := pos)
        (pos + d.width) (Nat.le_add_right _ _) hroom
      rw [hsplit, hcut, hend, encode]
  | case2 => cases h
  | case3 pos hend =>
    cases h
    rw [Nat.le_antisymm hpos (Nat.le_of_not_lt hend), encode]
    exact ByteArray.ext (by simp)

theorem eq_encode_of_decode {b : ByteArray} {row : Row} (h : decode b = .ok row) :
    b = row.encode := by
  have hall := decodeFrom_eq (Nat.zero_le _) h
  rwa [ByteArray.extract_zero_size] at hall

/-- A byte string reads as a row exactly if it is that row written, and if it is no row written, it
is refused as malformed, also as an entry of a table. Byte strings in memory are shorter than
2^63 bytes. -/
theorem decode_iff_encode {b : ByteArray} (hb : b.size < 2 ^ 63) :
    (∀ row : Row, decode b = .ok row ↔ b = row.encode) ∧
      ((∀ row : Row, b ≠ row.encode) → ∃ fault, decode b = .error fault ∧
        ∀ key, Catalog.decodeEntry ⟨key, b⟩ = .error (.malformedRecord fault)) := by
  constructor
  · intro row
    refine ⟨eq_encode_of_decode, ?_⟩
    rintro rfl
    exact decode_encode hb
  · intro hno
    cases hdecode : decode b with
    | ok row => exact absurd (eq_encode_of_decode hdecode) (hno row)
    | error fault => exact ⟨fault, rfl, fun key => by simp only [Catalog.decodeEntry, hdecode]⟩

/-- A row of two columns is read, and a single byte, with which no column can end, is refused. -/
theorem decode_iff_encode_of_two_columns :
    decode (encode [.integer (-1), .text "é"]) = .ok [.integer (-1), .text "é"] ∧
      ∃ fault, decode (zeros 1) = .error fault ∧
        ∀ key, Catalog.decodeEntry ⟨key, zeros 1⟩ = .error (.malformedRecord fault) := by
  constructor
  · have hsize : (encode [.integer (-1), .text "é"]).size = 26 := by
      rw [size_encode]
      rfl
    exact ((decode_iff_encode (by rw [hsize]; decide)).1 _).2 rfl
  · refine (decode_iff_encode (by rw [size_zeros]; decide)).2 fun row hrow => ?_
    have hsize := congrArg ByteArray.size hrow
    rw [size_zeros, size_encode] at hsize
    cases row with
    | nil => simp at hsize
    | cons d ds =>
      have hwidth := d.le_width
      rw [List.map_cons, List.sum_cons] at hsize
      omega

end Row

end PagedTree
