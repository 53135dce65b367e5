/-! # Byte strings

Blocks of zeroes, copying into a block, and words of `k` bytes with the least significant byte
first. Words and their byte lists determine each other, so a word field can be read back from
any page that it was copied into.
-/
namespace PagedTree

def zeros (n : Nat) : ByteArray := ⟨Array.replicate n 0⟩

@[simp] theorem size_zeros (n : Nat) : (zeros n).size = n := by
  simp [zeros, ByteArray.size]

/-- The `k` low bytes of `n`, least significant first. -/
def leBytes : Nat → Nat → List UInt8
  | 0, _ => []
  | k + 1, n => UInt8.ofNat n :: leBytes k (n / 256)

def leNat : List UInt8 → Nat
  | [] => 0
  | b :: bs => b.toNat + 256 * leNat bs

@[simp] theorem length_leBytes (k n : Nat) : (leBytes k n).length = k := by
  induction k generalizing n with
  | zero => rfl
  | succ k ih => simp [leBytes, ih]

theorem leNat_lt (bs : List UInt8) : leNat bs < Nat.pow 256 bs.length := by
  induction bs with
  | nil => exact Nat.zero_lt_one
  | cons b bs ih =>
    have hb := b.toNat_lt
    have hpow : Nat.pow 256 (bs.length + 1) = Nat.pow 256 bs.length * 256 := rfl
    rw [leNat, List.length_cons, hpow]
    omega

theorem leNat_leBytes (k n : Nat) : leNat (leBytes k n) = n % Nat.pow 256 k := by
  induction k generalizing n with
  | zero => exact (Nat.mod_one n).symm
  | succ k ih =>
    have hpow : Nat.pow 256 (k + 1) = 256 * Nat.pow 256 k := Nat.mul_comm _ _
    rw [leBytes, leNat, ih, hpow, Nat.mod_mul]
    simp

theorem leBytes_leNat (bs : List UInt8) : leBytes bs.length (leNat bs) = bs := by
  induction bs with
  | nil => rfl
  | cons b bs ih =>
    have hb := b.toNat_lt
    have hdiv : (b.toNat + 256 * leNat bs) / 256 = leNat bs := by omega
    rw [List.length_cons, leNat, leBytes, hdiv, ih]
    congr 1
    apply UInt8.toNat_inj.1
    simp

/-- Copies `src` into `b` from `pos` on; a copy that ends inside `b` keeps its length. -/
def overwrite (b : ByteArray) (pos : Nat) (src : ByteArray) : ByteArray :=
  src.copySlice 0 b pos src.size

theorem overwrite_eq (b : ByteArray) (pos : Nat) (src : ByteArray) :
    overwrite b pos src = b.extract 0 pos ++ src ++ b.extract (pos + src.size) b.size := by
  simp [overwrite, ByteArray.copySlice_eq_append]

theorem size_overwrite {b src : ByteArray} {pos : Nat} (h : pos + src.size ≤ b.size) :
    (overwrite b pos src).size = b.size := by
  simp only [overwrite_eq, ByteArray.size_append, ByteArray.size_extract]
  omega

theorem toList_overwrite (b : ByteArray) (pos : Nat) (src : ByteArray) :
    (overwrite b pos src).data.toList =
      b.data.toList.take pos ++ src.data.toList ++ b.data.toList.drop (pos + src.size) := by
  have hrest : (b.data.toList.drop (pos + src.size)).take (b.size - (pos + src.size)) =
      b.data.toList.drop (pos + src.size) := List.take_of_length_le (by simp)
  rw [overwrite_eq, ByteArray.data_append, ByteArray.data_append, Array.toList_append,
    Array.toList_append, ByteArray.data_extract, ByteArray.data_extract, Array.toList_extract,
    Array.toList_extract, List.extract_eq_take_drop, List.extract_eq_take_drop, hrest]
  simp

theorem getElem?_overwrite {b src : ByteArray} {pos : Nat} (h : pos + src.size ≤ b.size) (i : Nat) :
    (overwrite b pos src).data.toList[i]? =
      if pos ≤ i ∧ i < pos + src.size then src.data.toList[i - pos]? else b.data.toList[i]? := by
  have hb : b.size = b.data.toList.length := by simp
  have hs : src.size = src.data.toList.length := by simp
  have htake : (b.data.toList.take pos).length = pos := by rw [List.length_take]; omega
  rw [toList_overwrite, List.append_assoc]
  by_cases hlo : pos ≤ i
  · rw [List.getElem?_append_right (by omega), htake]
    by_cases hhi : i < pos + src.size
    · rw [List.getElem?_append_left (by omega), if_pos ⟨hlo, hhi⟩]
    · rw [List.getElem?_append_right (by omega), if_neg (by omega), List.getElem?_drop]
      congr 1
      omega
  · rw [List.getElem?_append_left (by omega), if_neg (by omega), List.getElem?_take_of_lt (by omega)]

/-- Copies the `k` low bytes of `n` into `b`. -/
def putWord (k : Nat) (b : ByteArray) (pos n : Nat) : ByteArray :=
  overwrite b pos (leBytes k n).toByteArray

/-- The word of `k` bytes at `pos`; bytes past the end are left out. -/
def word (k : Nat) (b : ByteArray) (pos : Nat) : Nat :=
  leNat (b.extract pos (pos + k)).data.toList

/-- Refuses a word that is not wholly inside `b`. -/
def word? (k : Nat) (b : ByteArray) (pos : Nat) : Option Nat :=
  if pos + k ≤ b.size then some (word k b pos) else none

theorem word_lt (k : Nat) (b : ByteArray) (pos : Nat) : word k b pos < Nat.pow 256 k := by
  have h := leNat_lt (b.extract pos (pos + k)).data.toList
  have hk : (b.extract pos (pos + k)).data.toList.length ≤ k := by
    rw [Array.length_toList, ByteArray.size_data, ByteArray.size_extract]
    omega
  exact Nat.lt_of_lt_of_le h (Nat.pow_le_pow_right (by decide) hk)

theorem word_eq (k : Nat) (b : ByteArray) (pos : Nat) :
    word k b pos = leNat ((b.data.toList.drop pos).take k) := by
  simp [word]

theorem word_putWord {k : Nat} {b : ByteArray} {pos : Nat} (n : Nat) (h : pos + k ≤ b.size) :
    word k (putWord k b pos n) pos = n % Nat.pow 256 k := by
  have hb : b.size = b.data.toList.length := by simp
  have hlen : (b.data.toList.take pos).length = pos := by rw [List.length_take]; omega
  rw [word_eq, putWord, toList_overwrite, List.append_assoc, List.drop_left' hlen,
    List.take_left' (by simp)]
  simp [leNat_leBytes]

theorem word_putWord_of_disjoint {k j : Nat} {b : ByteArray} {pos q : Nat} (n : Nat)
    (h : pos + k ≤ b.size) (hd : q + j ≤ pos ∨ pos + k ≤ q) :
    word j (putWord k b pos n) q = word j b q := by
  have hs : (leBytes k n).toByteArray.size = k := by simp
  rw [word_eq, word_eq]
  congr 1
  apply List.ext_getElem?
  intro i
  simp only [List.getElem?_take, List.getElem?_drop, putWord]
  split
  · rw [getElem?_overwrite (by omega), if_neg (by omega)]
  · rfl

end PagedTree
