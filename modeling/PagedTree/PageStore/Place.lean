/-! # Where pages lie

Page `p` starts at byte `101 + 32768 * p` of the file, behind the header. Pages and the offsets
they start at determine each other, and no page starts at offset zero, which therefore can stand
for "no page".
-/
namespace PagedTree

abbrev PageNo := UInt32

def pageSize : Nat := 32768

def headerSize : Nat := 100

/-- The byte between the header and the first page belongs to neither. -/
def firstPageOffset : Nat := headerSize + 1

namespace PageNo

def offset (p : PageNo) : Nat := p.toNat * pageSize + firstPageOffset

def ofOffset? (offset : Nat) : Option PageNo :=
  let rel := offset - firstPageOffset
  if firstPageOffset ≤ offset ∧ rel % pageSize = 0 ∧ rel / pageSize < UInt32.size then
    some (.ofNat (rel / pageSize))
  else none

theorem ofOffset?_offset (p : PageNo) : ofOffset? p.offset = some p := by
  have hp := p.toNat_lt
  have hrel : p.offset - firstPageOffset = p.toNat * pageSize := by simp [offset]
  have hdiv : p.toNat * pageSize / pageSize = p.toNat := Nat.mul_div_cancel _ (by decide)
  unfold ofOffset?
  dsimp only
  rw [hrel, hdiv, if_pos]
  · simp
  · exact ⟨by simp [offset], Nat.mul_mod_left _ _, hp⟩

theorem offset_of_ofOffset? {n : Nat} {p : PageNo} (h : ofOffset? n = some p) : p.offset = n := by
  unfold ofOffset? at h
  dsimp only at h
  split at h
  case isTrue hn =>
    obtain ⟨hle, hmod, hlt⟩ := hn
    have hdiv := Nat.div_add_mod (n - firstPageOffset) pageSize
    have hp : p.toNat = (n - firstPageOffset) / pageSize := by
      rw [← Option.some.inj h]
      exact UInt32.toNat_ofNat_of_lt' hlt
    rw [offset, hp, Nat.mul_comm]
    omega
  case isFalse => exact absurd h (by simp)

theorem ofOffset?_eq_some_iff {n : Nat} {p : PageNo} : ofOffset? n = some p ↔ n = p.offset := by
  constructor
  · intro h
    exact (offset_of_ofOffset? h).symm
  · rintro rfl
    exact ofOffset?_offset p

theorem offset_ne_zero (p : PageNo) : p.offset ≠ 0 := Nat.succ_ne_zero _

/-- Every page starts where a word of eight bytes can point. -/
theorem offset_lt (p : PageNo) : p.offset < UInt64.size := by
  have hp := p.toNat_lt
  have hsize : UInt64.size = 18446744073709551616 := rfl
  simp only [offset, pageSize, firstPageOffset, headerSize]
  omega

theorem toNat_ofNat_offset (p : PageNo) : (UInt64.ofNat p.offset).toNat = p.offset :=
  UInt64.toNat_ofNat_of_lt' p.offset_lt

theorem ofNat_offset_ne_zero (p : PageNo) : UInt64.ofNat p.offset ≠ 0 := by
  intro h
  have hzero := congrArg UInt64.toNat h
  rw [toNat_ofNat_offset] at hzero
  exact p.offset_ne_zero hzero

end PageNo

end PagedTree
