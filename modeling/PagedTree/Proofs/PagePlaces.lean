import Mathlib.Data.Set.Basic
import PagedTree.Proofs.DecodedNodes

/-! # Pages and their bytes

Nodes refer to pages by words of eight bytes. Each such word is where one page starts or where none
does, and zero is left for the link that leads nowhere. The arithmetic of these words does not wrap, up
to the last page there is. Every page has bytes of its own, and the header has its own in front of them.
-/
namespace PagedTree.PageNo

/-- The bytes of the file that a page takes up. -/
def bytes (p : PageNo) : Set Nat := {i | p.offset ≤ i ∧ i < p.offset + pageSize}

variable {p q : PageNo}

theorem bytes_inter (h : q ≠ p) : p.bytes ∩ q.bytes = ∅ := by
  refine Set.eq_empty_of_forall_notMem ?_
  rintro i ⟨⟨hstart, hend⟩, hstart', hend'⟩
  have hdisjoint := offset_disjoint h
  omega

theorem bytes_inter_header (p : PageNo) : p.bytes ∩ {i | i < headerSize} = ∅ := by
  refine Set.eq_empty_of_forall_notMem ?_
  rintro i ⟨⟨hstart, hend⟩, hheader⟩
  have hbehind := p.headerSize_lt_offset
  exact Nat.lt_irrefl i (Nat.lt_trans hheader (Nat.lt_of_lt_of_le hbehind hstart))

/-- Words of eight bytes are wide enough for the product and for the sum. -/
theorem toNat_offset_words (p : PageNo) : (p.toUInt64 * 32768 + 101).toNat = p.offset := by
  have hlt : p.toNat * 32768 + 101 < 2 ^ 64 := p.offset_lt
  have hproduct : (p.toUInt64 * 32768).toNat = p.toNat * 32768 := by
    rw [UInt64.toNat_mul, UInt32.toNat_toUInt64]
    exact Nat.mod_eq_of_lt (Nat.lt_of_le_of_lt (Nat.le_add_right _ _) hlt)
  rw [UInt64.toNat_add, hproduct]
  exact Nat.mod_eq_of_lt hlt

/-- The word of a link tells where it leads, and zero leads nowhere. -/
theorem link_eq_iff {next : Option PageNo} :
    UInt64.ofNat ((next.map offset).getD 0) = .ofNat p.offset ↔ next = some p := by
  cases next with
  | none => simpa using p.ofNat_offset_ne_zero.symm
  | some q =>
    constructor
    · intro h
      have hsame : q.offset = p.offset := by
        rw [← toNat_ofNat_offset, ← p.toNat_ofNat_offset]
        exact congrArg UInt64.toNat h
      rw [← ofOffset?_offset, hsame, ofOffset?_offset]
    · intro h
      obtain rfl := Option.some.inj h
      rfl

/-- A word of eight bytes is taken for a page exactly if the page starts there. The start of a page is
such a word, found by arithmetic of words that does not wrap, and is not zero. It is the link of a leaf
exactly if the next leaf lies on that page, so never if there is no next leaf. No two pages have a byte
in common, and none has one in common with the header. -/
theorem offset_exact (p : PageNo) :
    (∀ o : UInt64, (ofOffset? o.toNat = some p ↔ o.toNat = p.offset) ∧
      (Node.pageAt o.toNat = .ok p ↔ o.toNat = p.offset)) ∧
    p.offset < UInt64.size ∧ (p.toUInt64 * 32768 + 101).toNat = p.offset ∧ p.offset ≠ 0 ∧
    (∀ next : Option PageNo,
      UInt64.ofNat ((next.map offset).getD 0) = .ofNat p.offset ↔ next = some p) ∧
    (∀ q : PageNo, q ≠ p → p.bytes ∩ q.bytes = ∅) ∧ p.bytes ∩ {i | i < headerSize} = ∅ :=
  ⟨fun _ => ⟨ofOffset?_eq_some_iff, Node.pageAt_ok_iff⟩, p.offset_lt, p.toNat_offset_words,
    p.offset_ne_zero, fun _ => link_eq_iff, fun _ => bytes_inter, p.bytes_inter_header⟩

/-- The last page there is, beside the first. -/
theorem offset_exact_of_last : offset 4294967295 = 140737488322661 ∧
    ofOffset? 140737488322661 = some 4294967295 ∧ ofOffset? 140737488322662 ≠ some 4294967295 ∧
    (0 : PageNo) ≠ 4294967295 ∧ bytes 4294967295 ∩ bytes 0 = ∅ := by
  obtain ⟨hwords, -, -, -, -, hothers, -⟩ := offset_exact 4294967295
  have hoffset : offset 4294967295 = 140737488322661 := by decide
  exact ⟨hoffset, (hwords 140737488322661).1.2 hoffset.symm,
    fun h => absurd ((hwords 140737488322662).1.1 h) (by decide), by decide, hothers 0 (by decide)⟩

end PagedTree.PageNo
