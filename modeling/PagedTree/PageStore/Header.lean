import PagedTree.Bytes
import PagedTree.StoreError

/-! # The header of a store

The first hundred bytes of the file: a magic text, the page size and the offset at which the next
page will start. Everything else in them is zero. A header is accepted only if its cursor lies on
a page boundary, so the number of pages can be read off the cursor without a remainder.
-/
namespace PagedTree

structure Header where
  pageSize : UInt16
  freeOffset : UInt32
  deriving DecidableEq

namespace Header

def magic : ByteArray := "emberdb format 1".toUTF8

/-- The header of a store without pages. -/
def fresh : Header := ⟨.ofNat PagedTree.pageSize, .ofNat firstPageOffset⟩

def encode (h : Header) : ByteArray :=
  magic ++ (leBytes 2 h.pageSize.toNat).toByteArray ++ zeros 18 ++
    (leBytes 4 h.freeOffset.toNat).toByteArray ++ zeros 60

def onBoundary (cursor : Nat) : Prop :=
  firstPageOffset ≤ cursor ∧ (cursor - firstPageOffset) % PagedTree.pageSize = 0

instance (cursor : Nat) : Decidable (onBoundary cursor) := by unfold onBoundary; infer_instance

def decode (b : ByteArray) : Except HeaderFault Header :=
  let size := word 2 b 16
  let cursor := word 4 b 36
  if b.size < headerSize then .error (.tooShort b.size)
  else if (b.extract 0 16).data.toList ≠ magic.data.toList then .error .magic
  else if size ≠ PagedTree.pageSize then .error (.unitSize size)
  else if ¬onBoundary cursor then .error (.cursor cursor)
  else .ok ⟨.ofNat size, .ofNat cursor⟩

def pageCount (h : Header) : Nat := (h.freeOffset.toNat - firstPageOffset) / PagedTree.pageSize

theorem size_encode (h : Header) : h.encode.size = headerSize := by
  have hm : magic.size = 16 := by decide +kernel
  simp [encode, ByteArray.size_append, hm, headerSize]

private theorem toList_encode (h : Header) : h.encode.data.toList =
    magic.data.toList ++ (leBytes 2 h.pageSize.toNat ++ (List.replicate 18 0 ++
      (leBytes 4 h.freeOffset.toNat ++ List.replicate 60 0))) := by
  simp [encode, zeros, ByteArray.data_append]

theorem decode_encode {h : Header} (hs : h.pageSize.toNat = PagedTree.pageSize)
    (hc : onBoundary h.freeOffset.toNat) : decode h.encode = .ok h := by
  have hm : magic.size = 16 := by decide +kernel
  have hlen : magic.data.toList.length = 16 := by simpa using hm
  have hmagic : h.encode.extract 0 16 = magic := by
    rw [encode, ByteArray.append_assoc, ByteArray.append_assoc, ByteArray.append_assoc]
    exact ByteArray.extract_append_eq_left hm.symm
  have hsize : word 2 h.encode 16 = h.pageSize.toNat := by
    have hlt := h.pageSize.toNat_lt
    rw [word_eq, toList_encode, List.drop_left' hlen, List.take_left' (by simp), leNat_leBytes]
    exact Nat.mod_eq_of_lt hlt
  have hcursor : word 4 h.encode 36 = h.freeOffset.toNat := by
    have hlt := h.freeOffset.toNat_lt
    have hdrop : h.encode.data.toList.drop 36 =
        leBytes 4 h.freeOffset.toNat ++ List.replicate 60 0 := by
      rw [toList_encode, ← List.append_assoc, ← List.append_assoc]
      exact List.drop_left' (by simp [hlen])
    rw [word_eq, hdrop, List.take_left' (by simp), leNat_leBytes]
    exact Nat.mod_eq_of_lt hlt
  unfold decode
  dsimp only
  rw [size_encode, hmagic, hsize, hcursor, if_neg (by decide), if_neg (by simp), if_neg (by simp [hs]),
    if_neg (by simpa using hc)]
  simp

end Header

end PagedTree
