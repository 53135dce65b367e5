import PagedTree.Bytes

/-! # Files with holes

A file is a size and the runs of bytes written to it, newest first; a byte that no run covers is
zero. So a page near the end of a 4 GiB file costs one run, and writing, cutting and reading are
stated on one view, the byte at each position.
-/
namespace PagedTree

structure Run where
  offset : Nat
  bytes : ByteArray

namespace Run

def stop (r : Run) : Nat := r.offset + r.bytes.size

def covers (r : Run) (i : Nat) : Bool := decide (r.offset ≤ i ∧ i < r.stop)

def byteAt (r : Run) (i : Nat) : UInt8 := r.bytes.data.getD (i - r.offset) 0

/-- The part of the run below `size`, if there is one; `SparseFile.setSize` keeps it. -/
def cut (size : Nat) (r : Run) : Option Run :=
  if r.offset < size then some ⟨r.offset, r.bytes.extract 0 (size - r.offset)⟩ else none

/-- Copies what the run holds of the bytes from `pos` on into `b`. -/
def paint (pos : Nat) (r : Run) (b : ByteArray) : ByteArray :=
  let lo := max pos r.offset
  let hi := min (pos + b.size) r.stop
  if lo < hi then
    overwrite b (lo - pos) (r.bytes.extract (lo - r.offset) (hi - r.offset))
  else b

end Run

structure SparseFile where
  size : Nat
  runs : List Run

namespace SparseFile

def empty : SparseFile := ⟨0, []⟩

def byteAt (f : SparseFile) (i : Nat) : UInt8 :=
  match f.runs.find? (·.covers i) with
  | some r => r.byteAt i
  | none => 0

/-- Writes `b` from `pos` on; runs that `b` hides completely are dropped. -/
def write (f : SparseFile) (pos : Nat) (b : ByteArray) : SparseFile :=
  if b.isEmpty then f else
    let run : Run := ⟨pos, b⟩
    { size := max f.size run.stop
      runs := run :: f.runs.filter fun r => ¬(pos ≤ r.offset ∧ r.stop ≤ run.stop) }

/-- `len` bytes from `pos` on, zero past the end of the file. -/
def read (f : SparseFile) (pos len : Nat) : ByteArray :=
  f.runs.foldr (·.paint pos) (zeros len)

/-- Cuts the file off at `size`, or extends it by a hole. No call of a store does that: it is what
another program may do to a file before a store opens it, and only trial runs on damaged files make
use of it. -/
def setSize (f : SparseFile) (size : Nat) : SparseFile :=
  ⟨size, f.runs.filterMap (·.cut size)⟩

def ofBytes (b : ByteArray) : SparseFile := empty.write 0 b

def toBytes (f : SparseFile) : ByteArray := f.read 0 f.size

theorem byteAt_write (f : SparseFile) (pos : Nat) (b : ByteArray) (i : Nat) :
    (f.write pos b).byteAt i =
      if pos ≤ i ∧ i < pos + b.size then b.data.getD (i - pos) 0 else f.byteAt i := by
  unfold write
  split
  case isTrue he =>
    have hz : b.size = 0 := by simpa [ByteArray.isEmpty] using he
    rw [if_neg (by omega)]
  case isFalse =>
    by_cases hi : pos ≤ i ∧ i < pos + b.size
    · simp [byteAt, Run.covers, Run.stop, Run.byteAt, hi]
    · have hnew : Run.covers ⟨pos, b⟩ i = false := by
        exact decide_eq_false hi
      have hold : (f.runs.filter fun r => ¬(pos ≤ r.offset ∧ r.stop ≤ pos + b.size)).find?
          (·.covers i) = f.runs.find? (·.covers i) := by
        rw [List.find?_filter]
        congr 1
        funext r
        by_cases hr : r.covers i
        · have hin := of_decide_eq_true hr
          have hkeep : ¬(pos ≤ r.offset ∧ r.stop ≤ pos + b.size) := by omega
          simp [hr, hkeep]
        · simp [hr]
      rw [if_neg hi]
      simp only [byteAt, List.find?_cons, hnew]
      exact congrArg (fun o : Option Run => match o with | some r => r.byteAt i | none => 0) hold

theorem size_write {f : SparseFile} {pos : Nat} {b : ByteArray} (hb : b.size ≠ 0) :
    (f.write pos b).size = max f.size (pos + b.size) := by
  simp [write, ByteArray.isEmpty, hb, Run.stop]

theorem size_paint (pos : Nat) (r : Run) (b : ByteArray) : (r.paint pos b).size = b.size := by
  unfold Run.paint
  dsimp only
  split
  · apply size_overwrite
    simp only [ByteArray.size_extract, Run.stop] at *
    omega
  · rfl

@[simp] theorem size_read (f : SparseFile) (pos len : Nat) : (f.read pos len).size = len := by
  unfold read
  induction f.runs with
  | nil => simp
  | cons r rs ih => rw [List.foldr_cons, size_paint, ih]

theorem getElem?_paint (pos : Nat) (r : Run) (b : ByteArray) (i : Nat) (h : i < b.size) :
    (r.paint pos b).data.toList[i]? =
      if r.covers (pos + i) then some (r.byteAt (pos + i)) else b.data.toList[i]? := by
  unfold Run.paint
  dsimp only
  split
  case isTrue hne =>
    have hend : max pos r.offset - pos + (r.bytes.extract (max pos r.offset - r.offset)
        (min (pos + b.size) r.stop - r.offset)).size = min (pos + b.size) r.stop - pos := by
      simp only [ByteArray.size_extract, Run.stop] at *
      omega
    rw [getElem?_overwrite (by omega), hend]
    by_cases hc : r.offset ≤ pos + i ∧ pos + i < r.stop
    · have hlt : pos + i - r.offset < r.bytes.data.size := by
        simp only [Run.stop, ByteArray.size_data] at *
        omega
      rw [if_pos (by omega), if_pos (by simpa [Run.covers] using hc)]
      have hidx : max pos r.offset - r.offset + (i - (max pos r.offset - pos)) =
          pos + i - r.offset := by omega
      simp only [ByteArray.data_extract, Array.getElem?_toList, Array.getElem?_extract, hidx,
        Run.byteAt]
      rw [if_pos (by simp only [Run.stop, ByteArray.size_data] at *; omega)]
      rw [Array.getElem?_eq_getElem hlt, Array.getD, dif_pos hlt]
      rfl
    · rw [if_neg (by omega), if_neg (by simpa [Run.covers] using hc)]
  case isFalse he =>
    rw [if_neg]
    simp only [Run.covers, decide_eq_true_eq]
    omega

theorem getElem?_read (f : SparseFile) (pos len i : Nat) (h : i < len) :
    (f.read pos len).data.toList[i]? = some (f.byteAt (pos + i)) := by
  unfold read byteAt
  induction f.runs with
  | nil => simp [zeros, h]
  | cons r rs ih =>
    have hrs : (rs.foldr (·.paint pos) (zeros len)).size = len :=
      size_read ⟨0, rs⟩ pos len
    rw [List.foldr_cons, getElem?_paint _ _ _ _ (by omega), List.find?_cons]
    cases hc : r.covers (pos + i) with
    | true => simp
    | false => simpa using ih

end SparseFile

end PagedTree
