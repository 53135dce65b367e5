import PagedTree.PageStore.Place

/-! # Leaves

A leaf holds entries in key order and the number of the next leaf. A new entry goes in front of
those with its key, so that among equal keys the newest comes first. A leaf that has grown full
splits between two different keys if it holds two.
-/
namespace PagedTree

/-- A node splits when it holds this many keys. -/
def order : Nat := 4

structure Entry where
  key : UInt64
  value : ByteArray

structure Leaf where
  entries : List Entry
  next : Option PageNo

namespace Leaf

def empty : Leaf := ⟨[], none⟩

def keys (l : Leaf) : List UInt64 := l.entries.map Entry.key

def isFull (l : Leaf) : Bool := order ≤ l.entries.length

def insert (l : Leaf) (e : Entry) : Leaf :=
  { l with entries := l.entries.takeWhile (·.key < e.key) ++
      e :: l.entries.dropWhile (·.key < e.key) }

def get? (l : Leaf) (key : UInt64) : Option ByteArray :=
  (l.entries.find? (·.key == key)).map Entry.value

/-- Takes out the first entry with the key. -/
def erase (l : Leaf) (key : UInt64) : Leaf :=
  { l with entries := l.entries.eraseP (·.key == key) }

/-- Where a leaf splits: in the middle if two different keys meet there, and otherwise at the start
of the run of equal keys around the middle, also where its end is nearer, or at its end if it starts
with the leaf. A leaf of one key splits in the middle, and one of fewer than two entries nowhere. -/
def breakPoint? (keys : List UInt64) : Option Nat :=
  let mid := keys.length / 2
  let before := (keys.take mid).reverse
  let after := keys.drop mid
  match before, after with
  | last :: _, key :: _ =>
    let start := mid - (before.takeWhile (· == key)).length
    let stop := mid + (after.takeWhile (· == key)).length
    some <|
      if last ≠ key then mid
      else if 0 < start then start
      else if stop < keys.length then stop
      else mid
  | _, _ => none

/-- The left half, which links to page `right`, the first key of the right half, and the right
half. -/
def split? (l : Leaf) (right : PageNo) : Option (Leaf × UInt64 × Leaf) := do
  let point ← breakPoint? l.keys
  match l.entries.drop point with
  | [] => none
  | e :: es => some (⟨l.entries.take point, some right⟩, e.key, ⟨e :: es, l.next⟩)

theorem entries_insert (l : Leaf) (e : Entry) :
    (l.insert e).entries.Perm (e :: l.entries) := by
  unfold insert
  dsimp only
  refine List.perm_middle.trans ?_
  rw [List.takeWhile_append_dropWhile]

theorem entries_split? {l a b : Leaf} {right : PageNo} {key : UInt64}
    (h : l.split? right = some (a, key, b)) :
    a.entries ++ b.entries = l.entries ∧ a.next = some right ∧ b.next = l.next ∧
      b.keys.head? = some key := by
  unfold split? at h
  obtain ⟨point, _, h⟩ := Option.bind_eq_some_iff.1 h
  split at h
  case h_1 => exact absurd h (by simp)
  case h_2 e es he =>
    obtain ⟨rfl, rfl, rfl⟩ : _ ∧ _ ∧ _ := by simpa using h
    refine ⟨?_, rfl, rfl, rfl⟩
    rw [← he]
    exact List.take_append_drop point l.entries

end Leaf

end PagedTree
