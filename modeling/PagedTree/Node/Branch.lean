import PagedTree.Node.Leaf

/-! # Branches

A branch has one more child than separators, and every change keeps it so. A key that equals a
separator is routed to the right of it, yet copies of it may lie on both sides, so a search has a
range of slots. The operations that change a branch are undefined where a slot is out of range.
What stands for a child is left open: on a page it is a page number, in memory it may be a node.
-/
namespace PagedTree

structure Branch (Child : Type) where
  keys : List UInt64
  children : List Child
  deriving DecidableEq

namespace Branch

variable {Child Other : Type}

def isFull (b : Branch Child) : Bool := order ≤ b.keys.length

/-- The slot of the child that a new entry with the key goes to. -/
def slotOf (b : Branch Child) (key : UInt64) : Nat := (b.keys.takeWhile (· ≤ key)).length

/-- The slots of the children that may hold the key, from right to left. -/
def slotsFor (b : Branch Child) (key : UInt64) : List Nat :=
  let first := (b.keys.takeWhile (· < key)).length
  (List.range' first (b.slotOf key + 1 - first)).reverse

/-- Puts the halves of the child in `slot`, which has been split at `key`, in its place. -/
def absorb? (b : Branch Child) (slot : Nat) (left : Child) (key : UInt64) (right : Child) :
    Option (Branch Child) :=
  if slot ≤ b.keys.length ∧ slot < b.children.length then
    some ⟨b.keys.insertIdx slot key, (b.children.set slot left).insertIdx (slot + 1) right⟩
  else none

/-- The two halves around the middle separator, which belongs to neither. -/
def split? (b : Branch Child) : Option (Branch Child × UInt64 × Branch Child) :=
  let mid := b.keys.length / 2
  match b.keys.drop mid with
  | [] => none
  | key :: rest =>
    if mid + 1 ≤ b.children.length then
      some (⟨b.keys.take mid, b.children.take (mid + 1)⟩, key, ⟨rest, b.children.drop (mid + 1)⟩)
    else none

/-- Drops the child in `slot` with the separator on its right, or the one on its left if it is
the last child. -/
def unlink? (b : Branch Child) (slot : Nat) : Option (Branch Child) :=
  let sep := if slot < b.keys.length then slot else slot - 1
  if sep < b.keys.length ∧ slot < b.children.length then
    some ⟨b.keys.eraseIdx sep, b.children.eraseIdx slot⟩
  else none

def replace? (b : Branch Child) (slot : Nat) (child : Child) : Option (Branch Child) :=
  if slot < b.children.length then some { b with children := b.children.set slot child } else none

def map (f : Child → Other) (b : Branch Child) : Branch Other := ⟨b.keys, b.children.map f⟩

/-- A branch with one more child than separators. -/
def Shaped (b : Branch Child) : Prop := b.children.length = b.keys.length + 1

theorem slotOf_le (b : Branch Child) (key : UInt64) : b.slotOf key ≤ b.keys.length :=
  (List.takeWhile_sublist _).length_le

theorem Shaped.absorb? {b : Branch Child} (h : b.Shaped) {slot : Nat} (hs : slot ≤ b.keys.length)
    (left : Child) (key : UInt64) (right : Child) :
    ∃ c, b.absorb? slot left key right = some c ∧ c.Shaped := by
  unfold Shaped at h
  refine ⟨_, if_pos ⟨hs, by omega⟩, ?_⟩
  simp only [Shaped, List.length_insertIdx, List.length_set]
  rw [if_pos (by omega), if_pos hs, h]

theorem Shaped.split? {b : Branch Child} (h : b.Shaped) (hk : b.keys ≠ []) :
    ∃ l key r, b.split? = some (l, key, r) ∧ l.Shaped ∧ r.Shaped ∧
      l.keys ++ key :: r.keys = b.keys ∧ l.children ++ r.children = b.children := by
  unfold Shaped at h
  have hpos : 0 < b.keys.length := List.length_pos_iff.2 hk
  unfold Branch.split?
  dsimp only
  split
  case h_1 hnil =>
    have hlen := List.drop_eq_nil_iff.1 hnil
    omega
  case h_2 key rest hcons =>
    have hrest := congrArg List.length hcons
    simp only [List.length_drop, List.length_cons] at hrest
    refine ⟨_, _, _, if_pos (by omega), ?_, ?_, ?_, List.take_append_drop _ _⟩
    · simp only [Shaped, List.length_take]
      omega
    · simp only [Shaped, List.length_drop]
      omega
    · simp only [← hcons, List.take_append_drop]

theorem Shaped.unlink? {b : Branch Child} (h : b.Shaped) (hk : b.keys ≠ []) {slot : Nat}
    (hs : slot < b.children.length) : ∃ c, b.unlink? slot = some c ∧ c.Shaped := by
  unfold Shaped at h
  have hpos : 0 < b.keys.length := List.length_pos_iff.2 hk
  have hsep : (if slot < b.keys.length then slot else slot - 1) < b.keys.length := by
    split <;> omega
  refine ⟨_, if_pos ⟨hsep, hs⟩, ?_⟩
  simp only [Shaped, List.length_eraseIdx_of_lt hs, List.length_eraseIdx_of_lt hsep]
  omega

theorem Shaped.replace? {b : Branch Child} (h : b.Shaped) {slot : Nat} (hs : slot < b.children.length)
    (child : Child) : ∃ c, b.replace? slot child = some c ∧ c.Shaped :=
  ⟨_, if_pos hs, by simpa [Shaped] using h⟩

end Branch

/-- A node over what stands for a child. -/
inductive NodeOf (Child : Type) where
  | leaf (l : Leaf)
  | branch (b : Branch Child)

/-- A node as it is on a page. -/
abbrev Node := NodeOf PageNo

namespace NodeOf

variable {Child Other : Type}

def map (f : Child → Other) : NodeOf Child → NodeOf Other
  | .leaf l => .leaf l
  | .branch b => .branch (b.map f)

/-- Puts a child into a slot, if the node has that slot. -/
def setChild (n : NodeOf Child) (slot : Nat) (child : Child) : NodeOf Child :=
  match n with
  | .leaf l => .leaf l
  | .branch b => .branch { b with children := b.children.set slot child }

end NodeOf

end PagedTree
