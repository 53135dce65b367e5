import PagedTree.Proofs.PageLayout

/-! # Reading under watch

The decoder once more, with a watch on every byte that it takes: if one is not there the reading has no
result at all, not even an error. It has a result on every buffer, and it is that of the decoder.
-/
namespace PagedTree

/-- A reading of bytes that has no result at all if it takes some that are not there. -/
abbrev Watched (α : Type) := ExceptT PageFault Option α

namespace Watched

variable {α β : Type} {b : ByteArray}

/-- A reading that takes no bytes. -/
def lift (r : Except PageFault α) : Watched α := ExceptT.mk (some r)

/-- The `len` bytes from `pos` on. -/
def take (b : ByteArray) (pos len : Nat) : Watched ByteArray :=
  ExceptT.mk (if pos + len ≤ b.size then some (.ok (b.extract pos (pos + len))) else none)

def word (k : Nat) (b : ByteArray) (pos : Nat) : Watched Nat := do
  return leNat (← take b pos k).data.toList

def field (bits : Nat) (b : ByteArray) (pos : Nat) : Watched Nat :=
  if pos + bits / 8 ≤ b.size then word (bits / 8) b pos else throw (.noWord bits pos)

def header (b : ByteArray) : Watched (Option NodeHeader) := do
  let table ← field 16 b 7
  if table = 0 then
    return none
  let byte ← word 1 b 0
  match NodeKind.ofByte? byte with
  | none => throw (.nodeKind byte)
  | some kind =>
    let cells ← field 16 b 3
    let content ← field 16 b 5
    let link ← field 64 b 10
    return some ⟨kind, .ofNat cells, .ofNat content, .ofNat table, .ofNat link⟩

def childAt (b : ByteArray) (pos : Nat) : Watched PageNo := do
  lift (Node.pageAt (← field 64 b pos))

def readLeafCell (b : ByteArray) (table i : Nat) : Watched Entry := do
  let start ← field 16 b (table + 2 * i)
  let key ← field 64 b start
  let size ← field 16 b (start + 8)
  if start + 10 + size ≤ b.size then
    return ⟨.ofNat key, ← take b (start + 10) size⟩
  else throw (.cellPastEnd i)

def readBranchCell (b : ByteArray) (table i : Nat) : Watched (UInt64 × PageNo) := do
  let start ← field 16 b (table + 2 * i)
  let key ← field 64 b start
  return (.ofNat key, ← childAt b (start + 8))

def readLastChild (b : ByteArray) (table : Nat) : Nat → Watched PageNo
  | 0 => do childAt b (← field 16 b (table + 2 * 0))
  | last + 1 => do
    let start ← field 16 b (table + 2 * last)
    if start < 8 then throw .trailingChild
    childAt b (start - 8)

def readLeaf (b : ByteArray) (h : NodeHeader) : Watched Leaf := do
  let entries ← (List.range h.cells.toNat).mapM (readLeafCell b h.table.toNat)
  if h.link = 0 then
    return ⟨entries, none⟩
  else
    return ⟨entries, some (← lift (Node.pageAt h.link.toNat))⟩

def readBranch (b : ByteArray) (h : NodeHeader) : Watched (Branch PageNo) := do
  let cells ← (List.range h.cells.toNat).mapM (readBranchCell b h.table.toNat)
  let last ← readLastChild b h.table.toNat h.cells.toNat
  return ⟨cells.map Prod.fst, cells.map Prod.snd ++ [last]⟩

def read (b : ByteArray) : Watched Node := do
  match ← header b with
  | none => return .leaf .empty
  | some h =>
    match h.kind with
    | .leaf => return .leaf (← readLeaf b h)
    | .branch => return .branch (← readBranch b h)

/-- Decodes a buffer; without a result, the watch has struck. -/
def decode (p : PageNo) (b : ByteArray) : Option (Except StoreError Node) :=
  match Node.checkBuffer p b with
  | .error e => some (.error e)
  | .ok () => (read b).run.map fun
    | .ok n => .ok n
    | .error fault => .error (.corruptPage p fault)

theorem bind_eq {x : Watched α} {g : α → Watched β} {r : Except PageFault α}
    {f : α → Except PageFault β} (hx : x = lift r) (hf : ∀ a, r = .ok a → g a = lift (f a)) :
    x >>= g = lift (r >>= f) := by
  subst hx
  cases r with
  | error e => rfl
  | ok a => exact hf a rfl

theorem lift_ok_bind (a : α) (g : α → Watched β) : lift (.ok a) >>= g = g a := rfl

theorem mapM_eq {g : α → Watched β} {f : α → Except PageFault β} (h : ∀ a, g a = lift (f a))
    (xs : List α) : xs.mapM g = lift (xs.mapM f) := by
  induction xs with
  | nil => rfl
  | cons x xs ih =>
    rw [List.mapM_cons, List.mapM_cons]
    exact bind_eq (h x) fun y _ => bind_eq ih fun ys _ => rfl

theorem take_eq {pos len : Nat} (h : pos + len ≤ b.size) :
    take b pos len = lift (.ok (b.extract pos (pos + len))) := by
  rw [take, if_pos h]
  rfl

theorem word_eq {k pos : Nat} (h : pos + k ≤ b.size) :
    word k b pos = lift (.ok (PagedTree.word k b pos)) := by
  rw [word, take_eq h]
  rfl

theorem field_eq (bits pos : Nat) : field bits b pos = lift (PagedTree.field bits b pos) := by
  by_cases h : pos + bits / 8 ≤ b.size
  · rw [field, if_pos h, word_eq h, PagedTree.field_eq h]
  · rw [field, if_neg h, PagedTree.field, word?, if_neg h]
    rfl

theorem header_eq : header b = lift (NodeHeader.decode b) := by
  refine bind_eq (field_eq 16 7) fun table htable => ?_
  by_cases hzero : table = 0
  · rw [if_pos hzero, if_pos hzero]
    rfl
  · -- the byte of the kind lies in front of the word that has been read
    have hsize := (word?_eq_some.1 (field_ok_iff.1 htable)).1
    rw [if_neg hzero, if_neg hzero, word_eq (by omega), lift_ok_bind]
    dsimp only
    cases NodeKind.ofByte? (PagedTree.word 1 b 0) with
    | none => rfl
    | some kind =>
      exact bind_eq (field_eq 16 3) fun _ _ => bind_eq (field_eq 16 5) fun _ _ =>
        bind_eq (field_eq 64 10) fun _ _ => rfl

theorem childAt_eq (pos : Nat) : childAt b pos = lift (Node.childAt b pos) :=
  bind_eq (field_eq 64 pos) fun _ _ => rfl

theorem readLeafCell_eq (table i : Nat) :
    readLeafCell b table i = lift (Node.readLeafCell b table i) := by
  refine bind_eq (field_eq 16 _) fun start _ => bind_eq (field_eq 64 start) fun key _ =>
    bind_eq (field_eq 16 _) fun size _ => ?_
  by_cases hend : start + 10 + size ≤ b.size
  · rw [if_pos hend, if_pos hend, take_eq hend]
    rfl
  · rw [if_neg hend, if_neg hend]
    rfl

theorem readBranchCell_eq (table i : Nat) :
    readBranchCell b table i = lift (Node.readBranchCell b table i) :=
  bind_eq (field_eq 16 _) fun start _ => bind_eq (field_eq 64 start) fun _ _ =>
    bind_eq (childAt_eq _) fun _ _ => rfl

theorem readLastChild_eq (table n : Nat) :
    readLastChild b table n = lift (Node.readLastChild b table n) := by
  cases n with
  | zero => exact bind_eq (field_eq 16 _) fun start _ => childAt_eq start
  | succ last =>
    refine bind_eq (field_eq 16 _) fun start _ => ?_
    by_cases hlow : start < 8
    · rw [if_pos hlow, if_pos hlow]
      rfl
    · rw [if_neg hlow, if_neg hlow]
      exact childAt_eq _

theorem readLeaf_eq (h : NodeHeader) : readLeaf b h = lift (Node.readLeaf b h) := by
  refine bind_eq (mapM_eq (readLeafCell_eq _) _) fun entries _ => ?_
  by_cases hlink : h.link = 0
  · rw [if_pos hlink, if_pos hlink]
    rfl
  · rw [if_neg hlink, if_neg hlink]
    exact bind_eq rfl fun _ _ => rfl

theorem readBranch_eq (h : NodeHeader) : readBranch b h = lift (Node.readBranch b h) :=
  bind_eq (mapM_eq (readBranchCell_eq _) _) fun _ _ => bind_eq (readLastChild_eq _ _) fun _ _ => rfl

theorem read_eq : read b = lift (Node.read b) := by
  refine bind_eq header_eq fun header _ => ?_
  cases header with
  | none => rfl
  | some h =>
    cases hkind : h.kind with
    | leaf =>
      simp only [hkind]
      exact bind_eq (readLeaf_eq h) fun _ _ => rfl
    | branch =>
      simp only [hkind]
      exact bind_eq (readBranch_eq h) fun _ _ => rfl

/-- No buffer makes the decoder take a byte that is not there. -/
theorem decode_eq (p : PageNo) (b : ByteArray) : decode p b = some (Node.decode p b) := by
  rw [decode, Node.decode]
  cases Node.checkBuffer p b with
  | error e => rfl
  | ok _ =>
    rw [read_eq]
    cases Node.read b <;> rfl

end Watched

end PagedTree
