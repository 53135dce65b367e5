import PagedTree.Proofs.LeafChain

/-! # Trees that stand on a file

Between two calls a tree has a node of its own on each of its pages, keys in order, nodes that are
not full, and a chain of links through its leaves. Its scan then shows its entries.
-/
namespace PagedTree

namespace NodeOf

variable {Child : Type}

/-- A node that is not full, as nodes are between two calls. -/
def WithinOrder : NodeOf Child → Prop
  | .leaf l => l.entries.length < order ∧ ∀ e ∈ l.entries, e.value.size ≤ Tree.maxValueSize
  | .branch b => b.Shaped ∧ b.keys.length < order

theorem WithinOrder.no_entries (next : Option PageNo) : WithinOrder (.leaf ⟨[], next⟩ : Node) :=
  ⟨by simp [order], by simp⟩

/-- A page has room for a node that is not full. -/
theorem WithinOrder.fitsPage {n : Node} (h : n.WithinOrder) : Node.FitsPage n := by
  cases n with
  | leaf l =>
    obtain ⟨hlen, hsize⟩ := h
    have htotal : ∀ es : List Entry, (∀ e ∈ es, e.value.size ≤ Tree.maxValueSize) →
        Draft.total (es.map fun e => Node.leafCell e.key e.value) ≤
          es.length * (Tree.maxValueSize + 10) := by
      intro es hes
      induction es with
      | nil => simp
      | cons e es ih =>
        have he := hes e List.mem_cons_self
        have hrest := ih fun x hx => hes x (List.mem_cons_of_mem _ hx)
        simp only [List.map_cons, Draft.total_cons, Node.size_leafCell, List.length_cons, Nat.succ_mul]
        omega
    have hmost : l.entries.length * (Tree.maxValueSize + 10) ≤
        (order - 1) * (Tree.maxValueSize + 10) := Nat.mul_le_mul_right _ (by omega)
    have hall := htotal l.entries hsize
    have hroom : NodeHeader.tableStart + (order - 1) * 2 +
        (order - 1) * (Tree.maxValueSize + 10) ≤ pageSize := by decide
    simp only [Node.FitsPage, Draft.Fits, List.length_map]
    omega
  | branch b =>
    obtain ⟨hshape, hlen⟩ := h
    refine ⟨hshape, ?_⟩
    have hroom : NodeHeader.tableStart + 18 * order ≤ pageSize := by decide
    unfold Branch.Shaped at hshape
    omega

end NodeOf

theorem length_flatMap_le {α β : Type} {f : α → List β} {xs : List α} {n : Nat}
    (h : ∀ x ∈ xs, (f x).length ≤ n) : (xs.flatMap f).length ≤ xs.length * n := by
  induction xs with
  | nil => simp
  | cons x xs ih =>
    have hx := h x List.mem_cons_self
    have hrest := ih fun y hy => h y (List.mem_cons_of_mem _ hy)
    rw [List.flatMap_cons, List.length_append, List.length_cons, Nat.succ_mul]
    omega

/-- The largest key there is. -/
def topKey : UInt64 := .ofNat (UInt64.size - 1)

theorem le_topKey (k : UInt64) : k ≤ topKey := by
  have hk := k.toNat_lt
  have htop : topKey.toNat = UInt64.size - 1 := rfl
  rw [UInt64.le_iff_toNat_le, htop]
  exact Nat.le_pred_of_lt hk

namespace Shape

/-- Each node of the shape is not full. -/
def Small (s : Shape) : Prop := ∀ t ∈ s.parts, t.node.WithinOrder

section
variable {p : PageNo} {l : Leaf} {keys : List UInt64} {kids : List Shape}

@[simp] theorem small_leaf : (leaf p l).Small ↔
    l.entries.length < order ∧ ∀ e ∈ l.entries, e.value.size ≤ Tree.maxValueSize := by
  simp [Small, node, NodeOf.WithinOrder]

@[simp] theorem small_branch : (branch p keys kids).Small ↔
    (kids.length = keys.length + 1 ∧ keys.length < order) ∧ ∀ c ∈ kids, c.Small := by
  refine forall_mem_parts_branch.trans (and_congr_left' ?_)
  simp [node, NodeOf.WithinOrder, Branch.Shaped]

end

theorem Small.fitsPage {s : Shape} (h : s.Small) : Node.FitsPage s.node :=
  (h s s.self_mem_parts).fitsPage

theorem Small.branch_part {s : Shape} {p : PageNo} {keys : List UInt64} {kids : List Shape}
    (h : s.Small) (hpart : branch p keys kids ∈ s.parts) :
    kids.length = keys.length + 1 ∧ keys.length ≤ order - 1 := by
  obtain ⟨hshape, hlen⟩ := h _ hpart
  exact ⟨by simpa [Branch.Shaped] using hshape, Nat.le_pred_of_lt hlen⟩

theorem Small.leaf_part {s : Shape} {p : PageNo} {l : Leaf} (h : s.Small)
    (hpart : leaf p l ∈ s.parts) : l.entries.length ≤ order - 1 := Nat.le_pred_of_lt (h _ hpart).1

/-- No leaf is full, so there are leaves enough for all entries. -/
theorem Small.length_entries_le {s : Shape} (h : s.Small) :
    s.entries.length ≤ (order - 1) * s.leaves.length := by
  rw [Nat.mul_comm]
  exact length_flatMap_le fun x hx => h.leaf_part (mem_parts_of_mem_leaves hx)

theorem Small.lt_length_leaves {s : Shape} {n : Nat} (h : s.Small)
    (hmany : (order - 1) * n < s.entries.length) : n < s.leaves.length :=
  Nat.lt_of_mul_lt_mul_left (Nat.lt_of_lt_of_le hmany h.length_entries_le)

/-- A tree stands on a file as calls that come to their end leave it. -/
structure Stands (s : Shape) (P : Pages) : Prop where
  on : s.On P
  distinct : s.pages.Nodup
  ordered : s.Ordered 0 topKey
  small : s.Small
  chained : Chained P s.leaves

theorem Ordered.leftmost {s : Shape} {lo hi : UInt64} (h : s.Ordered lo hi) {P : Pages}
    (hon : s.On P) : ∃ d x ls, s.leaves = x :: ls ∧ Leftmost P d s.page x.1 := by
  induction s using induct generalizing lo hi with
  | leaf p l => exact ⟨0, (p, l), [], leaves_leaf, .leaf (on_leaf.1 hon)⟩
  | branch p keys kids ih =>
    rw [ordered_branch] at h
    obtain ⟨htop, hkids⟩ := on_branch.1 hon
    cases kids with
    | nil => simp at h
    | cons c kids =>
      obtain ⟨b, hc⟩ := h.head
      obtain ⟨d, x, ls, hls, hdown⟩ := ih c List.mem_cons_self hc (hkids c List.mem_cons_self)
      refine ⟨d + 1, x, ls ++ kids.flatMap leaves, ?_, .branch htop rfl hdown⟩
      rw [leaves_branch, List.flatMap_cons, hls, List.cons_append]

theorem entries_eq (s : Shape) : s.entries = s.leaves.flatMap (·.2.entries) := rfl

/-- The scan of a tree shows its entries. -/
theorem Stands.scans {s : Shape} {P : Pages} (h : s.Stands P) : Scans P s.page s.entries := by
  obtain ⟨d, x, ls, hls, hdown⟩ := h.ordered.leftmost h.on
  rw [entries_eq]
  exact h.chained.scans hdown (by rw [hls]; rfl)

theorem Stands.distinct_append {s : Shape} {P : Pages} (h : s.Stands P) {fs : List PageNo}
    (hfs : ∀ f ∈ fs, P f = none) (hd : fs.Nodup) : (s.pages ++ fs).Nodup := by
  refine List.nodup_append.2 ⟨h.distinct, hd, ?_⟩
  rintro q hq f hf rfl
  obtain ⟨t, ht, rfl⟩ := List.mem_map.1 hq
  simpa [h.on t ht] using hfs _ hf

theorem Stands.mono {s : Shape} {P Q : Pages} (h : s.Stands P) (hPQ : P.Within Q) : s.Stands Q :=
  ⟨h.on.mono fun q _ => hPQ q, h.distinct, h.ordered, h.small, h.chained.mono fun p _ => hPQ p _⟩

end Shape

end PagedTree
