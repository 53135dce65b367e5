import PagedTree.Node.Decode
import PagedTree.Proofs.Calls

/-! # What lies where on a page

Cells that are laid one after the other tile the end of the page, and the table holds where each
of them starts. Reading goes through the bytes behind a position, so a header that is stamped in
front of the table changes nothing that is read from the table on.
-/
namespace PagedTree

theorem size_putWord {k pos : Nat} {b : ByteArray} (n : Nat) (h : pos + k ≤ b.size) :
    (putWord k b pos n).size = b.size := size_overwrite (by simpa using h)

theorem drop_putWord {k pos m : Nat} {b : ByteArray} (n : Nat) (hm : pos + k ≤ m)
    (hb : pos + k ≤ b.size) : (putWord k b pos n).data.toList.drop m = b.data.toList.drop m := by
  have hs : b.size = b.data.toList.length := by simp
  have hlen : (b.data.toList.take pos ++ (leBytes k n).toByteArray.data.toList).length = pos + k := by
    rw [List.length_append, List.length_take]
    simp
    omega
  rw [putWord, toList_overwrite, List.drop_append, List.drop_eq_nil_of_le (by omega), hlen,
    List.drop_drop]
  simp
  congr 1
  omega

/-- A word can be read where its bytes stand. -/
theorem field_of_drop {bits k pos n : Nat} {b : ByteArray} {rest : List UInt8} (hk : bits / 8 = k)
    (hpos : 0 < k) (hn : n < Nat.pow 256 k) (h : b.data.toList.drop pos = leBytes k n ++ rest) :
    field bits b pos = .ok n := by
  have hlen := congrArg List.length h
  simp only [List.length_drop, List.length_append, length_leBytes, Array.length_toList,
    ByteArray.size_data] at hlen
  have hfit : pos + k ≤ b.size := by omega
  have hword : word k b pos = n := by
    rw [word_eq, h, List.take_left' (length_leBytes k n), leNat_leBytes]
    exact Nat.mod_eq_of_lt hn
  simp [field, word?, hk, hfit, hword]

theorem field_eq {bits pos : Nat} {b : ByteArray} (h : pos + bits / 8 ≤ b.size) :
    field bits b pos = .ok (word (bits / 8) b pos) := by
  simp [field, word?, h]

theorem word?_eq_some {k pos n : Nat} {b : ByteArray} :
    word? k b pos = some n ↔ pos + k ≤ b.size ∧ word k b pos = n := by
  rw [word?, Option.ite_none_right_eq_some, Option.some_inj]

theorem word?_lt {k pos n : Nat} {b : ByteArray} (h : word? k b pos = some n) : n < Nat.pow 256 k :=
  (word?_eq_some.1 h).2 ▸ word_lt k b pos

theorem field_ok_iff {bits pos n : Nat} {b : ByteArray} :
    field bits b pos = .ok n ↔ word? (bits / 8) b pos = some n := by
  unfold field
  split <;> simp_all

/-! ## The header of a page -/

theorem NodeKind.ofByte?_eq_some {n : Nat} {kind : NodeKind} : ofByte? n = some kind ↔ n = kind.byte := by
  unfold ofByte?
  split <;> cases kind <;> simp_all [byte]

theorem NodeHeader.stamp?_spec (h : NodeHeader) {b : ByteArray} (hb : NodeHeader.size ≤ b.size)
    (ht : h.table ≠ 0) :
    ∃ c, h.stamp? b = some c ∧ c.size = b.size ∧
      c.data.toList.drop NodeHeader.size = b.data.toList.drop NodeHeader.size ∧
      NodeHeader.decode c = .ok (some h) := by
  simp only [NodeHeader.size] at hb ⊢
  obtain ⟨c₁, hc₁⟩ : ∃ c, c = putWord 1 b 0 h.kind.byte := ⟨_, rfl⟩
  obtain ⟨c₂, hc₂⟩ : ∃ c, c = putWord 2 c₁ 3 h.cells.toNat := ⟨_, rfl⟩
  obtain ⟨c₃, hc₃⟩ : ∃ c, c = putWord 2 c₂ 5 h.content.toNat := ⟨_, rfl⟩
  obtain ⟨c₄, hc₄⟩ : ∃ c, c = putWord 2 c₃ 7 h.table.toNat := ⟨_, rfl⟩
  obtain ⟨c₅, hc₅⟩ : ∃ c, c = putWord 8 c₄ 10 h.link.toNat := ⟨_, rfl⟩
  have hs₁ : c₁.size = b.size := by rw [hc₁, size_putWord _ (by omega)]
  have hs₂ : c₂.size = b.size := by rw [hc₂, size_putWord _ (by omega), hs₁]
  have hs₃ : c₃.size = b.size := by rw [hc₃, size_putWord _ (by omega), hs₂]
  have hs₄ : c₄.size = b.size := by rw [hc₄, size_putWord _ (by omega), hs₃]
  have hs₅ : c₅.size = b.size := by rw [hc₅, size_putWord _ (by omega), hs₄]
  refine ⟨c₅, ?_, hs₅, ?_, ?_⟩
  · rw [NodeHeader.stamp?, if_pos (show NodeHeader.size ≤ b.size from hb), hc₅, hc₄, hc₃, hc₂, hc₁]
  · rw [hc₅, drop_putWord _ (by omega) (by omega), hc₄, drop_putWord _ (by omega) (by omega), hc₃,
      drop_putWord _ (by omega) (by omega), hc₂, drop_putWord _ (by omega) (by omega), hc₁,
      drop_putWord _ (by omega) (by omega)]
  · have hkind : word 1 c₅ 0 = h.kind.byte := by
      rw [hc₅, word_putWord_of_disjoint _ (by omega) (by omega), hc₄,
        word_putWord_of_disjoint _ (by omega) (by omega), hc₃,
        word_putWord_of_disjoint _ (by omega) (by omega), hc₂,
        word_putWord_of_disjoint _ (by omega) (by omega), hc₁, word_putWord _ (by omega)]
      cases h.kind <;> rfl
    have hcells : word 2 c₅ 3 = h.cells.toNat := by
      rw [hc₅, word_putWord_of_disjoint _ (by omega) (by omega), hc₄,
        word_putWord_of_disjoint _ (by omega) (by omega), hc₃,
        word_putWord_of_disjoint _ (by omega) (by omega), hc₂, word_putWord _ (by omega)]
      exact Nat.mod_eq_of_lt h.cells.toNat_lt
    have hcontent : word 2 c₅ 5 = h.content.toNat := by
      rw [hc₅, word_putWord_of_disjoint _ (by omega) (by omega), hc₄,
        word_putWord_of_disjoint _ (by omega) (by omega), hc₃, word_putWord _ (by omega)]
      exact Nat.mod_eq_of_lt h.content.toNat_lt
    have htable : word 2 c₅ 7 = h.table.toNat := by
      rw [hc₅, word_putWord_of_disjoint _ (by omega) (by omega), hc₄, word_putWord _ (by omega)]
      exact Nat.mod_eq_of_lt h.table.toNat_lt
    have hlink : word 8 c₅ 10 = h.link.toNat := by
      rw [hc₅, word_putWord _ (by omega)]
      exact Nat.mod_eq_of_lt h.link.toNat_lt
    have hne : h.table.toNat ≠ 0 := fun h0 => ht (UInt16.toNat_inj.1 h0)
    have hk : NodeKind.ofByte? h.kind.byte = some h.kind := by cases h.kind <;> rfl
    rw [NodeHeader.decode, field_eq (by omega), field_eq (by omega), field_eq (by omega),
      field_eq (by omega)]
    simp only [Nat.reduceDiv, htable, hkind, hcells, hcontent, hlink, hk, bind, Except.bind, pure,
      Except.pure, if_neg hne]
    simp

/-! ## Drafts -/

namespace Draft

def push (d : Draft) (cell : ByteArray) : Draft :=
  ⟨d.content - cell.size, (d.content - cell.size) :: d.table, cell :: d.cells⟩

/-- Lays cells one after the other. -/
def lay (d : Draft) (cells : List ByteArray) : Draft := cells.foldl push d

def total : List ByteArray → Nat
  | [] => 0
  | c :: cs => c.size + total cs

/-- Where cells start that are laid below `top`. -/
def starts : Nat → List ByteArray → List Nat
  | _, [] => []
  | top, c :: cs => (top - c.size) :: starts (top - c.size) cs

@[simp] theorem total_nil : total [] = 0 := rfl

@[simp] theorem total_cons (c : ByteArray) (cs : List ByteArray) :
    total (c :: cs) = c.size + total cs := rfl

@[simp] theorem total_append (cs ds : List ByteArray) : total (cs ++ ds) = total cs + total ds := by
  induction cs with
  | nil => simp
  | cons c cs ih => rw [List.cons_append, total_cons, ih, total_cons, Nat.add_assoc]

@[simp] theorem total_reverse (cs : List ByteArray) : total cs.reverse = total cs := by
  induction cs with
  | nil => rfl
  | cons c cs ih =>
    rw [List.reverse_cons, total_append, ih, total_cons, total_cons, total_nil]
    omega

theorem length_flatMap_bytes (cs : List ByteArray) :
    (cs.flatMap (·.data.toList)).length = total cs := by
  induction cs with
  | nil => rfl
  | cons c cs ih => simp [ih]

theorem content_lay (d : Draft) (cells : List ByteArray) :
    (d.lay cells).content = d.content - total cells := by
  induction cells generalizing d with
  | nil => simp [lay]
  | cons c cs ih =>
    have h : d.lay (c :: cs) = (d.push c).lay cs := rfl
    rw [h, ih, total_cons]
    simp only [push]
    omega

theorem cells_lay (d : Draft) (cells : List ByteArray) :
    (d.lay cells).cells = cells.reverse ++ d.cells := by
  induction cells generalizing d with
  | nil => simp [lay]
  | cons c cs ih =>
    have h : d.lay (c :: cs) = (d.push c).lay cs := rfl
    rw [h, ih, push]
    simp

theorem table_lay (d : Draft) (cells : List ByteArray) :
    (d.lay cells).table.reverse = d.table.reverse ++ starts d.content cells := by
  induction cells generalizing d with
  | nil => simp [lay, starts]
  | cons c cs ih =>
    have h : d.lay (c :: cs) = (d.push c).lay cs := rfl
    rw [h, ih, push]
    simp [starts]

@[simp] theorem length_starts (top : Nat) (cells : List ByteArray) :
    (starts top cells).length = cells.length := by
  induction cells generalizing top with
  | nil => rfl
  | cons c cs ih => simp [starts, ih]

theorem starts_append (top : Nat) (cs ds : List ByteArray) :
    starts top (cs ++ ds) = starts top cs ++ starts (top - total cs) ds := by
  induction cs generalizing top with
  | nil => simp [starts]
  | cons c cs ih =>
    simp only [List.cons_append, starts, ih, total_cons]
    rw [Nat.sub_sub]

theorem toList_page (d : Draft) :
    d.page.data.toList = List.replicate NodeHeader.tableStart 0 ++
      (d.table.reverse.flatMap (leBytes 2) ++
        (List.replicate (d.content - NodeHeader.tableStart -
          (d.table.reverse.flatMap (leBytes 2)).length) 0 ++ d.cells.flatMap (·.data.toList))) := by
  have hfold : ∀ (cs : List ByteArray) (b : ByteArray),
      (cs.foldl (· ++ ·) b).data.toList = b.data.toList ++ cs.flatMap (·.data.toList) := by
    intro cs
    induction cs with
    | nil => simp
    | cons c cs ih => simp [ih, ByteArray.data_append]
  rw [page, hfold]
  simp [ByteArray.data_append, zeros]

theorem length_flatMap_words (ns : List Nat) : (ns.flatMap (leBytes 2)).length = 2 * ns.length := by
  induction ns with
  | nil => rfl
  | cons n ns ih =>
    simp [ih]
    omega

/-- The cells laid onto a blank page, with a table entry for each of them. -/
def Fits (cells : List ByteArray) : Prop :=
  NodeHeader.tableStart + 2 * cells.length + total cells ≤ pageSize

theorem size_page_lay {cells : List ByteArray} (h : Fits cells) :
    (blank.lay cells).page.size = pageSize := by
  unfold Fits at h
  have hlen : (blank.lay cells).page.size = (blank.lay cells).page.data.toList.length := by simp
  rw [hlen, toList_page, table_lay, cells_lay, content_lay]
  simp only [List.length_append, List.length_replicate, length_flatMap_words, length_flatMap_bytes,
    blank, List.reverse_nil, List.nil_append, List.append_nil, length_starts, total_reverse]
  omega

/-- The table entry of a cell, and the cell where the entry says. -/
theorem cell_at {pre post : List ByteArray} {c b : ByteArray} (h : Fits (pre ++ c :: post))
    (hb : b.data.toList.drop NodeHeader.size =
      (blank.lay (pre ++ c :: post)).page.data.toList.drop NodeHeader.size) :
    Node.cellStart b NodeHeader.tableStart pre.length = .ok (pageSize - total (pre ++ [c])) ∧
      ∃ rest, b.data.toList.drop (pageSize - total (pre ++ [c])) = c.data.toList ++ rest := by
  have hfit := h
  unfold Fits at h
  simp only [List.length_append, List.length_cons, total_append, total_cons,
    NodeHeader.tableStart, NodeHeader.size, pageSize] at h
  have hbehind : ∀ m, NodeHeader.size ≤ m → b.data.toList.drop m =
      (blank.lay (pre ++ c :: post)).page.data.toList.drop m := by
    intro m hm
    have hsplit : m = NodeHeader.size + (m - NodeHeader.size) := by omega
    rw [hsplit, ← List.drop_drop, ← List.drop_drop, hb]
  have htable : starts pageSize (pre ++ c :: post) = starts pageSize pre ++
      (pageSize - total (pre ++ [c])) :: starts (pageSize - total (pre ++ [c])) post := by
    rw [starts_append, starts, total_append, total_cons, total_nil, Nat.add_zero, Nat.sub_sub]
  constructor
  · have hdrop : ∃ rest, b.data.toList.drop (NodeHeader.tableStart + 2 * pre.length) =
        leBytes 2 (pageSize - total (pre ++ [c])) ++ rest := by
      rw [hbehind _ (by simp [NodeHeader.tableStart]; omega), toList_page, table_lay]
      simp only [blank, List.reverse_nil, List.nil_append]
      rw [htable, List.flatMap_append, List.flatMap_cons, ← List.append_assoc (List.replicate _ _)]
      simp only [List.append_assoc]
      rw [← List.append_assoc (List.replicate _ _), List.drop_left']
      · exact ⟨_, rfl⟩
      · rw [List.length_append, length_flatMap_words, List.length_replicate, length_starts]
    obtain ⟨rest, hrest⟩ := hdrop
    refine field_of_drop rfl (by decide) ?_ hrest
    simp only [pageSize]
    exact Nat.lt_of_le_of_lt (Nat.sub_le _ _) (by decide)
  · refine ⟨pre.reverse.flatMap (·.data.toList), ?_⟩
    rw [hbehind _ (by simp [NodeHeader.size, pageSize]; omega), toList_page, cells_lay, table_lay]
    have hcells : ((pre ++ c :: post).reverse ++ blank.cells).flatMap (·.data.toList) =
        post.reverse.flatMap (·.data.toList) ++
          (c.data.toList ++ pre.reverse.flatMap (·.data.toList)) := by
      simp [blank]
    rw [hcells, ← List.append_assoc (List.replicate (_ - _) _), ← List.append_assoc,
      ← List.append_assoc]
    apply List.drop_left'
    simp only [List.length_append, List.length_replicate, length_flatMap_words, content_lay, blank,
      length_flatMap_bytes, List.reverse_nil, List.length_nil, length_starts, List.length_cons,
      total_append, total_cons, total_nil, total_reverse, NodeHeader.tableStart, NodeHeader.size,
      pageSize]
    omega

end Draft

end PagedTree
