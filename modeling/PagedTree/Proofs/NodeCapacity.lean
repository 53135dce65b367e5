import Mathlib.Algebra.GroupWithZero.Nat
import PagedTree.Proofs.Drafts

/-! # What a page has room for

A node is laid onto its page exactly if its cells and their addresses leave the header its place.
A leaf cell takes ten bytes more than its value and two for its address. Every child of a branch
takes eighteen bytes, of which the last one, without a separator, leaves eight empty.
-/
namespace PagedTree.Node

variable {p : PageNo} {total : Nat} {d d' : Draft}

theorem addCell_room {need : Nat} {cell : ByteArray}
    (h : (addCell p total need cell).result d = (.ok (), d')) :
    NodeHeader.tableStart + 2 * (d.table.length + 1) + need ≤ d.content ∧ d' = d.push cell := by
  by_cases hroom : d.content < NodeHeader.tableStart + 2 * (d.table.length + 1) + need
  · have hadd : d.add? need cell = none := if_pos hroom
    simp [addCell, Call.result_bind, hadd] at h
  · cases h.symm.trans (addCell_ok (Nat.le_of_not_lt hroom))
    exact ⟨Nat.le_of_not_lt hroom, rfl⟩

/-- Cells are all laid only if there was room for them and their addresses. -/
theorem layLeaf_room {kvs : List (UInt64 × ByteArray)}
    (hroom : NodeHeader.tableStart + 2 * d.table.length ≤ d.content)
    (h : (layLeaf p total kvs).result d = (.ok (), d')) :
    NodeHeader.tableStart + 2 * (d.table.length + kvs.length) + Draft.total (leafCells kvs) ≤
      d.content := by
  induction kvs generalizing d with
  | nil => simpa [leafCells] using hroom
  | cons kv kvs ih =>
    obtain ⟨key, value⟩ := kv
    rw [layLeaf] at h
    split at h
    case isTrue => exact absurd h (by simp [Call.result_bind])
    case isFalse =>
      obtain ⟨⟨⟩, t, hcell, hrest⟩ := Call.exists_of_bind_ok h
      obtain ⟨hcellRoom, rfl⟩ := addCell_room hcell
      have hcells : leafCells ((key, value) :: kvs) = leafCell key value :: leafCells kvs := rfl
      have hpush := ih (by simp only [Draft.push, List.length_cons, size_leafCell]; omega) hrest
      simp only [Draft.push, List.length_cons, size_leafCell] at hpush
      rw [hcells, Draft.total_cons, size_leafCell, List.length_cons]
      omega

/-- The last child takes as much room as the others, although it has no separator. -/
theorem layBranch_room {keys : List UInt64} {children : List PageNo}
    (hlen : children.length = keys.length + 1)
    (h : (layBranch p total keys children).result d = (.ok (), d')) :
    NodeHeader.tableStart + 2 * (d.table.length + children.length) + 16 * children.length ≤
      d.content := by
  induction children generalizing keys d with
  | nil => simp at hlen
  | cons child rest ih =>
    rw [layBranch] at h
    obtain ⟨⟨⟩, t, hcell, hrest⟩ := Call.exists_of_bind_ok h
    obtain ⟨hcellRoom, rfl⟩ := addCell_room hcell
    cases keys with
    | nil =>
      have hlast : rest = [] := by simpa using hlen
      simpa [hlast] using hcellRoom
    | cons key keys =>
      have hsize : (branchCell (some key) child).size = 16 := by simp [branchCell]
      have hpush := ih (by simpa using hlen) hrest
      simp only [Draft.push, List.length_cons, List.head?_cons, hsize] at hpush
      rw [List.length_cons]
      omega

theorem writeDraft_laid {kind : NodeKind} {cells link : Nat} {lay : Call Draft Unit}
    {b c : ByteArray} (h : (writeDraft kind cells link lay).result b = (.ok (), c)) :
    ∃ d, lay.result Draft.blank = (.ok (), d) := by
  rcases hlay : lay.result Draft.blank with ⟨r, d⟩
  rw [writeDraft, hlay] at h
  obtain ⟨⟨⟩, _, -, h⟩ := Call.exists_of_bind_ok h
  obtain ⟨⟨⟩, _, hresume, -⟩ := Call.exists_of_bind_ok h
  cases hresume
  exact ⟨d, rfl⟩

/-! ## Leaves -/

theorem total_leafCells_zip {keys : List UInt64} {values : List ByteArray}
    (hlen : keys.length = values.length) :
    2 * (keys.zip values).length + Draft.total (leafCells (keys.zip values)) =
      (values.map fun v => 12 + v.size).sum := by
  induction values generalizing keys with
  | nil => simp [leafCells]
  | cons v vs ih =>
    cases keys with
    | nil => simp at hlen
    | cons k ks =>
      have hrest := ih (by simpa using hlen)
      have hcells : leafCells ((k, v) :: ks.zip vs) = leafCell k v :: leafCells (ks.zip vs) := rfl
      rw [List.zip_cons_cons, hcells, Draft.total_cons, size_leafCell, List.length_cons,
        List.map_cons, List.sum_cons, ← hrest]
      omega

/-- Lists of one length are the keys and the values of a leaf. -/
theorem exists_leaf {keys : List UInt64} {values : List ByteArray}
    (hlen : keys.length = values.length) (next : Option PageNo) :
    ∃ l : Leaf, l.keys = keys ∧ l.entries.map Entry.value = values ∧ l.next = next := by
  refine ⟨⟨(keys.zip values).map fun kv => ⟨kv.1, kv.2⟩, next⟩, ?_, ?_, rfl⟩
  · rw [Leaf.keys, List.map_map]
    exact List.map_fst_zip (Nat.le_of_eq hlen)
  · rw [List.map_map]
    exact List.map_snd_zip (Nat.le_of_eq hlen.symm)

theorem fits_leafCells {l : Leaf}
    (h : 19 + ((l.entries.map Entry.value).map fun v => 12 + v.size).sum ≤ 32768) :
    Draft.Fits (l.entries.map fun e => leafCell e.key e.value) := by
  have hcells : leafCells (l.keys.zip (l.entries.map Entry.value)) =
      l.entries.map fun e => leafCell e.key e.value := by
    simp [Leaf.keys, leafCells, List.zip_map']
  have hlen : l.keys.length = (l.entries.map Entry.value).length := by simp [Leaf.keys]
  have htotal := total_leafCells_zip hlen
  rw [hcells] at htotal
  rw [← htotal] at h
  have hlength : (l.keys.zip (l.entries.map Entry.value)).length = l.entries.length := by
    simp [Leaf.keys]
  simp only [Draft.Fits, List.length_map, NodeHeader.tableStart, NodeHeader.size, pageSize]
  omega

theorem encodeLeaf_room {keys : List UInt64} {values : List ByteArray} {next : Option PageNo}
    {b c : ByteArray} (hlen : keys.length = values.length)
    (h : (encodeLeaf p keys values next).result b = (.ok (), c)) :
    19 + (values.map fun v => 12 + v.size).sum ≤ 32768 := by
  rw [encodeLeaf, if_neg (not_not_intro hlen)] at h
  obtain ⟨_, _, -, h⟩ := Call.exists_of_bind_ok h
  obtain ⟨⟨⟩, _, -, h⟩ := Call.exists_of_bind_ok h
  obtain ⟨d, hlaid⟩ := writeDraft_laid h
  have hroom := layLeaf_room Draft.exact_blank.room hlaid
  rw [← total_leafCells_zip hlen]
  simp only [Draft.blank, List.length_nil, NodeHeader.tableStart, NodeHeader.size, pageSize] at hroom
  omega

/-- Whatever is on the page, a leaf of any keys and as many values is laid onto it exactly if it
has room, and is then read back, empty values and the link included; otherwise it is refused. -/
theorem encodeLeaf_decode (p : PageNo) {b : ByteArray} (hb : b.size = pageSize)
    {keys : List UInt64} {values : List ByteArray} (hlen : keys.length = values.length)
    (next : Option PageNo) :
    ((∃ c, (encodeLeaf p keys values next).result b = (.ok (), c)) ↔
        19 + (values.map fun v => 12 + v.size).sum ≤ 32768) ∧
      (∀ c, (encodeLeaf p keys values next).result b = (.ok (), c) →
        ∃ l : Leaf, (∀ q, decode q c = .ok (.leaf l)) ∧
          l.keys = keys ∧ l.entries.map Entry.value = values ∧ l.next = next) ∧
      (∀ i c, (encodeLeaf p keys values next).result b = (.error i, c) → i.IsError) := by
  obtain ⟨l, rfl, rfl, rfl⟩ := exists_leaf hlen next
  have hlaid : 19 + ((l.entries.map Entry.value).map fun v => 12 + v.size).sum ≤ 32768 →
      ∃ c, (encodeLeaf p l.keys (l.entries.map Entry.value) l.next).result b = (.ok (), c) ∧
        ∀ q, decode q c = .ok (.leaf l) := by
    intro hsum
    obtain ⟨c, hc, hsize, hread⟩ := encodeLeaf_ok (p := p) hb (fits_leafCells hsum)
    exact ⟨c, hc, decode_of_read hsize hread⟩
  refine ⟨⟨?_, ?_⟩, ?_, ?_⟩
  · rintro ⟨c, hc⟩
    exact encodeLeaf_room hlen hc
  · intro hsum
    obtain ⟨c, hc, -⟩ := hlaid hsum
    exact ⟨c, hc⟩
  · intro c hc
    obtain ⟨c', hc', hdecode⟩ := hlaid (encodeLeaf_room hlen hc)
    cases hc.symm.trans hc'
    exact ⟨l, hdecode, rfl, rfl, rfl⟩
  · intro i c hc
    exact (laid_ends p (.leaf l) hb).bad_of_error hc

/-- A value of 32737 bytes fills a page. -/
theorem encodeLeaf_decode_of_full_page :
    ∃ c l, (encodeLeaf 0 [5] [zeros 32737] (some 7)).result (zeros pageSize) = (.ok (), c) ∧
      (∀ q, decode q c = .ok (.leaf l)) ∧ l.keys = [5] ∧
      l.entries.map Entry.value = [zeros 32737] ∧ l.next = some 7 := by
  have hlen : [(5 : UInt64)].length = [zeros 32737].length := rfl
  obtain ⟨hok, hread, -⟩ := encodeLeaf_decode 0 (size_zeros pageSize) hlen (some 7)
  obtain ⟨c, hc⟩ := hok.2 (by simp)
  exact ⟨c, (hread c hc).imp fun l hl => ⟨hc, hl⟩⟩

/-! ## Branches -/

theorem encodeBranch_room {keys : List UInt64} {children : List PageNo} {b c : ByteArray}
    (h : (encodeBranch p keys children).result b = (.ok (), c)) :
    children.length = keys.length + 1 ∧ keys.length ≤ 1818 := by
  by_cases hlen : children.length = keys.length + 1
  · rw [encodeBranch, if_neg (not_not_intro hlen)] at h
    obtain ⟨_, _, -, h⟩ := Call.exists_of_bind_ok h
    obtain ⟨⟨⟩, _, -, h⟩ := Call.exists_of_bind_ok h
    obtain ⟨d, hlaid⟩ := writeDraft_laid h
    have hroom := layBranch_room hlen hlaid
    simp only [Draft.blank, List.length_nil, NodeHeader.tableStart, NodeHeader.size,
      pageSize] at hroom
    exact ⟨hlen, by omega⟩
  · rw [encodeBranch, if_pos hlen] at h
    obtain ⟨_, _, -, h⟩ := Call.exists_of_bind_ok h
    obtain ⟨⟨⟩, _, -, h⟩ := Call.exists_of_bind_ok h
    obtain ⟨⟨⟩, _, hfail, -⟩ := Call.exists_of_bind_ok h
    cases hfail

/-- Whatever is on the page, a branch is laid onto it exactly if it has one more child than
separators and at most 1818 of these, and is then read back, the last child included, which may be
its only one; otherwise it is refused. -/
theorem encodeBranch_decode (p : PageNo) {b : ByteArray} (hb : b.size = pageSize)
    (keys : List UInt64) (children : List PageNo) :
    ((∃ c, (encodeBranch p keys children).result b = (.ok (), c)) ↔
        children.length = keys.length + 1 ∧ keys.length ≤ 1818) ∧
      (∀ c, (encodeBranch p keys children).result b = (.ok (), c) →
        ∀ q, decode q c = .ok (.branch ⟨keys, children⟩)) ∧
      (∀ i c, (encodeBranch p keys children).result b = (.error i, c) → i.IsError) := by
  have hlaid : children.length = keys.length + 1 → keys.length ≤ 1818 →
      ∃ c, (encodeBranch p keys children).result b = (.ok (), c) ∧
        ∀ q, decode q c = .ok (.branch ⟨keys, children⟩) := by
    intro hshaped hcount
    obtain ⟨c, hc, hsize, hread⟩ := encodeBranch_ok (p := p) (n := ⟨keys, children⟩) hb hshaped
      (by simp only [NodeHeader.tableStart, NodeHeader.size, pageSize]; omega)
    exact ⟨c, hc, decode_of_read hsize hread⟩
  refine ⟨⟨?_, ?_⟩, ?_, ?_⟩
  · rintro ⟨c, hc⟩
    exact encodeBranch_room hc
  · rintro ⟨hshaped, hcount⟩
    obtain ⟨c, hc, -⟩ := hlaid hshaped hcount
    exact ⟨c, hc⟩
  · intro c hc
    obtain ⟨hshaped, hcount⟩ := encodeBranch_room hc
    obtain ⟨c', hc', hdecode⟩ := hlaid hshaped hcount
    cases hc.symm.trans hc'
    exact hdecode
  · intro i c hc
    exact (laid_ends p (.branch ⟨keys, children⟩) hb).bad_of_error hc

/-- A branch without separators and with one child. -/
theorem encodeBranch_decode_of_one_child :
    ∃ c, (encodeBranch 0 [] [9]).result (zeros pageSize) = (.ok (), c) ∧
      ∀ q, decode q c = .ok (.branch ⟨[], [9]⟩) := by
  obtain ⟨hok, hread, -⟩ := encodeBranch_decode 0 (size_zeros pageSize) [] [9]
  obtain ⟨c, hc⟩ := hok.2 ⟨rfl, by decide⟩
  exact ⟨c, hc, hread c hc⟩

end PagedTree.Node
