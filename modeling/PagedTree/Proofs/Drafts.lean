import PagedTree.Proofs.Outcomes
import PagedTree.Proofs.Pages

/-! # Nodes of any size and pages of any content

Cells are laid only where there is room, so the bytes laid and the bytes left make up a page at every
moment and no offset is taken below zero. A node that does not fit ends the call with an error. The
other way round every page reads as a node or as an error, and a branch that is read has one more
child than separators.
-/
namespace PagedTree

namespace Draft

/-- The table and the cells do not overlap, and with what is left between them they make up a page. -/
structure Exact (d : Draft) : Prop where
  room : NodeHeader.tableStart + 2 * d.table.length ≤ d.content
  full : d.content + total d.cells = pageSize

theorem exact_blank : blank.Exact := ⟨by decide, by decide⟩

theorem Exact.push {d : Draft} (h : d.Exact) {cell : ByteArray}
    (hroom : NodeHeader.tableStart + 2 * (d.table.length + 1) + cell.size ≤ d.content) :
    (d.push cell).Exact := by
  have hfull := h.full
  constructor
  · simp only [Draft.push, List.length_cons]
    omega
  · simp only [Draft.push, total_cons]
    omega

theorem size_foldl_append (b : ByteArray) (cells : List ByteArray) :
    (cells.foldl (· ++ ·) b).size = b.size + total cells := by
  induction cells generalizing b with
  | nil => rfl
  | cons c cs ih =>
    rw [List.foldl_cons, ih, ByteArray.size_append, total_cons, Nat.add_assoc]

theorem Exact.size_page {d : Draft} (h : d.Exact) : d.page.size = pageSize := by
  have hroom := h.room
  have hfull := h.full
  simp only [page, size_foldl_append, ByteArray.size_append, size_zeros, List.size_toByteArray,
    length_flatMap_words, List.length_reverse]
  omega

end Draft

/-- An interrupt that is reported as a failure. -/
def Interrupt.IsError (i : Interrupt) : Prop := ∃ e, i = .error e

theorem Interrupt.IsError.error (e : StoreError) : IsError (.error e) := ⟨e, rfl⟩

theorem Interrupt.IsError.ne_fault {i : Interrupt} (h : i.IsError) : i ≠ .fault := by
  obtain ⟨e, rfl⟩ := h
  simp

/-- A node that is a branch with one more child than separators, or a leaf. -/
def NodeOf.Shaped {Child : Type} (n : NodeOf Child) : Prop := ∀ b, n = .branch b → b.Shaped

namespace Node

variable {p : PageNo} {total : Nat}

/-! ## Onto a page -/

theorem addCell_ends {d : Draft} (h : d.Exact) {need : Nat} {cell : ByteArray}
    (hneed : cell.size ≤ need) :
    (addCell p total need cell).Ends d (fun _ d' => d'.Exact) (fun i d' => i.IsError ∧ d'.Exact) := by
  rw [addCell]
  refine .bind_ok (Call.result_get d) ?_
  by_cases hroom : d.content < NodeHeader.tableStart + 2 * (d.table.length + 1) + need
  · rw [Draft.add?, if_pos hroom]
    exact .throw ⟨.error _, h⟩
  · rw [Draft.add?, if_neg hroom]
    exact .of_ok (Call.result_set _ _) (h.push (by omega))

theorem layLeaf_ends {d : Draft} (h : d.Exact) (kvs : List (UInt64 × ByteArray)) :
    (layLeaf p total kvs).Ends d (fun _ d' => d'.Exact) (fun i d' => i.IsError ∧ d'.Exact) := by
  induction kvs generalizing d with
  | nil => exact .pure h
  | cons kv kvs ih =>
    obtain ⟨key, value⟩ := kv
    rw [layLeaf]
    have hcell : (addCell p total (10 + value.size) (leafCell key value)).Ends d
        (fun _ d' => d'.Exact) (fun i d' => i.IsError ∧ d'.Exact) :=
      addCell_ends h (Nat.le_of_eq (size_leafCell key value))
    by_cases hv : maxCellValue < value.size
    · rw [if_pos hv]
      exact .of_error (Call.result_bind_error (Call.result_fail _ d) _) ⟨.error _, h⟩
    · rw [if_neg hv]
      exact hcell.bind fun _ _ hd => ih hd

theorem layBranch_ends {d : Draft} (h : d.Exact) (keys : List UInt64) (children : List PageNo) :
    (layBranch p total keys children).Ends d (fun _ d' => d'.Exact)
      (fun i d' => i.IsError ∧ d'.Exact) := by
  induction children generalizing keys d with
  | nil => exact .pure h
  | cons child rest ih =>
    rw [layBranch]
    exact (addCell_ends h (size_branchCell_le _ _)).bind fun _ _ hd => ih hd _

/-- What a node has laid on its page when it is complete or there is no more room. -/
def draft (p : PageNo) : Node → Draft
  | .leaf l => ((layLeaf p l.keys.length (l.keys.zip (l.entries.map Entry.value))).result .blank).2
  | .branch b => ((layBranch p b.keys.length b.keys b.children).result .blank).2

theorem draft_exact (p : PageNo) (n : Node) : (draft p n).Exact := by
  have hall : ∀ c : Call Draft Unit, c.Ends .blank (fun _ d => d.Exact)
      (fun i d => i.IsError ∧ d.Exact) → (c.result .blank).2.Exact := by
    intro c hc
    rcases hrun : c.result .blank with ⟨r, d⟩
    cases r with
    | ok a => exact hc.good_of_ok hrun
    | error i => exact (hc.bad_of_error hrun).2
  cases n with
  | leaf l => exact hall _ (layLeaf_ends Draft.exact_blank _)
  | branch b => exact hall _ (layBranch_ends Draft.exact_blank _ _)

theorem writeDraft_ends (kind : NodeKind) (cells link : Nat) {lay : Call Draft Unit} (b : ByteArray)
    (hlay : lay.Ends Draft.blank (fun _ d => d.Exact) (fun i d => i.IsError ∧ d.Exact)) :
    (writeDraft kind cells link lay).Ends b (fun _ c => c.size = pageSize)
      (fun i _ => i.IsError) := by
  rcases hrun : lay.result Draft.blank with ⟨r, d⟩
  rw [writeDraft, hrun]
  refine .bind_ok (Call.result_set _ _) ?_
  cases r with
  | error i =>
    exact .of_error (Call.result_bind_error (Call.result_resume _ _) _) (hlay.bad_of_error hrun).1
  | ok a =>
    have hsize := (hlay.good_of_ok hrun).size_page
    refine .bind_ok (Call.result_resume _ _) ?_
    obtain ⟨c, hstamp, hc, -⟩ := NodeHeader.stamp?_spec
      ⟨kind, .ofNat cells, .ofNat d.content, .ofNat NodeHeader.tableStart, .ofNat link⟩ (b := d.page)
      (by rw [hsize]; decide) (show UInt16.ofNat NodeHeader.tableStart ≠ 0 by decide)
    simp only [hstamp]
    refine .bind_ok (Call.result_orFault_some c _) ?_
    exact .of_ok (Call.result_set _ _) (hc.trans hsize)

theorem laid_ends (p : PageNo) (n : Node) {b : ByteArray} (hb : b.size = pageSize) :
    Call.Ends (match n with
      | .leaf l => encodeLeaf p l.keys (l.entries.map Entry.value) l.next
      | .branch n => encodeBranch p n.keys n.children) b
      (fun _ c => c.size = pageSize) (fun i _ => i.IsError) := by
  have hcheck : checkBuffer p b = .ok () := if_neg (not_not_intro hb)
  cases n with
  | leaf l =>
    simp only [encodeLeaf]
    refine .bind_ok (Call.result_get b) ?_
    rw [hcheck, if_neg (by simp [Leaf.keys])]
    refine .bind_ok (Call.result_ofExcept_ok () b) ?_
    exact writeDraft_ends _ _ _ _ (layLeaf_ends Draft.exact_blank _)
  | branch n =>
    simp only [encodeBranch]
    refine .bind_ok (Call.result_get b) ?_
    rw [hcheck]
    refine .bind_ok (Call.result_ofExcept_ok () b) ?_
    by_cases hcount : n.children.length ≠ n.keys.length + 1
    · rw [if_pos hcount]
      exact .of_error (Call.result_bind_error (Call.result_fail _ b) _) (.error _)
    · rw [if_neg hcount]
      exact writeDraft_ends _ _ _ _ (layBranch_ends Draft.exact_blank _ _)

/-- Whatever a node holds, it is encoded or refused. -/
theorem encode_ends {σ : Type} (p : PageNo) (n : Node) (s : σ) :
    (encode p n : Call σ ByteArray).Ends s (fun b s' => b.size = pageSize ∧ s' = s)
      (fun i s' => i.IsError ∧ s' = s) := by
  have hlaid := laid_ends p n (size_zeros pageSize)
  unfold encode
  -- the page stays a variable here, so that it is never computed
  generalize hrun : Call.result _ (zeros pageSize) = r
  obtain ⟨r, b⟩ := r
  cases r with
  | error i =>
    exact .of_error (Call.result_bind_error (Call.result_resume _ s) _)
      ⟨hlaid.bad_of_error hrun, rfl⟩
  | ok a =>
    exact .of_ok (Call.result_bind_ok (Call.result_resume _ s) _) ⟨hlaid.good_of_ok hrun, rfl⟩

/-! ## From a page -/

theorem readBranch_shaped {b : ByteArray} {h : NodeHeader} {n : Branch PageNo}
    (hread : readBranch b h = .ok n) : n.Shaped := by
  obtain ⟨cells, -, hrest⟩ := exists_of_except_bind_ok hread
  obtain ⟨last, -, hrest⟩ := exists_of_except_bind_ok hrest
  cases hrest
  simp [Branch.Shaped]

theorem read_shaped {b : ByteArray} {n : Node} (h : read b = .ok n) : n.Shaped := by
  rintro m rfl
  obtain ⟨header, -, h⟩ := exists_of_except_bind_ok h
  cases header with
  | none => cases h
  | some header =>
    dsimp only at h
    cases hkind : header.kind with
    | leaf =>
      rw [hkind] at h
      obtain ⟨l, -, h⟩ := exists_of_except_bind_ok h
      cases h
    | branch =>
      rw [hkind] at h
      obtain ⟨m', hbranch, h⟩ := exists_of_except_bind_ok h
      cases h
      exact readBranch_shaped hbranch

theorem decode_shaped {b : ByteArray} {n : Node} (h : decode p b = .ok n) : n.Shaped := by
  obtain ⟨⟨⟩, -, h⟩ := exists_of_except_bind_ok h
  cases hread : read b with
  | error e =>
    rw [hread] at h
    cases h
  | ok m =>
    rw [hread] at h
    cases h
    exact read_shaped hread

end Node

namespace Tree

/-- Whatever a page holds, it reads as a node or is refused. -/
theorem readNode_ends (p : PageNo) (s : PageStore) :
    (readNode p).Ends s (fun n s' => s' = s ∧ p.toNat < s.pageCount ∧ n.Shaped)
      (fun i s' => i.IsError ∧ s' = s) := by
  rw [readNode]
  by_cases hp : p.toNat < s.pageCount
  · refine .bind_ok (PageStore.readPage_ok hp) ?_
    cases hdecode : Node.decode p (s.file.read p.offset pageSize) with
    | ok n => exact .of_ok (Call.result_ofExcept_ok n s) ⟨rfl, hp, Node.decode_shaped hdecode⟩
    | error e => exact .of_error (Call.result_ofExcept_error e s) ⟨.error e, rfl⟩
  · exact .of_error (Call.result_bind_error (PageStore.readPage_fails hp) _) ⟨.error _, rfl⟩

end Tree

end PagedTree
