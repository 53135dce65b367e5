import PagedTree.Proofs.PageLayout

/-! # Nodes come back from their pages

A node whose cells fit is laid onto a page, and reading that page gives the node back. What the
page was before does not matter, and neither does the number of cells, as long as they fit.
-/
namespace PagedTree.Node

theorem mapM_range'_ok {ε α : Type} {f : Nat → Except ε α} {xs : List α} {start : Nat}
    (h : ∀ i (hi : i < xs.length), f (start + i) = .ok xs[i]) :
    (List.range' start xs.length).mapM f = .ok xs := by
  induction xs generalizing start with
  | nil => rfl
  | cons x xs ih =>
    have h0 := h 0 (by simp)
    have hrest : (List.range' (start + 1) xs.length).mapM f = .ok xs := by
      apply ih
      intro i hi
      have hi' := h (i + 1) (by simpa using hi)
      rw [show start + 1 + i = start + (i + 1) by omega]
      simpa using hi'
    simp only [Nat.add_zero, List.getElem_cons_zero] at h0
    rw [List.length_cons, List.range'_succ, List.mapM_cons, h0, hrest]
    rfl

theorem mapM_range_ok {ε α : Type} {f : Nat → Except ε α} {xs : List α}
    (h : ∀ i (hi : i < xs.length), f i = .ok xs[i]) : (List.range xs.length).mapM f = .ok xs := by
  rw [List.range_eq_range']
  apply mapM_range'_ok
  intro i hi
  rw [Nat.zero_add]
  exact h i hi

/-! ## Laying cells -/

@[simp] theorem size_leafCell (key : UInt64) (value : ByteArray) :
    (leafCell key value).size = 10 + value.size := by
  simp [leafCell, ByteArray.size_append]

theorem addCell_ok {p : PageNo} {total need : Nat} {cell : ByteArray} {d : Draft}
    (h : NodeHeader.tableStart + 2 * (d.table.length + 1) + need ≤ d.content) :
    (addCell p total need cell).result d = (.ok (), d.push cell) := by
  have hadd : d.add? need cell = some (d.push cell) := if_neg (by omega)
  simp [addCell, Call.result_bind, hadd]

def leafCells (kvs : List (UInt64 × ByteArray)) : List ByteArray :=
  kvs.map fun kv => leafCell kv.1 kv.2

theorem layLeaf_ok {p : PageNo} {total : Nat} {kvs : List (UInt64 × ByteArray)} {d : Draft}
    (hd : d.content ≤ pageSize)
    (h : NodeHeader.tableStart + 2 * (d.table.length + kvs.length) + Draft.total (leafCells kvs) ≤
      d.content) :
    (layLeaf p total kvs).result d = (.ok (), d.lay (leafCells kvs)) := by
  induction kvs generalizing d with
  | nil => rfl
  | cons kv kvs ih =>
    obtain ⟨key, value⟩ := kv
    have hcells : leafCells ((key, value) :: kvs) = leafCell key value :: leafCells kvs := rfl
    rw [hcells, Draft.total_cons, size_leafCell, List.length_cons] at h
    have hsize : ¬maxCellValue < value.size := by
      simp only [maxCellValue, pageSize] at *
      omega
    have hadd : (addCell p total (10 + value.size) (leafCell key value)).result d =
        (.ok (), d.push (leafCell key value)) := addCell_ok (by omega)
    have hrest : (layLeaf p total kvs).result (d.push (leafCell key value)) =
        (.ok (), (d.push (leafCell key value)).lay (leafCells kvs)) := by
      apply ih
      · exact Nat.le_trans (Nat.sub_le _ _) hd
      · simp only [Draft.push, List.length_cons, size_leafCell]
        omega
    simp only [layLeaf, hsize, if_false, Call.result_bind, hadd, hrest]
    rfl

/-- The cells of the children, each but the last one with the separator on its right. -/
def branchCells : List UInt64 → List PageNo → List ByteArray
  | _, [] => []
  | keys, child :: rest => branchCell keys.head? child :: branchCells keys.tail rest

@[simp] theorem length_branchCells (keys : List UInt64) (children : List PageNo) :
    (branchCells keys children).length = children.length := by
  induction children generalizing keys with
  | nil => rfl
  | cons c cs ih => simp [branchCells, ih]

theorem size_branchCell_le (key : Option UInt64) (child : PageNo) :
    (branchCell key child).size ≤ 16 := by
  cases key <;> simp [branchCell]

theorem layBranch_ok {p : PageNo} {total : Nat} {keys : List UInt64} {children : List PageNo}
    {d : Draft}
    (h : NodeHeader.tableStart + 2 * (d.table.length + children.length) + 16 * children.length ≤
      d.content) :
    (layBranch p total keys children).result d = (.ok (), d.lay (branchCells keys children)) := by
  induction children generalizing keys d with
  | nil => rfl
  | cons c cs ih =>
    rw [List.length_cons] at h
    have hcell := size_branchCell_le keys.head? c
    have hadd : (addCell p total 16 (branchCell keys.head? c)).result d =
        (.ok (), d.push (branchCell keys.head? c)) := addCell_ok (by omega)
    have hrest : (layBranch p total keys.tail cs).result (d.push (branchCell keys.head? c)) =
        (.ok (), (d.push (branchCell keys.head? c)).lay (branchCells keys.tail cs)) := by
      apply ih
      simp only [Draft.push, List.length_cons]
      omega
    simp only [layBranch, Call.result_bind, hadd, hrest]
    rfl

theorem total_branchCells_le (keys : List UInt64) (children : List PageNo) :
    Draft.total (branchCells keys children) ≤ 16 * children.length := by
  induction children generalizing keys with
  | nil => simp [branchCells]
  | cons c cs ih =>
    have hcell := size_branchCell_le keys.head? c
    have hrest := ih keys.tail
    rw [branchCells, Draft.total_cons, List.length_cons]
    omega

/-! ## Writing a page -/

theorem writeDraft_ok (kind : NodeKind) (cells link : Nat) {lay : Call Draft Unit}
    {laid : List ByteArray} (b : ByteArray)
    (hlay : lay.result Draft.blank = (.ok (), Draft.blank.lay laid)) (hfit : Draft.Fits laid) :
    ∃ c, (writeDraft kind cells link lay).result b = (.ok (), c) ∧ c.size = pageSize ∧
      c.data.toList.drop NodeHeader.size =
        (Draft.blank.lay laid).page.data.toList.drop NodeHeader.size ∧
      NodeHeader.decode c = .ok (some ⟨kind, .ofNat cells, .ofNat (Draft.blank.lay laid).content,
        .ofNat NodeHeader.tableStart, .ofNat link⟩) := by
  have hsize := Draft.size_page_lay hfit
  obtain ⟨c, hc, hcsize, hdrop, hdecode⟩ := NodeHeader.stamp?_spec
    ⟨kind, .ofNat cells, .ofNat (Draft.blank.lay laid).content, .ofNat NodeHeader.tableStart,
      .ofNat link⟩ (b := (Draft.blank.lay laid).page)
    (by rw [hsize]; decide) (show UInt16.ofNat NodeHeader.tableStart ≠ 0 by decide)
  refine ⟨c, ?_, hcsize.trans hsize, hdrop, hdecode⟩
  simp only [writeDraft, hlay, Call.result_bind, Call.result_set, Call.result_resume, hc,
    Call.result_orFault_some]

/-! ## Reading a page -/

theorem pageAt_ok {offset : Nat} {p : PageNo} (h : PageNo.ofOffset? offset = some p) :
    pageAt offset = .ok p := by simp only [pageAt, h]

theorem childAt_ok {b : ByteArray} {pos : Nat} {child : PageNo} {rest : List UInt8}
    (h : b.data.toList.drop pos = leBytes 8 child.offset ++ rest) : childAt b pos = .ok child := by
  have hfield : field 64 b pos = .ok child.offset :=
    field_of_drop rfl (by decide) child.offset_lt h
  have hpage := pageAt_ok (PageNo.ofOffset?_offset child)
  simp only [childAt, hfield, bind, Except.bind, hpage]

section
variable {b : ByteArray} {laid pre post : List ByteArray}

theorem readLeafCell_ok {key : UInt64} {value : ByteArray} (hb : b.size = pageSize)
    (hfit : Draft.Fits (pre ++ leafCell key value :: post))
    (hdrop : b.data.toList.drop NodeHeader.size =
      (Draft.blank.lay (pre ++ leafCell key value :: post)).page.data.toList.drop NodeHeader.size) :
    readLeafCell b NodeHeader.tableStart pre.length = .ok ⟨key, value⟩ := by
  obtain ⟨hstart, rest, hcell⟩ := Draft.cell_at hfit hdrop
  have hsmall : value.size < Nat.pow 256 2 := by
    have hpow : Nat.pow 256 2 = 65536 := by decide
    simp only [Draft.Fits, List.length_append, Draft.total_append, Draft.total_cons, size_leafCell,
      pageSize] at hfit
    omega
  have hkeylt := key.toNat_lt
  generalize pageSize - Draft.total (pre ++ [leafCell key value]) = start at hstart hcell
  have hcell : b.data.toList.drop start = leBytes 8 key.toNat ++ (leBytes 2 value.size ++
      (value.data.toList ++ rest)) := by
    rw [hcell]
    simp [leafCell, ByteArray.data_append]
  have hkey : field 64 b start = .ok key.toNat :=
    field_of_drop rfl (by decide) (by exact hkeylt) hcell
  have hcell₂ : b.data.toList.drop (start + 8) = leBytes 2 value.size ++
      (value.data.toList ++ rest) := by
    rw [← List.drop_drop, hcell, List.drop_left' (by simp)]
  have hlen : field 16 b (start + 8) = .ok value.size :=
    field_of_drop rfl (by decide) hsmall hcell₂
  have hcell₃ : b.data.toList.drop (start + 10) = value.data.toList ++ rest := by
    rw [show start + 10 = start + 8 + 2 by omega, ← List.drop_drop, hcell₂,
      List.drop_left' (by simp)]
  have hend : start + 10 + value.size ≤ b.size := by
    have hl := congrArg List.length hcell
    simp only [List.length_drop, List.length_append, length_leBytes, Array.length_toList,
      ByteArray.size_data] at hl
    omega
  have hvalue : b.extract (start + 10) (start + 10 + value.size) = value := by
    apply ByteArray.ext
    apply Array.toList_inj.1
    rw [ByteArray.data_extract, Array.toList_extract, List.extract_eq_take_drop, hcell₃,
      Nat.add_sub_cancel_left, List.take_left' (by simp)]
  simp [readLeafCell, hstart, hkey, hlen, hend, hvalue, bind, Except.bind, pure, Except.pure]

theorem readBranchCell_ok {key : UInt64} {child : PageNo}
    (hfit : Draft.Fits (pre ++ branchCell (some key) child :: post))
    (hdrop : b.data.toList.drop NodeHeader.size =
      (Draft.blank.lay (pre ++ branchCell (some key) child :: post)).page.data.toList.drop
        NodeHeader.size) :
    readBranchCell b NodeHeader.tableStart pre.length = .ok (key, child) := by
  obtain ⟨hstart, rest, hcell⟩ := Draft.cell_at hfit hdrop
  have hkeylt := key.toNat_lt
  generalize pageSize - Draft.total (pre ++ [branchCell (some key) child]) = start at hstart hcell
  have hcell : b.data.toList.drop start =
      leBytes 8 key.toNat ++ (leBytes 8 child.offset ++ rest) := by
    rw [hcell]
    simp [branchCell]
  have hkey : field 64 b start = .ok key.toNat :=
    field_of_drop rfl (by decide) (by exact hkeylt) hcell
  have hchild : childAt b (start + 8) = .ok child := by
    have hdrop' : b.data.toList.drop (start + 8) = leBytes 8 child.offset ++ rest := by
      rw [← List.drop_drop, hcell, List.drop_left' (by simp)]
    exact childAt_ok hdrop'
  simp [readBranchCell, hstart, hkey, hchild, bind, Except.bind, pure, Except.pure]

end

theorem read_leaf {b : ByteArray} {l : Leaf} {content : UInt16}
    {cells : List ByteArray} (hcells : cells = l.entries.map fun e => leafCell e.key e.value)
    (hb : b.size = pageSize) (hfit : Draft.Fits cells)
    (hdrop : b.data.toList.drop NodeHeader.size =
      (Draft.blank.lay cells).page.data.toList.drop NodeHeader.size)
    (hheader : NodeHeader.decode b = .ok (some ⟨.leaf, .ofNat l.entries.length, content,
      .ofNat NodeHeader.tableStart, .ofNat ((l.next.map PageNo.offset).getD 0)⟩)) :
    read b = .ok (.leaf l) := by
  have hcount : l.entries.length % 65536 = l.entries.length := by
    have h := hfit
    simp only [Draft.Fits, hcells, List.length_map, pageSize] at h
    omega
  have hentries : (List.range l.entries.length).mapM (readLeafCell b NodeHeader.tableStart) =
      .ok l.entries := by
    apply mapM_range_ok
    intro i hi
    have hsplit : cells = (l.entries.take i).map (fun e => leafCell e.key e.value) ++
        leafCell l.entries[i].key l.entries[i].value ::
          (l.entries.drop (i + 1)).map fun e => leafCell e.key e.value := by
      rw [hcells, ← List.map_cons (f := fun e : Entry => leafCell e.key e.value),
        ← List.drop_eq_getElem_cons hi, ← List.map_append, List.take_append_drop]
    rw [hsplit] at hfit hdrop
    have hread := readLeafCell_ok hb hfit hdrop
    rw [List.length_map, List.length_take, Nat.min_eq_left (Nat.le_of_lt hi)] at hread
    exact hread
  have htable : NodeHeader.tableStart % 65536 = NodeHeader.tableStart := by decide
  simp only [read, hheader, readLeaf, bind, Except.bind, pure, Except.pure, UInt16.toNat_ofNat',
    Nat.reducePow, hcount, htable, hentries]
  cases hnext : l.next with
  | none =>
    simp
    rw [← hnext]
  | some q =>
    simp only [Option.map_some, Option.getD_some, if_neg q.ofNat_offset_ne_zero,
      q.toNat_ofNat_offset, pageAt_ok (PageNo.ofOffset?_offset q)]
    rw [← hnext]

theorem branchCells_append {keys : List UInt64} {children : List PageNo} (last : PageNo)
    (h : keys.length = children.length) :
    branchCells keys (children ++ [last]) =
      (keys.zip children).map (fun kc => branchCell (some kc.1) kc.2) ++ [branchCell none last] := by
  induction children generalizing keys with
  | nil =>
    have hk : keys = [] := List.length_eq_zero_iff.1 h
    simp [hk, branchCells]
  | cons c cs ih =>
    obtain ⟨k, ks, rfl⟩ : ∃ k ks, keys = k :: ks := by
      cases keys with
      | nil => simp at h
      | cons k ks => exact ⟨k, ks, rfl⟩
    simp only [List.cons_append, branchCells, List.head?_cons, List.tail_cons,
      ih (by simpa using h)]
    rfl

theorem readLastChild_ok {b : ByteArray} {kcs : List (UInt64 × PageNo)} {last : PageNo}
    {cells : List ByteArray}
    (hcells : cells = kcs.map (fun kc => branchCell (some kc.1) kc.2) ++ [branchCell none last])
    (hfit : Draft.Fits cells)
    (hdrop : b.data.toList.drop NodeHeader.size =
      (Draft.blank.lay cells).page.data.toList.drop NodeHeader.size) :
    readLastChild b NodeHeader.tableStart kcs.length = .ok last := by
  have hlast : branchCell none last = (leBytes 8 last.offset).toByteArray := by simp [branchCell]
  rw [hcells] at hfit hdrop
  obtain ⟨hstart, rest, hcell⟩ := Draft.cell_at hfit hdrop
  have hchild : childAt b (pageSize - Draft.total
      (kcs.map (fun kc => branchCell (some kc.1) kc.2) ++ [branchCell none last])) = .ok last := by
    have hbytes : (branchCell none last).data.toList = leBytes 8 last.offset := by
      rw [hlast]
      simp
    rw [hbytes] at hcell
    exact childAt_ok hcell
  cases hn : kcs.length with
  | zero =>
    rw [List.length_map, hn] at hstart
    simp only [readLastChild, hstart, bind, Except.bind, hchild]
  | succ n =>
    -- the last child lies below the cell of the last separator
    obtain ⟨init, kc, rfl⟩ : ∃ init kc, kcs = init ++ [kc] := by
      have hne : kcs ≠ [] := by
        intro h0
        simp [h0] at hn
      exact ⟨_, _, (List.dropLast_concat_getLast hne).symm⟩
    have hinit : init.length = n := by simpa using hn
    have hcells' : (init ++ [kc]).map (fun kc => branchCell (some kc.1) kc.2) ++
        [branchCell none last] = init.map (fun kc => branchCell (some kc.1) kc.2) ++
          branchCell (some kc.1) kc.2 :: [branchCell none last] := by simp
    rw [hcells'] at hfit hdrop
    obtain ⟨hstart', -⟩ := Draft.cell_at hfit hdrop
    rw [List.length_map, hinit] at hstart'
    have hbelow : pageSize - Draft.total (init.map (fun kc => branchCell (some kc.1) kc.2) ++
        [branchCell (some kc.1) kc.2]) - 8 = pageSize - Draft.total ((init ++ [kc]).map
          (fun kc => branchCell (some kc.1) kc.2) ++ [branchCell none last]) := by
      rw [hcells']
      simp only [Draft.total_append, Draft.total_cons, Draft.total_nil, hlast, List.size_toByteArray,
        length_leBytes]
      omega
    have hroom : ¬pageSize - Draft.total (init.map (fun kc => branchCell (some kc.1) kc.2) ++
        [branchCell (some kc.1) kc.2]) < 8 := by
      simp only [Draft.Fits, Draft.total_append, Draft.total_cons, Draft.total_nil,
        NodeHeader.tableStart, NodeHeader.size, List.length_append, List.length_cons] at hfit ⊢
      omega
    simp only [readLastChild, hstart', bind, Except.bind, if_neg hroom, hbelow, hchild]

theorem read_branch {b : ByteArray} {n : Branch PageNo} {content : UInt16} {link : UInt64}
    (hn : n.Shaped) (hfit : Draft.Fits (branchCells n.keys n.children))
    (hdrop : b.data.toList.drop NodeHeader.size =
      (Draft.blank.lay (branchCells n.keys n.children)).page.data.toList.drop NodeHeader.size)
    (hheader : NodeHeader.decode b = .ok (some ⟨.branch, .ofNat n.keys.length, content,
      .ofNat NodeHeader.tableStart, link⟩)) :
    read b = .ok (.branch n) := by
  obtain ⟨keys, children⟩ := n
  unfold Branch.Shaped at hn
  dsimp only at hn hfit hdrop hheader
  obtain ⟨init, last, rfl⟩ : ∃ init last, children = init ++ [last] := by
    have hne : children ≠ [] := by
      intro h0
      simp [h0] at hn
    exact ⟨_, _, (List.dropLast_concat_getLast hne).symm⟩
  have hlen : keys.length = init.length := by simpa using hn.symm
  obtain ⟨kcs, hkcs⟩ : ∃ kcs, kcs = keys.zip init := ⟨_, rfl⟩
  have hkeys : kcs.map Prod.fst = keys := by rw [hkcs, List.map_fst_zip (by omega)]
  have hinit : kcs.map Prod.snd = init := by rw [hkcs, List.map_snd_zip (by omega)]
  have hcount : kcs.length = keys.length := by rw [← hkeys, List.length_map]
  have hcells := branchCells_append last hlen
  rw [← hkcs] at hcells
  have hmod : keys.length % 65536 = keys.length := by
    have h := hfit
    simp only [Draft.Fits, length_branchCells, List.length_append, pageSize] at h
    omega
  have hlast := readLastChild_ok hcells hfit hdrop
  rw [hcount] at hlast
  have hread : (List.range keys.length).mapM (readBranchCell b NodeHeader.tableStart) = .ok kcs := by
    rw [← hcount]
    apply mapM_range_ok
    intro i hi
    have hsplit : branchCells keys (init ++ [last]) =
        (kcs.take i).map (fun kc => branchCell (some kc.1) kc.2) ++
          branchCell (some kcs[i].1) kcs[i].2 ::
            ((kcs.drop (i + 1)).map (fun kc => branchCell (some kc.1) kc.2) ++
              [branchCell none last]) := by
      rw [hcells, ← List.cons_append,
        ← List.map_cons (f := fun kc : UInt64 × PageNo => branchCell (some kc.1) kc.2),
        ← List.drop_eq_getElem_cons hi, ← List.append_assoc, ← List.map_append,
        List.take_append_drop]
    rw [hsplit] at hfit hdrop
    have h := readBranchCell_ok hfit hdrop
    rw [List.length_map, List.length_take, Nat.min_eq_left (Nat.le_of_lt hi)] at h
    exact h
  have htable : NodeHeader.tableStart % 65536 = NodeHeader.tableStart := by decide
  simp only [read, hheader, readBranch, bind, Except.bind, pure, Except.pure, UInt16.toNat_ofNat',
    Nat.reducePow, hmod, htable, hread, hlast, hkeys, hinit]

/-! ## There and back -/

/-- A leaf comes back from its page, whatever the page was before. -/
theorem encodeLeaf_ok {p : PageNo} {l : Leaf} {b : ByteArray} (hb : b.size = pageSize)
    (hfit : Draft.Fits (l.entries.map fun e => leafCell e.key e.value)) :
    ∃ c, (encodeLeaf p l.keys (l.entries.map Entry.value) l.next).result b = (.ok (), c) ∧
      c.size = pageSize ∧ read c = .ok (.leaf l) := by
  have hzip : l.keys.zip (l.entries.map Entry.value) = l.entries.map fun e => (e.key, e.value) := by
    simp [Leaf.keys, List.zip_map']
  have hcells : leafCells (l.entries.map fun e => (e.key, e.value)) =
      l.entries.map fun e => leafCell e.key e.value := by simp [leafCells]
  have hlay : (layLeaf p l.keys.length (l.entries.map fun e => (e.key, e.value))).result
      Draft.blank = (.ok (), Draft.blank.lay (l.entries.map fun e => leafCell e.key e.value)) := by
    rw [← hcells]
    apply layLeaf_ok (Nat.le_refl _)
    rw [hcells]
    simpa [Draft.Fits, Draft.blank] using hfit
  obtain ⟨c, hc, hcsize, hdrop, hheader⟩ := writeDraft_ok .leaf l.keys.length
    ((l.next.map PageNo.offset).getD 0) b hlay hfit
  have hkeys : l.keys.length = l.entries.length := by simp [Leaf.keys]
  refine ⟨c, ?_, hcsize, read_leaf rfl hcsize hfit hdrop (by rw [← hkeys]; exact hheader)⟩
  have hcheck : checkBuffer p b = .ok () := if_neg (by simpa using hb)
  have hcounts : ¬l.keys.length ≠ (l.entries.map Entry.value).length := by simp [Leaf.keys]
  simp only [encodeLeaf, Call.result_bind, Call.result_get, hcheck, Call.result_ofExcept_ok,
    hcounts, if_false, hzip, hc]

/-- A branch of its shape comes back from its page, whatever the page was before. -/
theorem encodeBranch_ok {p : PageNo} {n : Branch PageNo} {b : ByteArray} (hb : b.size = pageSize)
    (hn : n.Shaped) (hfit : NodeHeader.tableStart + 18 * n.children.length ≤ pageSize) :
    ∃ c, (encodeBranch p n.keys n.children).result b = (.ok (), c) ∧ c.size = pageSize ∧
      read c = .ok (.branch n) := by
  have htotal := total_branchCells_le n.keys n.children
  have hfits : Draft.Fits (branchCells n.keys n.children) := by
    simp only [Draft.Fits, length_branchCells]
    omega
  have hlay : (layBranch p n.keys.length n.keys n.children).result Draft.blank =
      (.ok (), Draft.blank.lay (branchCells n.keys n.children)) := by
    apply layBranch_ok
    simp only [Draft.blank, List.length_nil]
    omega
  obtain ⟨c, hc, hcsize, hdrop, hheader⟩ := writeDraft_ok .branch n.keys.length 0 b
    hlay hfits
  refine ⟨c, ?_, hcsize, read_branch hn hfits hdrop hheader⟩
  have hcheck : checkBuffer p b = .ok () := if_neg (by simpa using hb)
  have hcounts : ¬n.children.length ≠ n.keys.length + 1 := not_not_intro hn
  simp only [encodeBranch, Call.result_bind, Call.result_get, hcheck, Call.result_ofExcept_ok,
    hcounts, if_false, hc]

/-- A node that one page has room for. -/
def FitsPage : Node → Prop
  | .leaf l => Draft.Fits (l.entries.map fun e => leafCell e.key e.value)
  | .branch b => b.Shaped ∧ NodeHeader.tableStart + 18 * b.children.length ≤ pageSize

theorem decode_of_read {c : ByteArray} {n : Node} (hsize : c.size = pageSize)
    (hread : read c = .ok n) (q : PageNo) : decode q c = .ok n := by
  simp [decode, checkBuffer, hsize, hread, bind, Except.bind, pure, Except.pure]

/-- A buffer that is not decoded is reported as a corrupt page. -/
theorem decode_cases (p : PageNo) (b : ByteArray) :
    (∃ fault, decode p b = .error (.corruptPage p fault)) ∨ ∃ n, decode p b = .ok n := by
  by_cases hb : b.size = pageSize
  · have hcheck : checkBuffer p b = .ok () := if_neg (not_not_intro hb)
    rw [decode, hcheck]
    cases read b with
    | error fault => exact .inl ⟨fault, rfl⟩
    | ok n => exact .inr ⟨n, rfl⟩
  · have hcheck : checkBuffer p b = .error (.corruptPage p (.bufferSize b.size)) := if_pos hb
    rw [decode, hcheck]
    exact .inl ⟨_, rfl⟩

theorem laid_ok {n : Node} (h : FitsPage n) (p : PageNo) {b : ByteArray} (hb : b.size = pageSize) :
    ∃ c, c.size = pageSize ∧ decode p c = .ok n ∧ Call.result (match n with
      | .leaf l => encodeLeaf p l.keys (l.entries.map Entry.value) l.next
      | .branch n => encodeBranch p n.keys n.children) b = (.ok (), c) := by
  cases n with
  | leaf l =>
    obtain ⟨c, hc, hsize, hread⟩ := encodeLeaf_ok (p := p) hb h
    exact ⟨c, hsize, decode_of_read hsize hread p, hc⟩
  | branch n =>
    obtain ⟨c, hc, hsize, hread⟩ := encodeBranch_ok (p := p) hb h.1 h.2
    exact ⟨c, hsize, decode_of_read hsize hread p, hc⟩

theorem encode_ok {n : Node} (h : FitsPage n) (p : PageNo) :
    ∃ b, b.size = pageSize ∧ decode p b = .ok n ∧
      ∀ {σ : Type} (s : σ), (encode p n : Call σ ByteArray).result s = (.ok b, s) := by
  obtain ⟨b, hsize, hdecode, hlaid⟩ := laid_ok h p (size_zeros pageSize)
  refine ⟨b, hsize, hdecode, ?_⟩
  intro σ s
  -- the node stays a variable here, so that the page is never computed
  unfold encode
  generalize hr : Call.result _ (zeros pageSize) = r
  cases hr.symm.trans hlaid
  simp only [Call.result_bind, Call.result_resume, Call.result_pure]

end PagedTree.Node
