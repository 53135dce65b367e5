import PagedTree.Proofs.NodeCapacity
import PagedTree.Proofs.WatchedReading

/-! # What a page holds

A page holds a node if its words say so: the count of cells, where each cell starts, and in each cell the
key and the value or the offset of a child. A buffer is decoded to the node that it holds, and to no
other; one that holds none is refused. No byte outside the buffer is looked at.
-/
namespace PagedTree.Node

variable {b : ByteArray}

/-- The entry whose cell starts there. -/
def EntryAt (b : ByteArray) (start : Nat) (e : Entry) : Prop :=
  word? 8 b start = some e.key.toNat ∧ word? 2 b (start + 8) = some e.value.size ∧
    start + 10 + e.value.size ≤ b.size ∧
      b.extract (start + 10) (start + 10 + e.value.size) = e.value

/-- The last child of a branch of so many separators: it lies below the cell of the last one, or where
the first cell would be. -/
def LastAt (b : ByteArray) (table : Nat) : Nat → PageNo → Prop
  | 0, child => ∃ start, word? 2 b table = some start ∧ word? 8 b start = some child.offset
  | last + 1, child => ∃ pos, word? 2 b (table + 2 * last) = some (pos + 8) ∧
      word? 8 b pos = some child.offset

/-- The node that a buffer holds by the words of its header, its table of addresses and its cells. A table
at zero is that of a page that has never been written. -/
inductive Stored (b : ByteArray) : Node → Prop
  | blank (htable : word? 2 b 7 = some 0) : Stored b (.leaf .empty)
  | leaf {table : Nat} {l : Leaf} (htable : word? 2 b 7 = some table) (hne : table ≠ 0)
      (hkind : word? 1 b 0 = some NodeKind.leaf.byte) (hcount : word? 2 b 3 = some l.entries.length)
      (hcells : ∀ i e, l.entries[i]? = some e →
        ∃ start, word? 2 b (table + 2 * i) = some start ∧ EntryAt b start e)
      (hlink : word? 8 b 10 = some ((l.next.map PageNo.offset).getD 0)) : Stored b (.leaf l)
  | branch {table : Nat} {n : Branch PageNo} (htable : word? 2 b 7 = some table) (hne : table ≠ 0)
      (hkind : word? 1 b 0 = some NodeKind.branch.byte) (hcount : word? 2 b 3 = some n.keys.length)
      (hshaped : n.Shaped)
      (hcells : ∀ i k c, n.keys[i]? = some k → n.children[i]? = some c →
        ∃ start, word? 2 b (table + 2 * i) = some start ∧ word? 8 b start = some k.toNat ∧
          word? 8 b (start + 8) = some c.offset)
      (hlast : ∀ c, n.children.getLast? = some c → LastAt b table n.keys.length c) :
      Stored b (.branch n)

/-! ## The parts of a page -/

theorem toNat_short {pos n : Nat} (h : word? 2 b pos = some n) : (UInt16.ofNat n).toNat = n :=
  UInt16.toNat_ofNat_of_lt' (word?_lt h)

theorem toNat_long {pos n : Nat} (h : word? 8 b pos = some n) : (UInt64.ofNat n).toNat = n :=
  UInt64.toNat_ofNat_of_lt' (word?_lt h)

theorem pageAt_ok_iff {offset : Nat} {p : PageNo} : pageAt offset = .ok p ↔ offset = p.offset := by
  rw [pageAt, ← PageNo.ofOffset?_eq_some_iff]
  cases PageNo.ofOffset? offset <;> simp

theorem childAt_ok_iff {pos : Nat} {p : PageNo} :
    childAt b pos = .ok p ↔ word? 8 b pos = some p.offset := by
  rw [childAt, except_bind_ok_iff]
  constructor
  · rintro ⟨n, hn, hp⟩
    rw [← pageAt_ok_iff.1 hp]
    exact field_ok_iff.1 hn
  · intro h
    exact ⟨_, field_ok_iff.2 h, pageAt_ok_iff.2 rfl⟩

theorem mapM_range'_inv {ε α : Type} {f : Nat → Except ε α} {n start : Nat} {xs : List α}
    (h : (List.range' start n).mapM f = .ok xs) :
    xs.length = n ∧ ∀ i x, xs[i]? = some x → f (start + i) = .ok x := by
  induction n generalizing start xs with
  | zero =>
    cases h
    simp
  | succ n ih =>
    rw [List.range'_succ, List.mapM_cons] at h
    obtain ⟨y, hy, h⟩ := exists_of_except_bind_ok h
    obtain ⟨ys, hys, h⟩ := exists_of_except_bind_ok h
    cases h
    obtain ⟨hlen, hrest⟩ := ih hys
    refine ⟨by rw [List.length_cons, hlen], ?_⟩
    intro i x hx
    cases i with
    | zero =>
      cases hx
      exact hy
    | succ i =>
      rw [← Nat.succ_add_eq_add_succ]
      exact hrest i x hx

theorem mapM_range_ok_iff {ε α : Type} {f : Nat → Except ε α} {n : Nat} {xs : List α} :
    (List.range n).mapM f = .ok xs ↔ xs.length = n ∧ ∀ i x, xs[i]? = some x → f i = .ok x := by
  constructor
  · intro h
    rw [List.range_eq_range'] at h
    obtain ⟨hlen, hx⟩ := mapM_range'_inv h
    exact ⟨hlen, fun i x hi => Nat.zero_add i ▸ hx i x hi⟩
  · rintro ⟨rfl, hx⟩
    exact mapM_range_ok fun i hi => hx i _ (List.getElem?_eq_getElem hi)

theorem readLeafCell_ok_iff {table i : Nat} {e : Entry} : readLeafCell b table i = .ok e ↔
    ∃ start, word? 2 b (table + 2 * i) = some start ∧ EntryAt b start e := by
  simp only [readLeafCell, cellStart, except_bind_ok_iff, field_ok_iff]
  constructor
  · rintro ⟨start, hstart, key, hkey, size, hsize, h⟩
    split at h
    case isFalse => cases h
    case isTrue hend =>
      cases h
      have hlen : (b.extract (start + 10) (start + 10 + size)).size = size := by
        rw [ByteArray.size_extract]
        omega
      refine ⟨start, hstart, ?_, ?_, ?_, ?_⟩
      · rw [toNat_long hkey]
        exact hkey
      · rw [hlen]
        exact hsize
      · rwa [hlen]
      · rw [hlen]
  · rintro ⟨start, hstart, hkey, hsize, hend, hvalue⟩
    refine ⟨start, hstart, _, hkey, _, hsize, ?_⟩
    rw [if_pos hend, hvalue, UInt64.ofNat_toNat]
    rfl

theorem readBranchCell_ok_iff {table i : Nat} {k : UInt64} {c : PageNo} :
    readBranchCell b table i = .ok (k, c) ↔ ∃ start, word? 2 b (table + 2 * i) = some start ∧
      word? 8 b start = some k.toNat ∧ word? 8 b (start + 8) = some c.offset := by
  simp only [readBranchCell, cellStart, except_bind_ok_iff, field_ok_iff, childAt_ok_iff]
  constructor
  · rintro ⟨start, hstart, key, hkey, child, hchild, h⟩
    cases h
    refine ⟨start, hstart, ?_, hchild⟩
    rw [toNat_long hkey]
    exact hkey
  · rintro ⟨start, hstart, hkey, hchild⟩
    refine ⟨start, hstart, _, hkey, _, hchild, ?_⟩
    rw [UInt64.ofNat_toNat]
    rfl

theorem readLastChild_ok_iff {table n : Nat} {c : PageNo} :
    readLastChild b table n = .ok c ↔ LastAt b table n c := by
  cases n with
  | zero =>
    simp only [readLastChild, LastAt, cellStart, except_bind_ok_iff, field_ok_iff, childAt_ok_iff,
      Nat.mul_zero, Nat.add_zero]
  | succ n =>
    simp only [readLastChild, LastAt, cellStart, except_bind_ok_iff, field_ok_iff]
    constructor
    · rintro ⟨start, hstart, h⟩
      split at h
      case isTrue => cases h
      case isFalse hle =>
        refine ⟨start - 8, ?_, childAt_ok_iff.1 h⟩
        rw [Nat.sub_add_cancel (Nat.le_of_not_lt hle)]
        exact hstart
    · rintro ⟨pos, hstart, hchild⟩
      refine ⟨pos + 8, hstart, ?_⟩
      rw [if_neg (by omega), Nat.add_sub_cancel]
      exact childAt_ok_iff.2 hchild

theorem header_none_iff : NodeHeader.decode b = .ok none ↔ word? 2 b 7 = some 0 := by
  simp only [NodeHeader.decode, except_bind_ok_iff, field_ok_iff]
  constructor
  · rintro ⟨table, htable, h⟩
    split at h
    case isTrue hzero => exact hzero ▸ htable
    case isFalse =>
      split at h
      case h_1 => cases h
      case h_2 =>
        obtain ⟨_, -, h⟩ := exists_of_except_bind_ok h
        obtain ⟨_, -, h⟩ := exists_of_except_bind_ok h
        obtain ⟨_, -, h⟩ := exists_of_except_bind_ok h
        cases h
  · intro h
    exact ⟨0, h, rfl⟩

theorem header_ok_iff {h : NodeHeader} : NodeHeader.decode b = .ok (some h) ↔
    word? 2 b 7 = some h.table.toNat ∧ h.table.toNat ≠ 0 ∧ word? 1 b 0 = some h.kind.byte ∧
      word? 2 b 3 = some h.cells.toNat ∧ word? 2 b 5 = some h.content.toNat ∧
        word? 8 b 10 = some h.link.toNat := by
  simp only [NodeHeader.decode, except_bind_ok_iff, field_ok_iff]
  constructor
  · rintro ⟨table, htable, hrest⟩
    split at hrest
    case isTrue => cases hrest
    case isFalse hne =>
      split at hrest
      case h_1 => cases hrest
      case h_2 kind hkind =>
        simp only [except_bind_ok_iff, field_ok_iff] at hrest
        obtain ⟨cells, hcells, content, hcontent, link, hlink, hrest⟩ := hrest
        cases hrest
        have hsize := (word?_eq_some.1 htable).1
        rw [toNat_short htable, toNat_short hcells, toNat_short hcontent, toNat_long hlink]
        exact ⟨htable, hne, word?_eq_some.2 ⟨by omega, NodeKind.ofByte?_eq_some.1 hkind⟩, hcells, hcontent,
          hlink⟩
  · rintro ⟨htable, hne, hkind, hcells, hcontent, hlink⟩
    refine ⟨_, htable, ?_⟩
    rw [if_neg hne, (word?_eq_some.1 hkind).2, NodeKind.ofByte?_eq_some.2 rfl]
    simp only [except_bind_ok_iff, field_ok_iff]
    refine ⟨_, hcells, _, hcontent, _, hlink, ?_⟩
    simp only [UInt16.ofNat_toNat, UInt64.ofNat_toNat]
    rfl

/-- Words of a page that make up a header, of which the content field may be anything. -/
theorem exists_header {kind : NodeKind} {table count link : Nat} (htable : word? 2 b 7 = some table)
    (hne : table ≠ 0) (hkind : word? 1 b 0 = some kind.byte) (hcount : word? 2 b 3 = some count)
    (hlink : word? 8 b 10 = some link) : ∃ h : NodeHeader, NodeHeader.decode b = .ok (some h) ∧
      h.kind = kind ∧ h.table.toNat = table ∧ h.cells.toNat = count ∧ h.link.toNat = link := by
  have hsize := (word?_eq_some.1 htable).1
  have hcontent : word? 2 b 5 = some (word 2 b 5) := word?_eq_some.2 ⟨by omega, rfl⟩
  refine ⟨⟨kind, .ofNat count, .ofNat (word 2 b 5), .ofNat table, .ofNat link⟩, header_ok_iff.2 ?_, rfl,
    toNat_short htable, toNat_short hcount, toNat_long hlink⟩
  rw [toNat_short htable, toNat_short hcount, toNat_short hcontent, toNat_long hlink]
  exact ⟨htable, hne, hkind, hcount, hcontent, hlink⟩

/-! ## Nodes -/

theorem readLeaf_ok_iff {h : NodeHeader} {l : Leaf} : readLeaf b h = .ok l ↔
    l.entries.length = h.cells.toNat ∧ (∀ i e, l.entries[i]? = some e →
      ∃ start, word? 2 b (h.table.toNat + 2 * i) = some start ∧ EntryAt b start e) ∧
        h.link.toNat = (l.next.map PageNo.offset).getD 0 := by
  simp only [readLeaf, except_bind_ok_iff, mapM_range_ok_iff, readLeafCell_ok_iff]
  constructor
  · rintro ⟨entries, ⟨hlen, hcells⟩, hrest⟩
    split at hrest
    case isTrue hzero =>
      cases hrest
      exact ⟨hlen, hcells, by rw [hzero]; rfl⟩
    case isFalse =>
      obtain ⟨q, hq, hrest⟩ := exists_of_except_bind_ok hrest
      cases hrest
      exact ⟨hlen, hcells, pageAt_ok_iff.1 hq⟩
  · rintro ⟨hlen, hcells, hlink⟩
    refine ⟨l.entries, ⟨hlen, hcells⟩, ?_⟩
    obtain ⟨entries, next⟩ := l
    cases next with
    | none => rw [if_pos (UInt64.toNat_inj.1 hlink)]; rfl
    | some q =>
      have hne : h.link ≠ 0 := by
        intro h0
        rw [h0] at hlink
        exact q.offset_ne_zero hlink.symm
      rw [if_neg hne, except_bind_ok_iff]
      exact ⟨q, pageAt_ok_iff.2 hlink, rfl⟩

theorem readBranch_ok_iff {h : NodeHeader} {n : Branch PageNo} : readBranch b h = .ok n ↔
    n.keys.length = h.cells.toNat ∧ n.Shaped ∧ (∀ i k c, n.keys[i]? = some k → n.children[i]? = some c →
      ∃ start, word? 2 b (h.table.toNat + 2 * i) = some start ∧ word? 8 b start = some k.toNat ∧
        word? 8 b (start + 8) = some c.offset) ∧
      ∀ c, n.children.getLast? = some c → LastAt b h.table.toNat n.keys.length c := by
  simp only [readBranch, except_bind_ok_iff, mapM_range_ok_iff, readLastChild_ok_iff]
  constructor
  · rintro ⟨cells, ⟨hlen, hcells⟩, last, hlast, hrest⟩
    cases hrest
    refine ⟨by simpa using hlen, by simp [Branch.Shaped], ?_, ?_⟩
    · intro i k c hk hc
      obtain ⟨⟨k', c'⟩, hcell, rfl⟩ := Option.map_eq_some_iff.1 (List.getElem?_map ▸ hk)
      have hlt := (List.getElem?_eq_some_iff.1 hcell).1
      rw [List.getElem?_append_left (by rwa [List.length_map]), List.getElem?_map, hcell] at hc
      cases hc
      exact readBranchCell_ok_iff.1 (hcells i _ hcell)
    · intro c hc
      rw [List.getLast?_concat] at hc
      cases hc
      rwa [List.length_map, hlen]
  · rintro ⟨hlen, hshaped, hcells, hlast⟩
    obtain ⟨keys, children⟩ := n
    obtain ⟨init, last, rfl⟩ : ∃ init last, children = init ++ [last] := by
      rcases List.eq_nil_or_concat children with rfl | ⟨init, last, rfl⟩
      · cases hshaped
      · exact ⟨init, last, List.concat_eq_append⟩
    have hinit : keys.length = init.length := by simpa [Branch.Shaped] using hshaped.symm
    refine ⟨keys.zip init, ⟨?_, ?_⟩, last, ?_, ?_⟩
    · rw [List.length_zip, ← hinit, Nat.min_self, ← hlen]
    · rintro i ⟨k, c⟩ hkc
      obtain ⟨hk, hc⟩ := List.getElem?_zip_eq_some.1 hkc
      have hlt := (List.getElem?_eq_some_iff.1 hc).1
      exact readBranchCell_ok_iff.2 (hcells i k c hk (by rwa [List.getElem?_append_left hlt]))
    · rw [← hlen]
      exact hlast last List.getLast?_concat
    · rw [List.map_fst_zip (Nat.le_of_eq hinit), List.map_snd_zip (Nat.le_of_eq hinit.symm)]
      rfl

/-- A page reads as the node that it holds. -/
theorem read_ok_iff (hb : b.size = pageSize) {n : Node} : read b = .ok n ↔ Stored b n := by
  rw [read, except_bind_ok_iff]
  constructor
  · rintro ⟨_ | h, hheader, hrest⟩
    · cases hrest
      exact .blank (header_none_iff.1 hheader)
    · obtain ⟨htable, hne, hkind, hcount, -, hlink⟩ := header_ok_iff.1 hheader
      dsimp only at hrest
      cases hk : h.kind with
      | leaf =>
        rw [hk] at hrest hkind
        obtain ⟨l, hleaf, hrest⟩ := exists_of_except_bind_ok hrest
        cases hrest
        obtain ⟨hlen, hcells, hnext⟩ := readLeaf_ok_iff.1 hleaf
        exact .leaf htable hne hkind (hlen ▸ hcount) hcells (hnext ▸ hlink)
      | branch =>
        rw [hk] at hrest hkind
        obtain ⟨n, hbranch, hrest⟩ := exists_of_except_bind_ok hrest
        cases hrest
        obtain ⟨hlen, hshaped, hcells, hlast⟩ := readBranch_ok_iff.1 hbranch
        exact .branch htable hne hkind (hlen ▸ hcount) hshaped hcells hlast
  · intro h
    cases h with
    | blank htable => exact ⟨none, header_none_iff.2 htable, rfl⟩
    | leaf htable hne hkind hcount hcells hlink =>
      obtain ⟨h, hheader, hk, rfl, hlen, hnext⟩ := exists_header htable hne hkind hcount hlink
      refine ⟨some h, hheader, ?_⟩
      simp only [hk]
      exact except_bind_ok_iff.2 ⟨_, readLeaf_ok_iff.2 ⟨hlen.symm, hcells, hnext⟩, rfl⟩
    | branch htable hne hkind hcount hshaped hcells hlast =>
      have hlink : word? 8 b 10 = some (word 8 b 10) := word?_eq_some.2 ⟨by rw [hb]; decide, rfl⟩
      obtain ⟨h, hheader, hk, rfl, hlen, -⟩ := exists_header htable hne hkind hcount hlink
      refine ⟨some h, hheader, ?_⟩
      simp only [hk]
      exact except_bind_ok_iff.2 ⟨_, readBranch_ok_iff.2 ⟨hlen.symm, hshaped, hcells, hlast⟩, rfl⟩

theorem size_of_check {p : PageNo} (h : checkBuffer p b = .ok ()) : b.size = pageSize := by
  refine Decidable.byContradiction fun hb => ?_
  rw [checkBuffer, if_pos hb] at h
  cases h

/-- A buffer is decoded if it has the size of a page and holds a node, and then to that node. -/
theorem decode_ok_iff {p : PageNo} {n : Node} :
    decode p b = .ok n ↔ b.size = pageSize ∧ Stored b n := by
  rw [decode, except_bind_ok_iff]
  constructor
  · rintro ⟨⟨⟩, hcheck, h⟩
    have hb := size_of_check hcheck
    refine ⟨hb, (read_ok_iff hb).1 ?_⟩
    cases hread : read b with
    | error => rw [hread] at h; cases h
    | ok m => rw [hread] at h; cases h; rfl
  · rintro ⟨hb, h⟩
    refine ⟨(), if_neg (not_not_intro hb), ?_⟩
    rw [(read_ok_iff hb).2 h]
    rfl

/-- Only a buffer of the size of a page is laid out. -/
theorem size_of_laid {n : Node} {p : PageNo} {c : ByteArray} (h : Call.result (match n with
      | .leaf l => encodeLeaf p l.keys (l.entries.map Entry.value) l.next
      | .branch n => encodeBranch p n.keys n.children) b = (.ok (), c)) : b.size = pageSize := by
  have hchecked : ∃ t, (Call.ofExcept (checkBuffer p b) : Call ByteArray Unit).result b = (.ok (), t) := by
    cases n
    all_goals
      obtain ⟨_, _, hget, h⟩ := Call.exists_of_bind_ok h
      cases hget
      obtain ⟨⟨⟩, t, hcheck, -⟩ := Call.exists_of_bind_ok h
      exact ⟨t, hcheck⟩
  obtain ⟨t, hcheck⟩ := hchecked
  cases hc : checkBuffer p b with
  | error e =>
    rw [hc] at hcheck
    cases hcheck
  | ok _ => exact size_of_check hc

/-- A node that has been laid onto a page comes back from it. -/
theorem decode_of_laid {n : Node} {p : PageNo} {c : ByteArray} (h : Call.result (match n with
      | .leaf l => encodeLeaf p l.keys (l.entries.map Entry.value) l.next
      | .branch n => encodeBranch p n.keys n.children) b = (.ok (), c)) (q : PageNo) :
    decode q c = .ok n := by
  have hfits : FitsPage n := by
    cases n with
    | leaf l => exact fits_leafCells (encodeLeaf_room (by simp [Leaf.keys]) h)
    | branch n =>
      obtain ⟨hshaped, hcount⟩ := encodeBranch_room h
      refine ⟨hshaped, ?_⟩
      rw [hshaped]
      simp only [NodeHeader.tableStart, NodeHeader.size, pageSize]
      omega
  obtain ⟨c', -, hdecode, hlaid⟩ := laid_ok hfits p (size_of_laid h)
  cases h.symm.trans hlaid
  exact decode_ok_iff.2 (decode_ok_iff.1 hdecode)

/-- The decoder takes no byte that is not there. It reports a corrupt page or decodes a node, and a node
is decoded exactly if the buffer has the size of a page and holds it, with the page at the stored offset
for every child and every link. A leaf then has as many values as keys and a branch one more child than
separators, and either comes back from every page that it is laid onto. -/
theorem decode_well_shaped (p : PageNo) (b : ByteArray) :
    Watched.decode p b = some (decode p b) ∧
      ((∃ fault, decode p b = .error (.corruptPage p fault)) ∨ ∃ n, decode p b = .ok n) ∧
      (∀ n, decode p b = .ok n ↔ b.size = pageSize ∧ Stored b n) ∧
      (∀ l, decode p b = .ok (.leaf l) → l.keys.length = (l.entries.map Entry.value).length ∧
        ∀ q c c', (encodeLeaf q l.keys (l.entries.map Entry.value) l.next).result c = (.ok (), c') →
          ∀ q', decode q' c' = .ok (.leaf l)) ∧
      ∀ n, decode p b = .ok (.branch n) → n.children.length = n.keys.length + 1 ∧
        ∀ q c c', (encodeBranch q n.keys n.children).result c = (.ok (), c') →
          ∀ q', decode q' c' = .ok (.branch n) := by
  refine ⟨Watched.decode_eq p b, decode_cases p b, fun n => decode_ok_iff, ?_, ?_⟩
  · intro l _
    refine ⟨by simp [Leaf.keys], fun q c c' hlaid q' => ?_⟩
    exact decode_of_laid (n := .leaf l) hlaid q'
  · intro n h
    refine ⟨decode_shaped h n rfl, fun q c c' hlaid q' => ?_⟩
    exact decode_of_laid (n := .branch n) hlaid q'

/-- A page with a branch of two children. -/
theorem decode_well_shaped_of_two_children : ∃ b, decode 3 b = .ok (.branch ⟨[5], [1, 2]⟩) ∧
    Stored b (.branch ⟨[5], [1, 2]⟩) := by
  obtain ⟨b, -, hdecode, -⟩ := encode_ok (n := .branch ⟨[5], [1, 2]⟩) ⟨rfl, by decide⟩ 3
  obtain ⟨-, -, hstored, -⟩ := decode_well_shaped 3 b
  exact ⟨b, hdecode, ((hstored _).1 hdecode).2⟩

end PagedTree.Node
