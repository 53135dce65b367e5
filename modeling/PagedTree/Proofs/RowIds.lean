import PagedTree.Proofs.CatalogHistory

/-! # Row ids where pages run out

A file may have nearly all its pages handed out although its tables need few of them, and then a row
can be refused for want of a page. As long as such calls have written nothing, later rows get ids that
none of the listed rows has. A call that is refused after a leaf has been split on the file is another
matter: the rows of the right half are listed still, but the next id is found without them.
-/
namespace PagedTree.Catalog

variable {ks : List Kept} {k : Kept} {master kept held : Shape}
  {s s' s₁ s₂ : PageStore} {ms : List Made} {name : String} {row : Row} {id : UInt64}
  {rs : List (UInt64 × Row)} {e : Entry} {fs : List PageNo} {ws : List (PageNo × Node)}

/-- The same database with more pages handed out, opened. -/
def Stretched (s s' : PageStore) : Prop :=
  ∃ h : Header, ∃ path, h.Sound ∧ s.header.freeOffset ≤ h.freeOffset ∧
    load path (.file (s.file.write 0 h.encode)) = .ok s'

theorem Keeps.with_cursor (h : Keeps ks master s) {header : Header} (hsound : header.Sound)
    (hle : s.header.freeOffset ≤ header.freeOffset) :
    Keeps ks master ⟨s.file.write 0 header.encode, header, []⟩ := by
  refine h.mono hsound (PageStore.synced_header hsound _ _) fun p n hn =>
    PageStore.view_congr ?_ ?_ hn
  · refine Nat.lt_of_lt_of_le (PageStore.lt_of_view hn) (Nat.div_le_div_right ?_)
    exact Nat.sub_le_sub_right (UInt32.le_iff_toNat_le.1 hle) _
  · have hp := p.headerSize_lt_offset
    have hsize := Header.size_encode header
    exact SparseFile.read_write_disjoint (by omega)

theorem Keeps.stretch (h : Keeps ks master s) (hs : Stretched s s') : Keeps ks master s' := by
  obtain ⟨header, path, hsound, hle, hopen⟩ := hs
  have hkeeps := h.with_cursor hsound hle
  cases hopen.symm.trans (hkeeps.reopen path).1
  exact hkeeps

/-- A row with the next id is the last one. -/
theorem Keeps.with_last (h : Keeps ks master s) (hk : k ∈ ks) (row : Row) :
    (∀ x ∈ k.tree.entries, x.key < .ofNat (k.made.rows.length + 1)) ∧
      k.tree.entriesWith ⟨.ofNat (k.made.rows.length + 1), row.encode⟩ =
        numbered ((k.made.rows ++ [row]).map Row.encode) := by
  have hlen := h.length_rows_lt hk
  rw [← List.length_map Row.encode] at hlen
  have hlast := Tree.numbered_lt hlen
  rw [← h.rows k hk, List.length_map] at hlast
  refine ⟨hlast, ?_⟩
  rw [(h.standing hk).ordered.entriesWith_last hlast, h.rows k hk, List.map_append,
    List.map_singleton, numbered_concat, List.length_map]

/-! ## As long as nothing has been written -/

/-- Calls that add rows, one after another. Those that were refused for want of a page had not written
one. -/
inductive Served : PageStore → PageStore → Prop where
  | refl (s : PageStore) : Served s s
  | added {s s' s'' : PageStore} {name : String} {row : Row} {id : UInt64} : Served s s' →
      (addRow name row).result s' = (.ok id, s'') → Served s s''
  | refused {s s' s'' : PageStore} {name : String} {row : Row} {i : Interrupt} : Served s s' →
      (addRow name row).result s' = (.error i, s'') →
      (i = .error .full → s''.journal = s'.journal) → Served s s''

/-- A call that was refused before it wrote a page has left everything as it was. -/
theorem RowAdded.eq_of_refused {i : Interrupt} (h : RowAdded ks master s name row (.error i) s')
    (hjournal : i = .error .full → s'.journal = s.journal) : s' = s := by
  cases h with
  | missing | tooLarge => rfl
  | @full pre post k fs ws kept held s' _ _ _ hins hwrote =>
    have hws : ws = [] := by
      by_contra hne
      exact hwrote.journal_ne hne (hjournal rfl)
    subst hws
    exact hins.eq_of_unwritten hwrote

/-- The same tables, none of which has lost a row. -/
def Later (ks ks' : List Kept) : Prop :=
  ∀ k ∈ ks, ∃ k' ∈ ks', k'.made.name = k.made.name ∧ k.made.rows.length ≤ k'.made.rows.length

theorem Later.with_row {pre post : List Kept} {k : Kept} (tree : Shape) :
    Later (pre ++ k :: post) (pre ++ ⟨{ k.made with rows := k.made.rows ++ [row] }, tree⟩ :: post) := by
  intro k' hk'
  rcases List.mem_append.1 hk' with hpre | hpost
  · exact ⟨k', by simp [hpre], rfl, Nat.le_refl _⟩
  rcases List.mem_cons.1 hpost with rfl | hpost
  · exact ⟨_, List.mem_append_right _ List.mem_cons_self, rfl, by simp⟩
  · exact ⟨k', by simp [hpost], rfl, Nat.le_refl _⟩

theorem Served.keeps (h : Served s s') (hkeeps : Keeps ks master s) :
    ∃ ks', Keeps ks' master s' ∧ Later ks ks' := by
  induction h with
  | refl => exact ⟨ks, hkeeps, fun k hk => ⟨k, hk, rfl, Nat.le_refl _⟩⟩
  | @added s' s'' name row id _ hrun ih =>
    obtain ⟨ks', hkeeps', hlater⟩ := ih
    obtain ⟨r, u, hrun', hadded⟩ := hkeeps'.addRow_ok name row
    cases hrun.symm.trans hrun'
    cases hadded with
    | @added pre post k fs ws tree s' hks _ _ _ _ hkeeps'' =>
      subst hks
      refine ⟨_, hkeeps'', fun k hk => ?_⟩
      obtain ⟨k', hk', hname, hle⟩ := hlater k hk
      obtain ⟨k'', hk'', hname', hle'⟩ := Later.with_row tree k' hk'
      exact ⟨k'', hk'', hname'.trans hname, Nat.le_trans hle hle'⟩
  | @refused s' s'' name row i _ hrun hjournal ih =>
    obtain ⟨ks', hkeeps', hlater⟩ := ih
    obtain ⟨r, u, hrun', hadded⟩ := hkeeps'.addRow_ok name row
    cases hrun.symm.trans hrun'
    exact ⟨ks', hadded.eq_of_refused hjournal ▸ hkeeps', hlater⟩

theorem Keeps.apart (h : Keeps ks master s) (hlisted : (Catalog.rows name).result s = (.ok rs, s₁))
    (hserved : Served s₁ s₂) (hadded : (addRow name row).result s₂ = (.ok id, s')) :
    ∀ r ∈ rs, r.1 ≠ id := by
  rcases exists_hit_or_miss ks name with ⟨pre, k, post, rfl, hname⟩ | hmiss
  · cases hlisted.symm.trans (h.rows_ok (k := k) (by simp) hname)
    obtain ⟨ks', hkeeps, hlater⟩ := hserved.keeps h
    obtain ⟨k', hk', hsame, hle⟩ := hlater k (by simp)
    obtain ⟨r, u, hrun, hrow⟩ := hkeeps.addRow_ok name row
    cases hadded.symm.trans hrun
    cases hrow with
    | @added pre' post' k'' fs ws tree s' hks hname'' =>
      obtain rfl := eq_of_hit hkeeps.names hk' (hsame ▸ hname) (hks ▸ by simp) hname''
      have hlen := hkeeps.length_rows_lt hk'
      intro r hr hid
      obtain ⟨x, hx, rfl⟩ := List.mem_map.1 hr
      have hlt := (List.mem_zipIdx (x := x.1) (i := x.2) hx).2.1
      have hnat := congrArg UInt64.toNat hid
      rw [UInt64.toNat_ofNat_of_lt' (by omega), UInt64.toNat_ofNat_of_lt' hlen] at hnat
      omega
  · have hnone := h.lists.onTable_miss hmiss Tree.scan
    rw [Catalog.rows, Call.result_bind_error hnone] at hlisted
    cases hlisted

/-! ## After a call that found no page -/

/-- The catalog is not touched by what becomes of a table. -/
theorem Keeps.lists_cut (h : Keeps ks master s) (hk : k ∈ ks)
    (hins : Insertion e k.tree fs (.stopped kept held) ws) (hwrote : s.Wrote fs ws s') :
    Lists ks master s' := by
  have hsound := h.forest.sound
  have htree : k.tree ∈ ks.map Kept.tree := List.mem_map_of_mem hk
  have htended := hins.confined.tended (h.standing hk) hsound hwrote
  have hne : master.page ≠ k.tree.page := by
    have hdistinct := h.forest.distinct
    rw [List.map_cons, List.nodup_cons] at hdistinct
    intro he
    exact hdistinct.1 (he ▸ List.mem_map_of_mem htree)
  refine ⟨hwrote.sound hsound, hwrote.synced hsound h.synced hins.confined.filled, ?_, h.page,
    h.entries, h.names⟩
  exact (htended.keeps (h.forest.standing master List.mem_cons_self)
    (h.forest.far (List.mem_cons_of_mem _ htree) master List.mem_cons_self hne)).1

/-- The rows that the table would have had are listed. -/
theorem Keeps.rows_cut (h : Keeps ks master s) (hk : k ∈ ks) (hname : sameName k.made.name name = true)
    (hins : Insertion ⟨.ofNat (k.made.rows.length + 1), row.encode⟩ k.tree fs (.stopped kept held) ws)
    (hwrote : s.Wrote fs ws s') (hws : ws ≠ []) (hrow : row.encode.size ≤ Tree.maxValueSize) :
    (Catalog.rows name).result s' =
      (.ok (((k.made.rows ++ [row]).zipIdx 1).map fun r => (.ofNat r.2, r.1)), s') := by
  have hsound := h.forest.sound
  have hscans := hins.scans_all (h.standing hk) (hwrote.unseen hsound) (hwrote.fresh hsound).1 hws
  rw [(h.with_last hk row).2] at hscans
  have hscan := Tree.on_scan (hwrote.sound hsound) (hscans.sameWay (hwrote.view hsound).sameWay)
  refine (h.lists_cut hk hins hwrote).rows_of_scan hk hname hscan fun r hr => ?_
  rcases List.mem_append.1 hr with hr | hr
  · exact h.row_fits hk r hr
  · rw [List.mem_singleton.1 hr]
    exact hrow

/-- The next id is that of a row which was there. -/
theorem Keeps.nextId_cut (h : Keeps ks master s) (hk : k ∈ ks)
    (hname : sameName k.made.name name = true)
    (hins : Insertion ⟨.ofNat (k.made.rows.length + 1), row.encode⟩ k.tree fs (.stopped kept held) ws)
    (hwrote : s.Wrote fs ws s') (hws : ws ≠ []) : ∃ n, n ≤ k.made.rows.length ∧
      (onTable name Tree.nextId).result s' = (.ok (.ofNat (n + 1)), s') := by
  have hsound := h.forest.sound
  have hstands := h.standing hk
  have hlen := h.length_rows_lt hk
  obtain ⟨hlast, hwith⟩ := h.with_last hk row
  have hcut := hins.cutOff hstands (h.dense k hk) hlast hws
  have hleft := hins.left hstands (hwrote.unseen hsound) (hwrote.fresh hsound).1
  have hon := hleft.on.mono fun q _ n => hwrote.view hsound q n
  obtain ⟨lo, hi, hordered⟩ := hleft.ordered
  -- the entries that the file keeps are the first ones
  obtain ⟨es, hne, hes⟩ := hcut.lost
  rw [hwith] at hes
  have hkept := eq_numbered_of_prefix hes
  have hcount := congrArg List.length hes
  have hpos := List.length_pos_iff.2 hne
  rw [length_numbered, List.length_map, List.length_append, List.length_singleton,
    List.length_append] at hcount
  obtain ⟨u, hload, hstore, hroot, hcoherent⟩ := Tree.load_ok (hwrote.sound hsound) hon.top
  obtain ⟨u', hgreatest, hadv⟩ := Tree.greatestKey_ok hcoherent (hstore ▸ hon) hordered hroot.symm
    fun hnone => absurd hnone (hcut.getLast?_ne_none hordered)
  have hlength : (((k.made.rows ++ [row]).map Row.encode).take kept.entries.length).length =
      kept.entries.length := by
    apply List.length_take_of_le
    rw [List.length_map, List.length_append, List.length_singleton]
    omega
  rw [hordered.greatestKey, hkept] at hgreatest
  have hnext := Tree.nextId_ok hgreatest (Tree.numbered_last (by rw [hlength]; omega))
  rw [hlength] at hnext
  refine ⟨kept.entries.length, by omega, ?_⟩
  rw [(h.lists_cut hk hins hwrote).onTable_hit hk hname, Tree.on, ← hleft.page, Call.result_bind_ok hload,
    hnext, ← hadv.store_eq.trans hstore]
  rfl

/-- A row gets the id that was next. -/
theorem nextId_of_addRow (h : (addRow name row).result s = (.ok id, s')) :
    ((onTable name Tree.nextId).result s).1 = .ok id := by
  rw [addRow, onTable] at h
  obtain ⟨found, s₁, hfind, hfound⟩ := Call.exists_of_bind_ok h
  rw [onTable, Call.result_bind_ok hfind]
  cases found with
  | none => cases hfound
  | some t =>
    obtain ⟨u, s₂, hload, hon⟩ := Call.exists_of_bind_ok hfound
    simp only [Tree.on, Call.result_bind_ok hload]
    rcases hrun : (append fun _ => row.encode).result u with ⟨r, u'⟩
    rw [hrun] at hon
    obtain rfl : r = .ok id := congrArg Prod.fst hon
    obtain ⟨next, u₁, hnext, hrest⟩ := Call.exists_of_bind_ok hrun
    obtain ⟨-, u₂, -, hlast⟩ := Call.exists_of_bind_ok hrest
    cases hlast
    rw [hnext]
    rfl

/-- What was written before a page was missing makes the next id one of a listed row. -/
theorem Keeps.cut_repeats (h : Keeps ks master s)
    (hrun : (addRow name row).result s = (.error (.error .full), s')) (hwrote : s'.journal ≠ s.journal) :
    ∃ rs id, (Catalog.rows name).result s' = (.ok rs, s') ∧
      (onTable name Tree.nextId).result s' = (.ok id, s') ∧ ∃ r ∈ rs, r.1 = id := by
  obtain ⟨r, u, hrun', hadded⟩ := h.addRow_ok name row
  cases hrun.symm.trans hrun'
  cases hadded with
  | @full pre post k fs ws kept held s' hks hname hrow hins hwrote' =>
    have hk : k ∈ ks := hks ▸ by simp
    have hws : ws ≠ [] := by
      rintro rfl
      exact hwrote (by rw [hins.eq_of_unwritten hwrote'])
    obtain ⟨n, hn, hnext⟩ := h.nextId_cut hk hname hins hwrote' hws
    obtain ⟨r, hr⟩ : ∃ r, (k.made.rows ++ [row])[n]? = some r :=
      ⟨_, List.getElem?_eq_getElem (by rw [List.length_append, List.length_singleton]; omega)⟩
    have hmem : (r, 1 + n) ∈ (k.made.rows ++ [row]).zipIdx 1 := by
      apply List.mem_of_getElem?
      rw [List.getElem?_zipIdx, hr]
      rfl
    exact ⟨_, _, h.rows_cut hk hname hins hwrote' hws hrow, hnext, _, List.mem_map_of_mem hmem,
      by rw [Nat.add_comm]⟩

/-! ## The ids that rows get -/

/-- What becomes of row ids from a store on. -/
structure Numbering (s : PageStore) : Prop where
  /-- As long as the calls that found no page had not written one, a new row has a new id. -/
  apart : ∀ {name : String} {row : Row} {rs : List (UInt64 × Row)} {id : UInt64}
    {s₁ s₂ s₃ : PageStore}, (rows name).result s = (.ok rs, s₁) → Served s₁ s₂ →
      (addRow name row).result s₂ = (.ok id, s₃) → ∀ r ∈ rs, r.1 ≠ id
  /-- After a call that found no page and had written one, the next row has the id of a listed one. -/
  repeats : ∀ {name : String} {row : Row} {s₁ : PageStore},
    (addRow name row).result s = (.error (.error .full), s₁) → s₁.journal ≠ s.journal →
      ∃ rs id, (rows name).result s₁ = (.ok rs, s₁) ∧
        (onTable name Tree.nextId).result s₁ = (.ok id, s₁) ∧ (∃ r ∈ rs, r.1 = id) ∧
        ∀ {row' : Row} {id' : UInt64} {s₂ : PageStore},
          (addRow name row').result s₁ = (.ok id', s₂) → id' = id

/-- However many pages have been handed out, row ids stay apart until a call that finds no page has
written one, and no longer. -/
theorem row_ids_until_cut (hlived : Lived ms s) (hopened : Stretched s s₁) (hserved : Served s₁ s₂) :
    Numbering s₂ := by
  obtain ⟨ks, master, rfl, hkeeps⟩ := hlived.keeps
  obtain ⟨ks₂, hkeeps₂, -⟩ := hserved.keeps (hkeeps.stretch hopened)
  refine ⟨hkeeps₂.apart, ?_⟩
  intro name row s₃ hrun hwrote
  obtain ⟨rs, id, hrows, hnext, hlisted⟩ := hkeeps₂.cut_repeats hrun hwrote
  refine ⟨rs, id, hrows, hnext, hlisted, ?_⟩
  intro row' id' s₄ hadded
  have hgiven := nextId_of_addRow hadded
  rw [hnext] at hgiven
  exact (Except.ok.inj hgiven).symm

/-- Where one page is left, a row that makes a root leaf split is refused after the leaf has been
written. -/
theorem Keeps.addRow_cut (h : Keeps ks master s) (hk : k ∈ ks) (hname : sameName k.made.name name = true)
    {p : PageNo} {l : Leaf} (hleaf : k.tree = .leaf p l) (hfull : order ≤ k.made.rows.length + 1)
    (hrow : row.encode.size ≤ Tree.maxValueSize) (hroom : s.HasRoom)
    (hlast : UInt32.size ≤ firstPageOffset + pageSize * (s.pageCount + 2)) :
    ∃ s', (addRow name row).result s = (.error (.error .full), s') ∧ s'.journal ≠ s.journal := by
  have hsplits : ∀ e : Entry, (l.insert e).isFull = true := by
    intro e
    have hrows := h.rows k hk
    rw [hleaf, Shape.entries_leaf] at hrows
    rw [Leaf.isFull, decide_eq_true_eq, Leaf.length_insert, hrows, length_numbered, List.length_map]
    exact hfull
  obtain ⟨r, s', hrun, hadded⟩ := h.addRow_ok name row
  cases hadded with
  | @added pre post k' fs ws tree s' hks hname' _ hins hwrote =>
    obtain rfl := eq_of_hit h.names hk hname (hks ▸ by simp) hname'
    rw [hleaf] at hins
    have hfits := hwrote.fits h.forest.sound
    rcases hins.of_full_leaf (hsplits _) with ⟨_, _, hlen⟩ | ⟨_, _, _, _, _, hg, _⟩ | ⟨hg, _⟩
    · rw [hlen] at hfits
      exact absurd hfits (Nat.not_lt.2 hlast)
    · cases hg
    · cases hg
  | missing hmiss => exact absurd hname (by simp [hmiss k hk])
  | tooLarge hsize => exact absurd hrow (Nat.not_le.2 hsize)
  | @full pre post k' fs ws kept held s' hks hname' _ hins hwrote hend =>
    obtain rfl := eq_of_hit h.names hk hname (hks ▸ by simp) hname'
    rw [hleaf] at hins
    rcases hins.of_full_leaf (hsplits _) with ⟨_, hg, _⟩ | ⟨_, _, _, _, _, _, _, hws⟩ | ⟨_, rfl, rfl⟩
    · cases hg
    · exact ⟨s', hrun, hwrote.journal_ne hws⟩
    · rw [hwrote.eq_of_nil] at hend
      exact absurd hroom hend

/-- A database with a table, in which one page is left. -/
theorem exists_stretched : ∃ s s₁ k master p l, Lived [⟨"t", "CREATE TABLE t (a)", []⟩] s ∧
    Stretched s s₁ ∧ Keeps [k] master s₁ ∧ k.made = ⟨"t", "CREATE TABLE t (a)", []⟩ ∧
    k.tree = .leaf p l ∧ s₁.pageCount = 131070 := by
  obtain ⟨s, master, page, hlived, hkeeps, hcount⟩ :=
    @exists_table "t" "CREATE TABLE t (a)" (by decide +kernel)
  let last : Header := ⟨.ofNat pageSize, 4294901861⟩
  have hsound : last.Sound := ⟨by decide, by decide⟩
  have hle : s.header.freeOffset ≤ last.freeOffset := by
    rw [UInt32.le_iff_toNat_le, PageStore.freeOffset_eq hkeeps.forest.sound, hcount]
    decide
  have hkeeps₁ := hkeeps.with_cursor hsound hle
  have hpages : last.pageCount = 131070 := by decide
  exact ⟨s, _, _, master, page, _, hlived, ⟨last, "db", hsound, hle, (hkeeps₁.reopen "db").1⟩,
    hkeeps₁, rfl, rfl, hpages⟩

/-- With one page left a row gets an id of its own, although one that is too large has been refused. A
leaf that is to split then finds no second page, and the next id is that of a listed row. -/
theorem row_ids_until_cut_of_four : ∃ s s₁ s₂ s₃ s₄ rs id, Lived [⟨"t", "CREATE TABLE t (a)", []⟩] s ∧
    Stretched s s₁ ∧ Served s₁ s₂ ∧ (rows "t").result s₂ = (.ok rs, s₂) ∧ rs ≠ [] ∧
    (addRow "t" [.real 0]).result s₂ = (.ok id, s₃) ∧ (∀ r ∈ rs, r.1 ≠ id) ∧
    (addRow "t" [.real 0]).result s₃ = (.error (.error .full), s₄) ∧
    ∃ rs' id', (rows "t").result s₄ = (.ok rs', s₄) ∧
      (onTable "t" Tree.nextId).result s₄ = (.ok id', s₄) ∧ ∃ r ∈ rs', r.1 = id' := by
  have hname : sameName "t" "t" = true := by decide +kernel
  have hrow : (Row.encode [.real 0]).size ≤ Tree.maxValueSize := by decide +kernel
  have hlarge : Tree.maxValueSize < (Row.encode (List.replicate 1000 (.real 0))).size := by
    rw [Row.size_encode, List.map_replicate, List.sum_replicate_nat]
    decide
  obtain ⟨s, s₁, ⟨_, _⟩, master, p, l, hlived, hopened, hkeeps, rfl, rfl, hcount⟩ := exists_stretched
  obtain ⟨l₁, u, hrun₁, hkeeps₁, hcount₁⟩ :=
    hkeeps.addRow_roomy hname rfl (show 0 + 1 < order by decide) hrow
  have hrefused := hkeeps₁.addRow_tooLarge List.mem_cons_self hname hlarge
  obtain ⟨l₂, s₂, hrun₂, hkeeps₂, hcount₂⟩ :=
    hkeeps₁.addRow_roomy hname rfl (show 1 + 1 < order by decide) hrow
  obtain ⟨l₃, s₃, hrun₃, hkeeps₃, hcount₃⟩ :=
    hkeeps₂.addRow_roomy hname rfl (show 2 + 1 < order by decide) hrow
  have hpages : s₃.pageCount = 131070 := by rw [hcount₃, hcount₂, hcount₁, hcount]
  have hroom : s₃.HasRoom :=
    (PageStore.hasRoom_iff hkeeps₃.forest.sound).2 (by rw [hpages]; decide)
  obtain ⟨s₄, hrun₄, hwrote⟩ := hkeeps₃.addRow_cut List.mem_cons_self hname rfl
    (show order ≤ 3 + 1 by decide) hrow hroom (by rw [hpages]; decide)
  have hserved := (((Served.refl s₁).added hrun₁).refused hrefused fun _ => rfl).added hrun₂
  have hlisted := hkeeps₂.rows_ok List.mem_cons_self hname
  have happart := (row_ids_until_cut hlived hopened hserved).apart hlisted (.refl _) hrun₃
  obtain ⟨rs, id, hrows, hnext, hrepeated, -⟩ :=
    (row_ids_until_cut hlived hopened (hserved.added hrun₃)).repeats hrun₄ hwrote
  exact ⟨s, s₁, s₂, s₃, s₄, _, _, hlived, hopened, hserved, hlisted, by simp, hrun₃, happart, hrun₄, rs,
    id, hrows, hnext, hrepeated⟩

end PagedTree.Catalog
