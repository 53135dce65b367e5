import PagedTree.Proofs.CatalogContents

/-! # Adding to a catalog

A new table gets a tree on a page of its own before the catalog lists it, so a call that ends in
between leaves a page that no table uses. A new row goes behind the last row of its table. The trees
of all other tables stay as they were.
-/
namespace PagedTree.Catalog

variable {ks pre post : List Kept} {k : Kept} {master : Shape} {s s' : PageStore} {name sql : String}

/-- The catalog with a table more, which has no rows yet. -/
theorem Keeps.with_table (h : Keeps ks master s) {page : PageNo} {master' : Shape}
    (hforest : s'.Forest ([.leaf page .empty] ++ master' :: ks.map Kept.tree))
    (hpage : master'.page = master.page)
    (hentries : master'.entries = numbered (ks.map Kept.bytes ++
      [Kept.bytes ⟨⟨name, sql, []⟩, .leaf page .empty⟩]))
    (hmiss : ∀ k ∈ ks, sameName k.made.name name = false) :
    Keeps (ks ++ [⟨⟨name, sql, []⟩, .leaf page .empty⟩]) master' s' := by
  refine ⟨?_, hpage.trans h.page, ?_, ?_, ?_, ?_⟩
  · have hperm : (master' :: (ks ++ [(⟨⟨name, sql, []⟩, .leaf page .empty⟩ : Kept)]).map Kept.tree).Perm
        ([.leaf page .empty] ++ master' :: ks.map Kept.tree) := by
      rw [List.map_append, ← List.cons_append]
      exact List.perm_append_comm
    exact hforest.of_subset (fun c hc => hperm.subset hc)
      ((hperm.map Shape.page).symm.nodup hforest.distinct)
  · rw [hentries, List.map_append]
    rfl
  · intro k hk
    rcases List.mem_append.1 hk with hk | hk
    · exact h.rows k hk
    · rw [List.mem_singleton.1 hk, Shape.entries_leaf]
      rfl
  · intro k hk
    rcases List.mem_append.1 hk with hk | hk
    · exact h.dense k hk
    · rw [List.mem_singleton.1 hk]
      exact .leaf page .empty
  · refine List.pairwise_append.2 ⟨h.names, List.pairwise_singleton .., ?_⟩
    intro k hk k' hk'
    rw [List.mem_singleton.1 hk']
    exact hmiss k hk

/-- The catalog with a row more in one of its tables. -/
theorem Keeps.with_row (h : Keeps (pre ++ k :: post) master s) {tree : Shape} {row : Row}
    (hforest : s'.Forest ((master :: pre.map Kept.tree) ++ tree :: post.map Kept.tree))
    (hpage : tree.page = k.tree.page) (hdense : tree.Dense)
    (hentries : tree.entries = numbered (k.made.rows.map Row.encode ++ [row.encode])) :
    Keeps (pre ++ ⟨{ k.made with rows := k.made.rows ++ [row] }, tree⟩ :: post) master s' := by
  refine ⟨by simpa using hforest, h.page, ?_, ?_, ?_, ?_⟩
  · have hbytes : Kept.bytes ⟨{ k.made with rows := k.made.rows ++ [row] }, tree⟩ = k.bytes := by
      simp only [Kept.bytes, Kept.table, hpage]
    rw [h.entries]
    simp [hbytes]
  · intro k' hk'
    rcases List.mem_append.1 hk' with hk' | hk'
    · exact h.rows k' (by simp [hk'])
    rcases List.mem_cons.1 hk' with rfl | hk'
    · rw [hentries, List.map_append]
      rfl
    · exact h.rows k' (by simp [hk'])
  · intro k' hk'
    rcases List.mem_append.1 hk' with hk' | hk'
    · exact h.dense k' (by simp [hk'])
    rcases List.mem_cons.1 hk' with rfl | hk'
    · exact hdense
    · exact h.dense k' (by simp [hk'])
  · simpa only [List.pairwise_append, List.pairwise_cons, List.mem_cons, forall_eq_or_imp] using
      h.names

/-- How it ends when a table is to be added. -/
inductive TableAdded (ks : List Kept) (master : Shape) (s : PageStore) (name sql : String) :
    Except Interrupt Table → PageStore → Prop where
  | added {e : Entry} {page : PageNo} {fs : List PageNo} {ws : List (PageNo × Node)}
      {master' : Shape} {s' : PageStore} : (∀ k ∈ ks, sameName k.made.name name = false) →
      Insertion e master fs (.whole master') ws →
      s.Wrote (page :: fs) ((page, .leaf .empty) :: ws) s' →
      Keeps (ks ++ [⟨⟨name, sql, []⟩, .leaf page .empty⟩]) master' s' →
      TableAdded ks master s name sql (.ok ⟨.ofNat (ks.length + 1), name, page, sql⟩) s'
  | taken : (∃ k ∈ ks, sameName k.made.name name = true) →
      TableAdded ks master s name sql (.error (.error (.tableExists name))) s
  | tooLarge {page : PageNo} {s' : PageStore} : (∀ k ∈ ks, sameName k.made.name name = false) →
      Keeps ks master s' →
      Tree.maxValueSize < (⟨.ofNat (ks.length + 1), name, page, sql⟩ : Table).encode.size →
      Tree.create.result s = (.ok page, s') →
      TableAdded ks master s name sql (.error (.error (.valueTooLarge
        (⟨.ofNat (ks.length + 1), name, page, sql⟩ : Table).encode.size Tree.maxValueSize))) s'
  | full {s' : PageStore} : (∀ k ∈ ks, sameName k.made.name name = false) →
      (s.HasRoom → ∃ e page fs kept held ws, Insertion e master fs (.stopped kept held) ws ∧
        s.Wrote (page :: fs) ((page, .leaf .empty) :: ws) s') → ¬s'.HasRoom →
      TableAdded ks master s name sql (.error (.error .full)) s'

theorem Keeps.addTable_ok (h : Keeps ks master s) (name sql : String) : ∃ r s',
    (addTable name sql).result s = (r, s') ∧ TableAdded ks master s name sql r s' := by
  rcases exists_hit_or_miss ks name with ⟨pre, k, post, rfl, hname⟩ | hmiss
  · refine ⟨_, s, ?_, .taken ⟨k, by simp, hname⟩⟩
    rw [addTable, Call.result_bind_ok (h.lists.find?_hit hname)]
    rfl
  rw [addTable, Call.result_bind_ok (h.lists.find?_miss hmiss)]
  by_cases hroom : s.HasRoom
  · obtain ⟨s₁, hcreate, hwrote, hsynced, hstands⟩ := Tree.create_ok h.forest.sound hroom
    obtain ⟨htended, hnew⟩ := Tree.create_tended h.forest.sound hcreate
    generalize UInt32.ofNat s.pageCount = page at *
    have hforest : s₁.Forest (.leaf page .empty :: master :: ks.map Kept.tree) :=
      h.forest.plant htended hnew hstands hsynced
    -- until it is listed the new tree is one that no table uses
    have hold : Keeps ks master s₁ := ⟨hforest.of_subset (fun c hc => List.mem_cons_of_mem _ hc)
      h.forest.distinct, h.page, h.entries, h.rows, h.dense, h.names⟩
    obtain ⟨t, rfl, hrep, hon⟩ := hold.lists.on_master
      (append fun id => (⟨id, name, page, sql⟩ : Table).encode)
    obtain ⟨r, t', hrun, happended⟩ := hrep.append_ok h.entries
      fun id => (⟨id, name, page, sql⟩ : Table).encode
    rw [hrun] at hon
    rw [List.length_map] at happended
    simp only [Option.isSome_none, Bool.false_eq_true, if_false]
    rw [Call.result_bind_ok hcreate]
    cases happended with
    | @added fs ws master' t' hsize hins hwrote' hrep' hentries =>
      have hchanged : t'.store.Forest ([.leaf page .empty] ++ master' :: ks.map Kept.tree) :=
        PageStore.Forest.replace hforest
          (hins.confined.tended hrep.stands hforest.sound hwrote') hins.page hrep'.stands hrep'.synced
      refine ⟨_, t'.store, ?_, .added hmiss hins (hwrote.trans hwrote')
        (h.with_table hchanged hins.page hentries hmiss)⟩
      rw [Call.result_bind_ok hon]
      rfl
    | full _ hins hwrote' hfull =>
      exact ⟨_, t'.store, Call.result_bind_error hon _,
        .full hmiss (fun _ => ⟨_, _, _, _, _, _, hins, hwrote.trans hwrote'⟩) hfull⟩
    | tooLarge hsize hsame =>
      exact ⟨_, t'.store, Call.result_bind_error hon _,
        .tooLarge hmiss (hsame ▸ hold) hsize (hsame ▸ hcreate)⟩
  · refine ⟨_, s, ?_, .full hmiss (fun h => absurd h hroom) hroom⟩
    simp only [Option.isSome_none, Bool.false_eq_true, if_false]
    rw [Call.result_bind_error (Tree.create_full hroom)]

/-- How it ends when a row is to be added to a table. -/
inductive RowAdded (ks : List Kept) (master : Shape) (s : PageStore) (name : String) (row : Row) :
    Except Interrupt UInt64 → PageStore → Prop where
  | added {pre post : List Kept} {k : Kept} {fs : List PageNo} {ws : List (PageNo × Node)}
      {tree : Shape} {s' : PageStore} : ks = pre ++ k :: post → sameName k.made.name name = true →
      row.encode.size ≤ Tree.maxValueSize →
      Insertion ⟨.ofNat (k.made.rows.length + 1), row.encode⟩ k.tree fs (.whole tree) ws →
      s.Wrote fs ws s' →
      Keeps (pre ++ ⟨{ k.made with rows := k.made.rows ++ [row] }, tree⟩ :: post) master s' →
      RowAdded ks master s name row (.ok (.ofNat (k.made.rows.length + 1))) s'
  | missing : (∀ k ∈ ks, sameName k.made.name name = false) →
      RowAdded ks master s name row (.error (.error (.noSuchTable name))) s
  | tooLarge : Tree.maxValueSize < row.encode.size →
      RowAdded ks master s name row
        (.error (.error (.valueTooLarge row.encode.size Tree.maxValueSize))) s
  | full {pre post : List Kept} {k : Kept} {fs : List PageNo} {ws : List (PageNo × Node)}
      {kept held : Shape} {s' : PageStore} : ks = pre ++ k :: post →
      sameName k.made.name name = true → row.encode.size ≤ Tree.maxValueSize →
      Insertion ⟨.ofNat (k.made.rows.length + 1), row.encode⟩ k.tree fs (.stopped kept held) ws →
      s.Wrote fs ws s' → ¬s'.HasRoom → RowAdded ks master s name row (.error (.error .full)) s'

theorem Keeps.addRow_ok (h : Keeps ks master s) (name : String) (row : Row) : ∃ r s',
    (addRow name row).result s = (r, s') ∧ RowAdded ks master s name row r s' := by
  rcases exists_hit_or_miss ks name with ⟨pre, k, post, rfl, hname⟩ | hmiss
  · have hk : k ∈ pre ++ k :: post := by simp
    obtain ⟨t, rfl, hrep, hon⟩ := h.on_tree hk (append fun _ => row.encode)
    obtain ⟨r, t', hrun, happended⟩ := hrep.append_ok (h.rows k hk) fun _ => row.encode
    rw [hrun] at hon
    rw [List.length_map] at happended
    refine ⟨r, t'.store, (h.lists.onTable_hit hk hname _).trans hon, ?_⟩
    cases happended with
    | @added fs ws tree t' hsize hins hwrote hrep' hentries =>
      have htrees : master :: (pre ++ k :: post).map Kept.tree =
          (master :: pre.map Kept.tree) ++ k.tree :: post.map Kept.tree := by simp
      have hforest := h.forest
      rw [htrees] at hforest
      have hchanged := hforest.replace (hins.confined.tended hrep.stands hforest.sound hwrote)
        hins.page hrep'.stands hrep'.synced
      exact .added rfl hname hsize hins hwrote
        (h.with_row hchanged hins.page (hins.dense (h.dense k hk)) hentries)
    | full hsize hins hwrote hfull => exact .full rfl hname hsize hins hwrote hfull
    | tooLarge hsize hsame => exact hsame ▸ .tooLarge hsize
  · exact ⟨_, s, h.lists.onTable_miss hmiss _, .missing hmiss⟩

theorem of_singleton {k' : Kept} (h : [k] = pre ++ k' :: post) : k' = k ∧ pre = [] ∧ post = [] := by
  cases pre with
  | nil => simpa [eq_comm] using h
  | cons => simp at h

/-- A table that is a leaf below the order takes a row in without another page. -/
theorem Keeps.addRow_roomy (h : Keeps [k] master s) (hname : sameName k.made.name name = true)
    {p : PageNo} {l : Leaf} (hleaf : k.tree = .leaf p l) (hroom : k.made.rows.length + 1 < order)
    {row : Row} (hrow : row.encode.size ≤ Tree.maxValueSize) : ∃ l' s',
      (addRow name row).result s = (.ok (.ofNat (k.made.rows.length + 1)), s') ∧
      Keeps [⟨{ k.made with rows := k.made.rows ++ [row] }, .leaf p l'⟩] master s' ∧
      s'.pageCount = s.pageCount := by
  have hlen : l.entries.length + 1 < order := by
    have hrows := h.rows k List.mem_cons_self
    rw [hleaf, Shape.entries_leaf] at hrows
    rwa [hrows, length_numbered, List.length_map]
  obtain ⟨r, s', hrun, hadded⟩ := h.addRow_ok name row
  cases hadded with
  | @added pre post k' fs ws tree s' hks _ _ hins hwrote hkeeps =>
    obtain ⟨rfl, rfl, rfl⟩ := of_singleton hks
    rw [hleaf] at hins
    obtain ⟨htree, rfl⟩ := hins.roomy hlen
    cases htree
    exact ⟨_, s', hrun, hkeeps, hwrote.pageCount_eq h.forest.sound⟩
  | missing hmiss => exact absurd hname (by simp [hmiss k List.mem_cons_self])
  | tooLarge hsize => exact absurd hrow (Nat.not_le.2 hsize)
  | @full pre post k' fs ws kept held s' hks _ _ hins =>
    obtain ⟨rfl, rfl, rfl⟩ := of_singleton hks
    rw [hleaf] at hins
    cases (hins.roomy hlen).1

/-- A row that is too large is refused. -/
theorem Keeps.addRow_tooLarge (h : Keeps ks master s) (hk : k ∈ ks)
    (hname : sameName k.made.name name = true) {row : Row} (hrow : Tree.maxValueSize < row.encode.size) :
    (addRow name row).result s =
      (.error (.error (.valueTooLarge row.encode.size Tree.maxValueSize)), s) := by
  obtain ⟨r, s', hrun, hadded⟩ := h.addRow_ok name row
  rw [hrun]
  cases hadded with
  | added _ _ hsize | full _ _ hsize => exact absurd hsize (Nat.not_le.2 hrow)
  | missing hmiss => exact absurd hname (by simp [hmiss k hk])
  | tooLarge => rfl

theorem create_iff {disk : Disk} : create disk = .ok s ↔ ∃ store page,
    PageStore.create disk = .ok store ∧ Tree.create.result store = (.ok page, s) := by
  unfold create
  split
  case h_1 e hstore =>
    constructor
    · intro h
      cases h
    · rintro ⟨store, page, hstore', -⟩
      cases hstore.symm.trans hstore'
  case h_2 store hstore =>
    split
    case h_1 r s' hcreate =>
      constructor
      · intro h
        cases r with
        | error => cases h
        | ok page =>
          cases h
          exact ⟨store, page, hstore, hcreate⟩
      · rintro ⟨store', page, hstore', hcreate'⟩
        cases hstore.symm.trans hstore'
        cases hcreate.symm.trans hcreate'
        rfl

/-- A new file holds an empty catalog. -/
theorem create_keeps {disk : Disk} (h : create disk = .ok s) :
    Keeps [] (.leaf root .empty) s ∧ s.pageCount = 1 := by
  obtain ⟨store, page, hstore, hcreate⟩ := create_iff.1 h
  have hsound := (PageStore.Reached.create hstore).sound
  have hcount : store.pageCount = 0 := by
    cases disk with
    | directory => cases hstore
    | absent | file =>
      cases hstore
      rfl
  obtain ⟨hpage, hwrote⟩ := Tree.create_wrote hsound hcreate
  obtain ⟨hsound', hsynced, hstands⟩ := Tree.create_represents hsound hcreate
  rw [hcount] at hpage
  subst hpage
  refine ⟨⟨⟨hsound', fun _ => hsynced, by simp, ?_, ?_⟩, rfl, Shape.entries_leaf, by simp, by simp,
    .nil⟩, ?_⟩
  · intro c hc
    obtain rfl : c = .leaf root .empty := by simpa using hc
    exact hstands
  · intro c hc d hd hne
    obtain rfl : c = .leaf root .empty := by simpa using hc
    obtain rfl : d = .leaf root .empty := by simpa using hd
    exact absurd rfl hne
  · rw [hwrote.pageCount_eq hsound, hcount]
    rfl

end PagedTree.Catalog
