import PagedTree.Proofs.CatalogAdding
import PagedTree.Proofs.Room

/-! # The life of a catalog

A catalog begins empty in a new file. Tables are made and rows are added, calls are refused, and the
file is closed and opened again at any moment. As long as no call ends for want of a page the catalog
answers what its history says.
-/
namespace PagedTree.Catalog

variable {ks pre post : List Kept} {k : Kept} {master : Shape} {s s' : PageStore} {m : Made}
  {ms before behind : List Made} {name : String} {row : Row} {n : Nat}

/-- The table with a row more, if the row was added under its name. -/
def Made.accept (name : String) (row : Row) (m : Made) : Made :=
  if sameName m.name name then { m with rows := m.rows ++ [row] } else m

/-- A database that was new once, with the tables that have been made in it since and the rows that
they have accepted. No call has ended for want of a page. -/
inductive Lived : List Made → PageStore → Prop where
  | create {disk : Disk} {s : PageStore} : create disk = .ok s → Lived [] s
  | tableAdded {ms : List Made} {s s' : PageStore} {name sql : String} {t : Table} : Lived ms s →
      (addTable name sql).result s = (.ok t, s') → Lived (ms ++ [⟨name, sql, []⟩]) s'
  | tableRefused {ms : List Made} {s s' : PageStore} {name sql : String} {i : Interrupt} :
      Lived ms s → (addTable name sql).result s = (.error i, s') → i ≠ .error .full → Lived ms s'
  | rowAdded {ms : List Made} {s s' : PageStore} {name : String} {row : Row} {id : UInt64} :
      Lived ms s → (addRow name row).result s = (.ok id, s') →
      Lived (ms.map (Made.accept name row)) s'
  | rowRefused {ms : List Made} {s s' : PageStore} {name : String} {row : Row} {i : Interrupt} :
      Lived ms s → (addRow name row).result s = (.error i, s') → i ≠ .error .full → Lived ms s'
  | reopen {ms : List Made} {s s' : PageStore} {path : String} : Lived ms s →
      load path (.file s.file) = .ok s' → Lived ms s'

/-- Only the table that is found takes the row. -/
theorem map_accept (hnames : (pre ++ k :: post).Pairwise fun k k' =>
    sameName k.made.name k'.made.name = false) (hname : sameName k.made.name name = true)
    (tree : Shape) : ((pre ++ k :: post).map Kept.made).map (Made.accept name row) =
      (pre ++ ⟨{ k.made with rows := k.made.rows ++ [row] }, tree⟩ :: post).map Kept.made := by
  have hmiss := only_hit hnames hname
  have hsame : ∀ ls : List Kept, (∀ k' ∈ ls, k' ∈ pre ++ post) →
      (ls.map Kept.made).map (Made.accept name row) = ls.map Kept.made := by
    intro ls hls
    rw [List.map_map]
    refine List.map_congr_left fun k' hk' => ?_
    exact if_neg (by rw [hmiss k' (hls k' hk')]; exact Bool.false_ne_true)
  rw [List.map_append, List.map_append, List.map_append, List.map_cons, List.map_cons, List.map_cons,
    hsame pre fun k' hk' => List.mem_append_left _ hk',
    hsame post fun k' hk' => List.mem_append_right _ hk', Made.accept, if_pos hname]

/-- The catalog is there when the file is opened again. -/
theorem Keeps.reopen (h : Keeps ks master s) (path : String) :
    load path (.file s.file) = .ok s.forgetJournal ∧ Keeps ks master s.forgetJournal := by
  have hpages : s.forgetJournal.pageCount ≠ 0 := by
    have hlt := PageStore.lt_of_view h.lists.standing.on.top
    exact Nat.ne_of_gt (Nat.lt_of_le_of_lt (Nat.zero_le _) hlt)
  refine ⟨?_, h.mono h.forest.sound h.synced (.refl _)⟩
  rw [load, PageStore.load_synced h.synced path]
  exact if_neg hpages

/-- At every moment of its life the catalog is in its file. -/
theorem Lived.keeps (h : Lived ms s) : ∃ ks master, ks.map Kept.made = ms ∧ Keeps ks master s := by
  induction h with
  | create hrun => exact ⟨[], _, rfl, (create_keeps hrun).1⟩
  | @tableAdded ms s s' name sql t _ hrun ih =>
    obtain ⟨ks, master, rfl, hkeeps⟩ := ih
    obtain ⟨r, u, hrun', hadded⟩ := hkeeps.addTable_ok name sql
    cases hrun.symm.trans hrun'
    cases hadded with
    | added _ _ _ hkeeps' => exact ⟨_, _, by simp, hkeeps'⟩
  | @tableRefused ms s s' name sql i _ hrun hfull ih =>
    obtain ⟨ks, master, rfl, hkeeps⟩ := ih
    obtain ⟨r, u, hrun', hadded⟩ := hkeeps.addTable_ok name sql
    cases hrun.symm.trans hrun'
    cases hadded with
    | taken => exact ⟨ks, master, rfl, hkeeps⟩
    | tooLarge _ hkeeps' => exact ⟨ks, master, rfl, hkeeps'⟩
    | full => exact absurd rfl hfull
  | @rowAdded ms s s' name row id _ hrun ih =>
    obtain ⟨ks, master, rfl, hkeeps⟩ := ih
    obtain ⟨r, u, hrun', hadded⟩ := hkeeps.addRow_ok name row
    cases hrun.symm.trans hrun'
    cases hadded with
    | @added pre post k fs ws tree s' hks hname _ _ _ hkeeps' =>
      subst hks
      exact ⟨_, master, (map_accept hkeeps.names hname tree).symm, hkeeps'⟩
  | @rowRefused ms s s' name row i _ hrun hfull ih =>
    obtain ⟨ks, master, rfl, hkeeps⟩ := ih
    obtain ⟨r, u, hrun', hadded⟩ := hkeeps.addRow_ok name row
    cases hrun.symm.trans hrun'
    cases hadded with
    | missing | tooLarge => exact ⟨ks, master, rfl, hkeeps⟩
    | full => exact absurd rfl hfull
  | @reopen ms s s' path _ hopen ih =>
    obtain ⟨ks, master, rfl, hkeeps⟩ := ih
    obtain ⟨hopen', hkeeps'⟩ := hkeeps.reopen path
    cases hopen.symm.trans hopen'
    exact ⟨ks, master, rfl, hkeeps'⟩

/-! ## What the catalog answers -/

/-- The catalog lists these tables, as they were made, and finds each under every casing of its
name. -/
structure Listed (ms : List Made) (s : PageStore) (ts : List Table) : Prop where
  run : tables.result s = (.ok ts, s)
  ids : ts.map (·.rowId.toNat) = List.range' 1 ms.length
  texts : ts.map (fun t => (t.name, t.sql)) = ms.map fun m => (m.name, m.sql)
  distinct : (ts.map Table.root).Nodup
  own : ∀ t ∈ ts, t.root ≠ root
  found : ∀ t ∈ ts, ∀ name, sameName t.name name = true → (find? name).result s = (.ok (some t), s)

/-- The catalog answers as its history says: a name is taken if a table has it in some casing, the
tables are listed in the order in which they were made, and the rows of each in the order in which it
took them. -/
structure Faithful (ms : List Made) (s : PageStore) : Prop where
  taken : ∀ name sql n, ((addTable name sql).result s).1 = .error (.error (.tableExists n)) ↔
    n = name ∧ ∃ m ∈ ms, sameName m.name name = true
  listed : ∃ ts, Listed ms s ts
  rows : ∀ m ∈ ms, ∀ name, sameName m.name name = true → ∃ rs,
    (Catalog.rows name).result s = (.ok rs, s) ∧
      rs.map (·.1.toNat) = List.range' 1 m.rows.length ∧ rs.map (·.2) = m.rows
  reopens : ∀ path, ∃ s', load path (.file s.file) = .ok s'

theorem ids_toNat {α : Type} {xs : List α} (h : xs.length + 1 < UInt64.size) :
    (xs.zipIdx 1).map (fun x => (UInt64.ofNat x.2).toNat) = List.range' 1 xs.length := by
  rw [← List.zipIdx_map_snd 1 xs]
  refine List.map_congr_left fun x hx => UInt64.toNat_ofNat_of_lt' ?_
  have hlt := (List.mem_zipIdx (x := x.1) (i := x.2) hx).2.1
  omega

theorem Keeps.listed_ok (h : Keeps ks master s) : Listed (ks.map Kept.made) s (listed ks) := by
  obtain ⟨t, -, hrep, -⟩ := h.lists.on_master Tree.scan
  have hlen := hrep.length_entries_lt
  rw [h.entries, length_numbered, List.length_map] at hlen
  have hroots : (listed ks).map Table.root = (ks.map Kept.tree).map Shape.page := by
    rw [listed, List.map_map, List.map_map, ← List.zipIdx_map_fst 1 ks, List.map_map]
    simp [Kept.table, Function.comp_def]
  have hdistinct := h.forest.distinct
  rw [List.map_cons, List.nodup_cons, h.page] at hdistinct
  refine ⟨h.lists.tables_ok, ?_, ?_, ?_, ?_, ?_⟩
  · rw [List.length_map, ← ids_toNat hlen, listed, List.map_map]
    rfl
  · rw [listed, List.map_map, List.map_map, ← List.zipIdx_map_fst 1 ks, List.map_map]
    simp [Kept.table, Function.comp_def]
  · rw [hroots]
    exact hdistinct.2
  · intro t ht hroot
    apply hdistinct.1
    rw [← hroots, ← hroot]
    exact List.mem_map_of_mem ht
  · intro t ht name hname
    obtain ⟨pre, k, post, rfl, rfl⟩ := exists_of_mem_listed ht
    exact h.lists.find?_hit hname

/-- Through all its life a catalog answers as its history says. -/
theorem history_faithful (h : Lived ms s) : Faithful ms s := by
  obtain ⟨ks, master, rfl, hkeeps⟩ := h.keeps
  have hhit : ∀ name, (∃ m ∈ ks.map Kept.made, sameName m.name name = true) ↔
      ∃ k ∈ ks, sameName k.made.name name = true := by
    intro name
    simp
  refine ⟨?_, ⟨_, hkeeps.listed_ok⟩, ?_, fun path => ⟨_, (hkeeps.reopen path).1⟩⟩
  · intro name sql n
    obtain ⟨r, s', hrun, hadded⟩ := hkeeps.addTable_ok name sql
    have hmiss : (∀ k ∈ ks, sameName k.made.name name = false) →
        ¬∃ k ∈ ks, sameName k.made.name name = true := by
      rintro hmiss ⟨k, hk, hname⟩
      exact Bool.false_ne_true ((hmiss k hk).symm.trans hname)
    rw [hrun, hhit]
    cases hadded with
    | added hnone => simpa using fun _ => hmiss hnone
    | taken hname =>
      constructor
      · intro hn
        cases hn
        exact ⟨rfl, hname⟩
      · rintro ⟨rfl, -⟩
        rfl
    | tooLarge hnone => simpa using fun _ => hmiss hnone
    | full hnone => simpa using fun _ => hmiss hnone
  · intro m hm name hname
    obtain ⟨k, hk, rfl⟩ := List.mem_map.1 hm
    refine ⟨_, hkeeps.rows_ok hk hname, ?_, ?_⟩
    · rw [← ids_toNat (hkeeps.length_rows_lt hk), List.map_map]
      rfl
    · rw [List.map_map]
      exact List.zipIdx_map_fst 1 k.made.rows

theorem exists_new : ∃ s, create .absent = .ok s := by
  obtain ⟨store, hstore⟩ : ∃ store, PageStore.create .absent = .ok store := ⟨_, rfl⟩
  have hroom : store.HasRoom := by
    cases hstore
    exact (by decide : Header.fresh.freeOffset.toNat + pageSize < UInt32.size)
  obtain ⟨s, hcreate, -⟩ := Tree.create_ok (PageStore.Reached.create hstore).sound hroom
  exact ⟨s, create_iff.2 ⟨store, _, hstore, hcreate⟩⟩

theorem size_encode_table (t : Table) :
    t.encode.size = 32 + t.name.utf8ByteSize + t.sql.utf8ByteSize := by
  rw [Table.encode, Row.size_encode, Table.toRow]
  simp only [List.map_cons, List.map_nil, Datum.width, List.sum_cons, List.sum_nil]
  omega

/-- In a new file a table can be made. -/
theorem exists_table {name sql : String}
    (hsize : 32 + name.utf8ByteSize + sql.utf8ByteSize ≤ Tree.maxValueSize) :
    ∃ s master page, Lived [⟨name, sql, []⟩] s ∧
      Keeps [⟨⟨name, sql, []⟩, .leaf page .empty⟩] master s ∧ s.pageCount = 2 := by
  obtain ⟨s, hcreate⟩ := exists_new
  obtain ⟨hkeeps, hcount⟩ := create_keeps hcreate
  obtain ⟨r, s', hrun, hadded⟩ := hkeeps.addTable_ok name sql
  have hleaf : Leaf.empty.entries.length + 1 < order := by decide
  cases hadded with
  | @added e page fs ws master s' _ hins hwrote hkeeps' =>
    obtain ⟨-, rfl⟩ := hins.roomy hleaf
    refine ⟨s', master, page, .tableAdded (.create hcreate) hrun, hkeeps', ?_⟩
    rw [hwrote.pageCount_eq hkeeps.forest.sound, hcount]
    rfl
  | taken hname => simp at hname
  | tooLarge _ _ htoo =>
    rw [size_encode_table] at htoo
    exact absurd hsize (Nat.not_le.2 htoo)
  | full _ hroom =>
    have hs : s.HasRoom := (PageStore.hasRoom_iff hkeeps.forest.sound).2 (by rw [hcount]; decide)
    obtain ⟨e, page, fs, kept, held, ws, hins, -⟩ := hroom hs
    cases (hins.roomy hleaf).1

/-- In a file that may become twice as large a table can be made. -/
theorem Lived.addTable_room (h : Lived ms s) (name sql : String)
    (hmiss : ∀ m ∈ ms, sameName m.name name = false)
    (hsize : 32 + name.utf8ByteSize + sql.utf8ByteSize ≤ Tree.maxValueSize)
    (hroom : s.RoomFor (n + 1)) : ∃ s', Lived (ms ++ [⟨name, sql, []⟩]) s' ∧ s'.RoomFor n := by
  obtain ⟨ks, master, rfl, hkeeps⟩ := h.keeps
  have hsound := hkeeps.forest.sound
  have hpages := hkeeps.lists.standing.length_pages_le
  obtain ⟨r, s', hrun, hadded⟩ := hkeeps.addTable_ok name sql
  cases hadded with
  | added _ hins hwrote =>
    have hlen := hins.length_le.1
    have hcount := hwrote.pageCount_eq hsound
    rw [List.length_cons] at hcount
    exact ⟨s', h.tableAdded hrun, hroom.next (by omega)⟩
  | taken hname =>
    obtain ⟨k, hk, hsame⟩ := hname
    exact absurd hsame (by simp [hmiss k.made (List.mem_map_of_mem hk)])
  | tooLarge _ _ htoo =>
    rw [size_encode_table] at htoo
    exact absurd hsize (Nat.not_le.2 htoo)
  | full _ hstopped hfull =>
    obtain ⟨e, page, fs, kept, held, ws, hins, hwrote⟩ :=
      hstopped (hroom.hasRoom hsound (by omega))
    have hlen := hins.length_le.2 (by simp)
    have hcount := hwrote.pageCount_eq hsound
    rw [List.length_cons] at hcount
    exact absurd (hroom.hasRoom (hwrote.sound hsound) (by omega)) hfull

/-- In a file that may become twice as large a table takes a row. -/
theorem Lived.addRow_room (h : Lived (before ++ m :: behind) s) (hname : sameName m.name name = true)
    (hrow : row.encode.size ≤ Tree.maxValueSize) (hroom : s.RoomFor (n + 1)) : ∃ s',
      Lived (before ++ { m with rows := m.rows ++ [row] } :: behind) s' ∧ s'.RoomFor n := by
  obtain ⟨ks, master, hks, hkeeps⟩ := h.keeps
  obtain ⟨pre, rest, rfl, rfl, hrest⟩ := List.map_eq_append_iff.1 hks
  obtain ⟨k, post, rfl, rfl, rfl⟩ := List.map_eq_cons_iff.1 hrest
  have hsound := hkeeps.forest.sound
  have hpages : ∀ k' ∈ pre ++ k :: post, k'.tree.pages.length ≤ s.pageCount := fun k' hk' =>
    (hkeeps.forest.standing k'.tree
      (List.mem_cons_of_mem _ (List.mem_map_of_mem hk'))).length_pages_le
  obtain ⟨r, s', hrun, hadded⟩ := hkeeps.addRow_ok name row
  cases hadded with
  | @added _ _ k' fs ws tree s' hks' _ _ hins hwrote =>
    have hfew := hpages k' (by simp [hks'])
    have hlen := hins.length_le.1
    have hcount := hwrote.pageCount_eq hsound
    refine ⟨s', ?_, hroom.next (by omega)⟩
    have hlived := h.rowAdded hrun
    rw [← hks, map_accept hkeeps.names hname tree] at hlived
    simpa using hlived
  | missing hmiss => exact absurd hname (by simp [hmiss k (by simp)])
  | tooLarge htoo => exact absurd hrow (Nat.not_le.2 htoo)
  | @full _ _ k' _ _ _ _ _ hks' _ _ hins hwrote hfull =>
    have hfew := hpages k' (by simp [hks'])
    have hlen := hins.length_le.2 (by simp)
    have hcount := hwrote.pageCount_eq hsound
    exact absurd (hroom.hasRoom (hwrote.sound hsound) (by omega)) hfull

/-- A table takes row after row as long as there is room. -/
theorem Lived.addRows_room (before : List Made) (h : Lived (before ++ m :: behind) s)
    (name : String) (rows : List Row) (hname : sameName m.name name = true)
    (hrows : ∀ row ∈ rows, row.encode.size ≤ Tree.maxValueSize)
    (hroom : s.RoomFor (n + rows.length)) : ∃ s',
      Lived (before ++ { m with rows := m.rows ++ rows } :: behind) s' ∧ s'.RoomFor n := by
  induction rows generalizing m s with
  | nil => exact ⟨s, by simpa using h, hroom⟩
  | cons row rows ih =>
    obtain ⟨s₁, hlived, hless⟩ := h.addRow_room hname (hrows row List.mem_cons_self) hroom
    obtain ⟨s', hlived', hleft⟩ := ih (m := { m with rows := m.rows ++ [row] }) hlived hname
      (fun r hr => hrows r (List.mem_cons_of_mem _ hr)) hless
    exact ⟨s', by simpa using hlived', hleft⟩

/-- Two tables, one with rows enough for several leaves, and one made and filled in between. -/
theorem history_faithful_of_two : ∃ ms s, Lived ms s ∧ Faithful ms s ∧
    ms = [⟨"t", "CREATE TABLE t (a)", [[.integer 1], [.integer 2], [.integer 3], [.integer 4],
        [.integer 5], [.integer 6], [.integer 7]]⟩,
      ⟨"u", "CREATE TABLE u (b, c)", [[.text "x", .real 0], [.text "y", .real 0]]⟩] := by
  obtain ⟨s, hcreate⟩ := exists_new
  have hroom : s.RoomFor 11 := by
    rw [PageStore.RoomFor, (create_keeps hcreate).2]
    decide
  obtain ⟨s₁, h₁, hroom₁⟩ := (Lived.create hcreate).addTable_room (n := 10) "t"
    "CREATE TABLE t (a)" (by simp) (by decide +kernel) hroom
  obtain ⟨s₂, h₂, hroom₂⟩ := h₁.addRows_room (n := 7) [] "T"
    [[.integer 1], [.integer 2], [.integer 3]] (by decide +kernel) (by decide +kernel) hroom₁
  obtain ⟨s₃, h₃, hroom₃⟩ := h₂.addTable_room (n := 6) "u" "CREATE TABLE u (b, c)"
    (by decide +kernel) (by decide +kernel) hroom₂
  obtain ⟨s₄, h₄, hroom₄⟩ := h₃.addRows_room (n := 4) [_] "u"
    [[.text "x", .real 0], [.text "y", .real 0]] (by decide +kernel) (by decide +kernel) hroom₃
  obtain ⟨s₅, h₅, -⟩ := h₄.addRows_room (n := 0) [] "t"
    [[.integer 4], [.integer 5], [.integer 6], [.integer 7]] (by decide +kernel) (by decide +kernel)
    hroom₄
  exact ⟨_, s₅, h₅, history_faithful h₅, rfl⟩

end PagedTree.Catalog
