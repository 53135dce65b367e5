import PagedTree.Proofs.CatalogHistory
import PagedTree.Proofs.Databases
import PagedTree.Proofs.Walks

/-! # Tables that are refused

A name that is taken is found before anything is written. The size of a table is looked at last, when it
has been given a page: pages are never taken back, so a table that is too large leaves one behind, with an
empty leaf that no table uses. The catalog and the other pages are as they were.
-/
namespace PagedTree

theorem mapM_error {α β ε : Type} {f : α → Except ε β} {xs : List α} {e : ε}
    (h : xs.mapM f = .error e) : ∃ x ∈ xs, f x = .error e := by
  induction xs with
  | nil => cases h
  | cons x xs ih =>
    rw [List.mapM_cons] at h
    cases hx : f x with
    | error e' =>
      rw [hx] at h
      cases h
      exact ⟨x, List.mem_cons_self, hx⟩
    | ok y =>
      rw [hx] at h
      cases hxs : xs.mapM f with
      | error e' =>
        have he : Except.error e' = (Except.error e : Except ε (List β)) := by
          rw [hxs] at h
          exact h
        cases he
        obtain ⟨z, hz, hfz⟩ := ih hxs
        exact ⟨z, List.mem_cons_of_mem x hz, hfz⟩
      | ok ys =>
        rw [hxs] at h
        cases h

theorem Table.decode_error {id : UInt64} {b : ByteArray} {e : StoreError}
    (h : Table.decode id b = .error e) : ∃ fault, e = .malformedRecord fault := by
  unfold Table.decode at h
  split at h
  · cases h
    exact ⟨_, rfl⟩
  · split at h
    · cases h
      exact ⟨_, rfl⟩
    · cases h

/-- A scan on a handle of its own leaves the file as it is. -/
theorem Tree.on_scan_reads (root : PageNo) (s : PageStore) :
    (Tree.on root Tree.scan).Ends s (fun _ s' => s' = s)
      fun i s' => s' = s ∧ i.OfReading True True := by
  cases hn : s.view root with
  | none =>
    obtain ⟨e, he, hrun⟩ := Tree.load_fails hn
    refine .of_error (i := .error e) (t := s) ?_ ⟨rfl, .refused he trivial⟩
    rw [Tree.on, Call.result_bind_error hrun]
  | some n =>
    obtain ⟨t, hload, rfl, hsees, hroot⟩ := Tree.load_sees hn
    have hrun := Tree.on_loaded hload Tree.scan
    have hscan := Tree.scan_asks hsees hroot
    rcases hct : Tree.scan.result t with ⟨r, t'⟩
    rw [hct] at hrun
    cases r with
    | ok es => exact .of_ok hrun (hscan.good_of_ok hct).1.store_eq
    | error i =>
      obtain ⟨hread, hi⟩ := hscan.bad_of_error hct
      exact .of_error hrun ⟨hread.store_eq, hi.mono (fun _ => trivial) fun _ => trivial⟩

namespace Catalog

variable {s s' : PageStore} {ms : List Made} {ks : List Kept} {master : Shape} {name sql : String}

/-- The failure tells of a value that is too large. -/
inductive Oversize : Interrupt → Prop where
  | mk (size limit : Nat) : Oversize (.error (.valueTooLarge size limit))

/-- Listing the tables leaves the file as it is. -/
theorem tables_reads (s : PageStore) :
    tables.Ends s (fun _ s' => s' = s) fun i s' => s' = s ∧ ¬Oversize i := by
  have hscan : (Tree.on root Tree.scan).Ends s (fun _ s' => s' = s)
      fun i s' => s' = s ∧ ¬Oversize i := by
    refine (Tree.on_scan_reads root s).mono (fun _ _ h => h) fun i _ h => ⟨h.1, ?_⟩
    rintro ⟨size, limit⟩
    cases h.2 with
    | refused he => cases he
  refine hscan.bind ?_
  rintro es _ rfl
  cases hdecode : es.mapM fun e => Table.decode e.key e.value with
  | ok ts => exact .pure rfl
  | error e =>
    refine .throw ⟨rfl, ?_⟩
    obtain ⟨x, -, hx⟩ := mapM_error hdecode
    obtain ⟨fault, rfl⟩ := Table.decode_error hx
    rintro ⟨⟩

theorem find?_reads (name : String) (s : PageStore) :
    (find? name).Ends s (fun _ s' => s' = s) fun i s' => s' = s ∧ ¬Oversize i :=
  (tables_reads s).bind fun _ _ hs => .pure hs

/-- When there is no page left, no table is made and nothing is written. -/
theorem addTable_full (h : ¬s.HasRoom) (name sql : String) :
    (addTable name sql).Ends s (fun _ _ => False) fun i s' => s' = s ∧ ¬Oversize i := by
  have htaken : (Call.fail (.tableExists name) : Call PageStore PUnit).Ends s (fun _ _ => False)
      fun i s' => s' = s ∧ ¬Oversize i := .throw ⟨rfl, nofun⟩
  have hfull : Tree.create.Ends s (fun _ _ => False) fun i s' => s' = s ∧ ¬Oversize i :=
    .of_error (Tree.create_full h) ⟨rfl, nofun⟩
  refine (find?_reads name s).bind ?_
  rintro table _ rfl
  by_cases hsome : table.isSome = true
  · rw [if_pos hsome]
    exact htaken.bind fun _ _ => False.elim
  · rw [if_neg hsome]
    exact hfull.bind fun _ _ => False.elim

/-! ## Databases -/

/-- A database that was new once and has been used by calls on its catalog since, however they ended, and
opened again at any moment. -/
inductive Built : PageStore → Prop where
  | create {disk : Disk} {s : PageStore} : create disk = .ok s → Built s
  | addTable {s : PageStore} (name sql : String) : Built s → Built ((addTable name sql).result s).2
  | addRow {s : PageStore} (name : String) (row : Row) : Built s →
      Built ((addRow name row).result s).2
  | reopen {path : String} {s s' : PageStore} : Built s → load path (.file s.file) = .ok s' →
      Built s'

theorem Built.database (h : Built s) : Database s := by
  induction h with
  | create hrun => exact .create hrun
  | addTable name sql _ ih => exact ih.addTable name sql
  | addRow name row _ ih => exact ih.addRow name row
  | reopen _ hrun ih => exact ih.load hrun

/-- Pages are not taken back. -/
theorem no_room_after {L : Layering} (h : ¬s.HasRoom) (hs : s.Layered L) (hs' : s'.Settled L) :
    ¬s'.HasRoom := by
  obtain ⟨L', hL', hlayered⟩ := hs'
  have hle := hL'.count_le
  rw [← hs.count, ← hlayered.count] at hle
  rw [PageStore.hasRoom_iff hs.sound] at h
  rw [PageStore.hasRoom_iff hlayered.sound]
  have hmul := Nat.mul_le_mul_left pageSize (Nat.succ_le_succ hle)
  simp only [Nat.succ_eq_add_one] at hmul
  omega

/-- As long as there is a page left, no call has ended for want of one. -/
theorem Built.lived (h : Built s) : (∃ ms, Lived ms s) ∨ ¬s.HasRoom := by
  induction h with
  | create hrun => exact .inl ⟨[], .create hrun⟩
  | @addTable s name sql hbuilt ih =>
    rcases ih with ⟨ms, hlived⟩ | hfull
    · obtain ⟨ks, master, rfl, hkeeps⟩ := hlived.keeps
      obtain ⟨r, s', hrun, hadded⟩ := hkeeps.addTable_ok name sql
      rw [hrun]
      cases hadded with
      | added => exact .inl ⟨_, hlived.tableAdded hrun⟩
      | taken => exact .inl ⟨_, hlived.tableRefused hrun nofun⟩
      | tooLarge => exact .inl ⟨_, hlived.tableRefused hrun nofun⟩
      | full _ _ hfull => exact .inr hfull
    · obtain ⟨L, hcount, hs⟩ := hbuilt.database.layered
      exact .inr (no_room_after hfull hs (addTable_settles hs hcount name sql).state)
  | @addRow s name row hbuilt ih =>
    rcases ih with ⟨ms, hlived⟩ | hfull
    · obtain ⟨ks, master, rfl, hkeeps⟩ := hlived.keeps
      obtain ⟨r, s', hrun, hadded⟩ := hkeeps.addRow_ok name row
      rw [hrun]
      cases hadded with
      | added => exact .inl ⟨_, hlived.rowAdded hrun⟩
      | missing => exact .inl ⟨_, hlived.rowRefused hrun nofun⟩
      | tooLarge => exact .inl ⟨_, hlived.rowRefused hrun nofun⟩
      | full _ _ _ _ _ hfull => exact .inr hfull
    · obtain ⟨L, -, hs⟩ := hbuilt.database.layered
      exact .inr (no_room_after hfull hs (addRow_settles hs name row).state)
  | @reopen path s s' hbuilt hrun ih =>
    rcases ih with ⟨ms, hlived⟩ | hfull
    · exact .inl ⟨ms, hlived.reopen hrun⟩
    · obtain ⟨L, hcount, hs⟩ := hbuilt.database.layered
      cases hrun.symm.trans (load_layered hs hcount path).1
      exact .inr hfull

/-- Unless there is no page left, every page that a new table takes is written. -/
theorem TableAdded.wrote {r : Except Interrupt Table} (h : TableAdded ks master s name sql r s')
    (hs : s.header.Sound) (hr : r ≠ .error (.error .full)) :
    ∃ fs ws, s.Wrote fs ws s' ∧ ∀ f ∈ fs, ∃ n, (f, n) ∈ ws := by
  cases h with
  | @added e page fs ws master' s' _ hins hwrote =>
    refine ⟨_, _, hwrote, fun f hf => ?_⟩
    rcases List.mem_cons.1 hf with rfl | hf
    · exact ⟨_, List.mem_cons_self⟩
    · obtain ⟨n, hn⟩ := hins.confined.filled f hf
      exact ⟨n, List.mem_cons_of_mem _ hn⟩
  | taken => exact ⟨[], [], .refl s, by simp⟩
  | @tooLarge page _ _ _ _ hcreate =>
    obtain ⟨-, hwrote⟩ := Tree.create_wrote hs hcreate
    exact ⟨_, _, hwrote, by simp⟩
  | full => exact absurd rfl hr

theorem RowAdded.wrote {name : String} {row : Row} {r : Except Interrupt UInt64}
    (h : RowAdded ks master s name row r s') (hr : r ≠ .error (.error .full)) :
    ∃ fs ws, s.Wrote fs ws s' ∧ ∀ f ∈ fs, ∃ n, (f, n) ∈ ws := by
  cases h with
  | added _ _ _ hins hwrote => exact ⟨_, _, hwrote, hins.confined.filled⟩
  | missing => exact ⟨[], [], .refl s, by simp⟩
  | tooLarge => exact ⟨[], [], .refl s, by simp⟩
  | full => exact absurd rfl hr

theorem Lived.stamped_addTable (h : Lived ms s) (hs : s.Stamped) {r : Except Interrupt Table}
    (hrun : (addTable name sql).result s = (r, s')) (hr : r ≠ .error (.error .full)) :
    s'.Stamped := by
  obtain ⟨ks, master, -, hkeeps⟩ := h.keeps
  obtain ⟨r', u, hrun', hadded⟩ := hkeeps.addTable_ok name sql
  cases hrun.symm.trans hrun'
  obtain ⟨fs, ws, hwrote, hfilled⟩ := hadded.wrote hkeeps.forest.sound hr
  exact hwrote.stamped hkeeps.forest.sound hs hfilled

theorem Lived.stamped_addRow (h : Lived ms s) (hs : s.Stamped) {row : Row}
    {r : Except Interrupt UInt64} (hrun : (addRow name row).result s = (r, s'))
    (hr : r ≠ .error (.error .full)) : s'.Stamped := by
  obtain ⟨ks, master, -, hkeeps⟩ := h.keeps
  obtain ⟨r', u, hrun', hadded⟩ := hkeeps.addRow_ok name row
  cases hrun.symm.trans hrun'
  obtain ⟨fs, ws, hwrote, hfilled⟩ := hadded.wrote hr
  exact hwrote.stamped hkeeps.forest.sound hs hfilled

theorem Lived.stamped (h : Lived ms s) : s.Stamped := by
  induction h with
  | create hrun =>
    obtain ⟨store, page, hstore, hcreate⟩ := create_iff.1 hrun
    have hsound := (PageStore.Reached.create hstore).sound
    by_cases hroom : store.HasRoom
    · obtain ⟨b, -, -, hputs⟩ := Tree.create_puts hsound hroom
      cases hcreate.symm.trans hputs
      exact PageStore.stamped_putPage _ _ b
    · cases hcreate.symm.trans (Tree.create_full hroom)
  | tableAdded hlived hrun ih => exact hlived.stamped_addTable ih hrun nofun
  | tableRefused hlived hrun hfull ih =>
    exact hlived.stamped_addTable ih hrun (by simpa using hfull)
  | rowAdded hlived hrun ih => exact hlived.stamped_addRow ih hrun nofun
  | rowRefused hlived hrun hfull ih => exact hlived.stamped_addRow ih hrun (by simpa using hfull)
  | @reopen ms s s' path hlived hopen ih =>
    obtain ⟨ks, master, -, hkeeps⟩ := hlived.keeps
    cases hopen.symm.trans (hkeeps.reopen path).1
    exact ih

/-! ## What a refusal leaves -/

/-- What a table that is too large leaves behind: a page more, with an empty leaf. The tables and their
rows are as they were, and so is the file but for that page and the cursor in the header. -/
structure LeavesPage (s s' : PageStore) : Prop where
  tables : (tables.result s').1 = (tables.result s).1
  rows : ∀ name, ((rows name).result s').1 = ((rows name).result s).1
  pageCount : s'.pageCount = s.pageCount + 1
  leaf : s'.view (.ofNat s.pageCount) = some (.leaf .empty)
  header : s'.header = { s.header with
    freeOffset := .ofNat (s.header.freeOffset.toNat + pageSize) }
  stamped : s.file.read 0 headerSize = s.header.encode ∧ s'.file.read 0 headerSize = s'.header.encode
  size : s'.file.size = max s.file.size (PageNo.offset (.ofNat s.pageCount) + pageSize)
  bytes : ∀ i, headerSize ≤ i → s'.file.byteAt i ≠ s.file.byteAt i →
    PageNo.offset (.ofNat s.pageCount) ≤ i ∧ i < PageNo.offset (.ofNat s.pageCount) + pageSize

/-- Two catalogs that keep the same tables answer alike. -/
theorem Keeps.rows_alike (h : Keeps ks master s) (h' : Keeps ks master s') (name : String) :
    ((Catalog.rows name).result s').1 = ((Catalog.rows name).result s).1 := by
  rcases exists_hit_or_miss ks name with ⟨pre, k, post, rfl, hname⟩ | hmiss
  · have hk : k ∈ pre ++ k :: post := by simp
    rw [h.rows_ok hk hname, h'.rows_ok hk hname]
  · rw [Catalog.rows, Call.result_bind_error (h.lists.onTable_miss hmiss _),
      Call.result_bind_error (h'.lists.onTable_miss hmiss _)]

theorem Keeps.leavesPage (h : Keeps ks master s) (h' : Keeps ks master s') (hs : s.Stamped)
    {page : PageNo} (hcreate : Tree.create.result s = (.ok page, s')) : LeavesPage s s' := by
  have hsound := h.forest.sound
  by_cases hroom : s.HasRoom
  · obtain ⟨b, hsize, hdecode, hputs⟩ := Tree.create_puts hsound hroom
    cases hcreate.symm.trans hputs
    have hheader := Header.size_encode s.grown.header
    refine ⟨?_, h.rows_alike h', PageStore.pageCount_grown hsound hroom,
      (PageStore.view_allocated hsound hroom hsize hdecode).2, rfl,
      ⟨hs, PageStore.stamped_putPage _ _ b⟩, ?_, fun i hi hne => ?_⟩
    · rw [h.lists.tables_ok, h'.lists.tables_ok]
    · have hbehind := PageNo.headerSize_lt_offset (.ofNat s.pageCount)
      have hfull : b.size ≠ 0 := by rw [hsize]; decide
      have hfront : s.grown.header.encode.size ≠ 0 := by rw [hheader]; decide
      rw [PageStore.putPage, SparseFile.size_write hfront, SparseFile.size_write hfull,
        PageStore.file_grown, hheader, hsize]
      omega
    · simp only [PageStore.putPage, PageStore.file_grown, SparseFile.byteAt_write] at hne
      rw [if_neg (by omega)] at hne
      by_contra hout
      rw [hsize, if_neg hout] at hne
      exact hne rfl
  · cases hcreate.symm.trans (Tree.create_full hroom)

def longText (n : Nat) : String := String.ofList (List.replicate n 'x')

theorem size_longText (n : Nat) : (longText n).utf8ByteSize = n := by
  induction n with
  | zero => rfl
  | succ n ih =>
    have hx : 'x'.utf8Size = 1 := by decide
    unfold longText at ih ⊢
    rw [List.replicate_succ, String.ofList_cons, String.utf8ByteSize_append,
      String.utf8ByteSize_singleton, hx, ih, Nat.add_comm]

/-- In a new file a table that is too large is refused. -/
theorem exists_refused {name sql : String}
    (hsize : Tree.maxValueSize < 32 + name.utf8ByteSize + sql.utf8ByteSize) : ∃ s s' size,
      Built s ∧ (addTable name sql).result s =
        (.error (.error (.valueTooLarge size Tree.maxValueSize)), s') ∧
      s.pageCount = 1 ∧ s'.pageCount = 2 := by
  obtain ⟨s, hcreate⟩ := exists_new
  obtain ⟨hkeeps, hcount⟩ := create_keeps hcreate
  obtain ⟨r, s', hrun, hadded⟩ := hkeeps.addTable_ok name sql
  have hleaf : Leaf.empty.entries.length + 1 < order := by decide
  cases hadded with
  | @added e page fs ws master' s' _ _ _ hkeeps' =>
    have hfit : (Kept.bytes ⟨⟨name, sql, []⟩, .leaf page .empty⟩).size ≤ Tree.maxValueSize := by
      have hsmall := hkeeps'.lists.standing.small
      refine hsmall.value_le (e := ⟨1, _⟩) ?_
      rw [hkeeps'.entries]
      exact List.mem_singleton.2 rfl
    rw [Kept.bytes, size_encode_table] at hfit
    exact absurd hfit (Nat.not_le.2 hsize)
  | taken hname => simp at hname
  | @tooLarge page s' _ _ _ hpage =>
    refine ⟨s, s', _, .create hcreate, hrun, hcount, ?_⟩
    obtain ⟨-, hwrote⟩ := Tree.create_wrote hkeeps.forest.sound hpage
    rw [hwrote.pageCount_eq hkeeps.forest.sound, hcount]
    rfl
  | full _ hroom =>
    have hs : s.HasRoom := (PageStore.hasRoom_iff hkeeps.forest.sound).2 (by rw [hcount]; decide)
    obtain ⟨e, page, fs, kept, held, ws, hins, -⟩ := hroom hs
    cases (hins.roomy hleaf).1

theorem longText_large :
    Tree.maxValueSize < 32 + "t".utf8ByteSize + (longText 11000).utf8ByteSize := by
  rw [size_longText]
  decide +kernel

/-- A table whose name is taken leaves a database as it is, and one that is too large leaves a page
there that nothing uses. -/
theorem refused_table (h : Built s) (name sql : String) {r : Except Interrupt Table}
    (hrun : (addTable name sql).result s = (r, s')) :
    (∀ taken, r = .error (.error (.tableExists taken)) → s' = s) ∧
      ∀ size limit, r = .error (.error (.valueTooLarge size limit)) → LeavesPage s s' := by
  rcases h.lived with ⟨ms, hlived⟩ | hfull
  · obtain ⟨ks, master, rfl, hkeeps⟩ := hlived.keeps
    obtain ⟨r', u, hrun', hadded⟩ := hkeeps.addTable_ok name sql
    cases hrun.symm.trans hrun'
    cases hadded with
    | added => exact ⟨nofun, nofun⟩
    | taken => exact ⟨fun _ _ => rfl, nofun⟩
    | tooLarge _ hkeeps' _ hcreate =>
      exact ⟨nofun, fun _ _ _ => hkeeps.leavesPage hkeeps' hlived.stamped hcreate⟩
    | full => exact ⟨nofun, nofun⟩
  · have hends := addTable_full hfull name sql
    constructor
    · rintro taken rfl
      exact (hends.bad_of_error hrun).1
    · rintro size limit rfl
      exact absurd ⟨size, limit⟩ (hends.bad_of_error hrun).2

/-- A table that is refused does leave a trace. -/
theorem refused_table_takes_page : ∃ s s' size limit, Built s ∧
    (addTable "t" (longText 11000)).result s =
      (.error (.error (.valueTooLarge size limit)), s') ∧ s'.pageCount ≠ s.pageCount := by
  obtain ⟨s, s', size, hbuilt, hrun, hcount, hcount'⟩ := exists_refused longText_large
  exact ⟨s, s', size, _, hbuilt, hrun, by rw [hcount, hcount']; decide⟩

theorem refused_table_of_long_text : ∃ s s' size limit, Built s ∧
    (addTable "t" (longText 11000)).result s =
      (.error (.error (.valueTooLarge size limit)), s') ∧ LeavesPage s s' := by
  obtain ⟨s, s', size, hbuilt, hrun, -⟩ := exists_refused longText_large
  exact ⟨s, s', size, _, hbuilt, hrun, (refused_table hbuilt "t" _ hrun).2 _ _ rfl⟩

end Catalog

end PagedTree
