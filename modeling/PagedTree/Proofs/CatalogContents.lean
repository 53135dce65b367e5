import PagedTree.Proofs.Appending
import PagedTree.Proofs.Forest
import PagedTree.Proofs.RowCodec
import PagedTree.Proofs.Truncation

/-! # What a catalog holds

The tree of page 0 lists the tables under the ids from 1 on, and each table has a tree of its own with
its rows under the ids from 1 on. No two tables have the same name. Every call that adds to a catalog
either keeps it so or finds no page.
-/
namespace PagedTree

theorem Shape.Small.value_le {s : Shape} (h : s.Small) {e : Entry} (he : e ∈ s.entries) :
    e.value.size ≤ Tree.maxValueSize := by
  obtain ⟨⟨p, l⟩, hx, he⟩ := List.mem_flatMap.1 he
  obtain ⟨c, hc, hx⟩ := List.mem_filterMap.1 hx
  cases c with
  | leaf q m =>
    cases hx
    exact (h _ hc).2 e he
  | branch => cases hx

/-- A call on a tree that stands on the file. -/
theorem Tree.on_ok {α : Type} {s : Shape} {store : PageStore} (hs : s.Stands store.view)
    (hsound : store.header.Sound) (hsynced : store.Synced) (c : Call Tree α) : ∃ t, t.store = store ∧
      t.Represents s ∧ (on s.page c).result store = ((c.result t).1, (c.result t).2.store) := by
  obtain ⟨t, hload, hstore, -, hrep⟩ := load_represents hs hsound hsynced
  exact ⟨t, hstore, hrep, on_loaded hload c⟩

theorem Tree.on_scan {store : PageStore} {p : PageNo} {es : List Entry}
    (hsound : store.header.Sound) (h : Scans store.view p es) :
    (on p scan).result store = (.ok es, store) := by
  obtain ⟨t, t', hload, hscan, hstore⟩ := load_scans hsound h
  rw [on_loaded hload, hscan, ← hstore]

theorem mapM_map_ok {ε α β γ : Type} {f : β → Except ε γ} {h : α → β} {g : α → γ} {xs : List α}
    (hf : ∀ x ∈ xs, f (h x) = .ok (g x)) : (xs.map h).mapM f = .ok (xs.map g) := by
  induction xs with
  | nil => rfl
  | cons x xs ih =>
    rw [List.map_cons, List.mapM_cons, hf x List.mem_cons_self,
      ih fun y hy => hf y (List.mem_cons_of_mem _ hy)]
    rfl

namespace Catalog

theorem sameName_iff {a b : String} :
    sameName a b = true ↔ a.toList.map Char.toLower = b.toList.map Char.toLower := by
  simp [sameName]

/-- A table as it was made, and the rows that were added to it since. -/
structure Made where
  name : String
  sql : String
  rows : List Row

/-- A table in a file, with the tree of its rows. -/
structure Kept where
  made : Made
  tree : Shape

namespace Kept

def table (k : Kept) (id : UInt64) : Table := ⟨id, k.made.name, k.tree.page, k.made.sql⟩

/-- What the catalog holds of the table; its id is the key. -/
def bytes (k : Kept) : ByteArray := (k.table 0).encode

theorem encode_table (k : Kept) (id : UInt64) : (k.table id).encode = k.bytes := rfl

end Kept

/-- The tables as they are listed. -/
def listed (ks : List Kept) : List Table := (ks.zipIdx 1).map fun k => k.1.table (.ofNat k.2)

theorem listed_append (ks : List Kept) (k : Kept) (ls : List Kept) : ∃ ts,
    listed (ks ++ k :: ls) = listed ks ++ k.table (.ofNat (ks.length + 1)) :: ts := by
  refine ⟨(ls.zipIdx (1 + ks.length + 1)).map fun k => k.1.table (.ofNat k.2), ?_⟩
  simp [listed, List.zipIdx_append, Nat.add_comm]

theorem exists_of_mem_listed {ks : List Kept} {t : Table} (h : t ∈ listed ks) :
    ∃ pre k post, ks = pre ++ k :: post ∧ t = k.table (.ofNat (pre.length + 1)) := by
  obtain ⟨⟨k, i⟩, hk, rfl⟩ := List.mem_map.1 h
  obtain ⟨hle, hlt, hki⟩ := List.mem_zipIdx hk
  obtain ⟨pre, k', post, rfl, hpre⟩ := exists_cut (show i - 1 < ks.length by omega)
  have hi : i = pre.length + 1 := by omega
  subst hi
  exact ⟨pre, k', post, rfl, by simp [hki]⟩

/-- The tree on page 0 lists these tables, whatever their own trees hold. -/
structure Lists (ks : List Kept) (master : Shape) (s : PageStore) : Prop where
  sound : s.header.Sound
  synced : s.Synced
  standing : master.Stands s.view
  page : master.page = root
  entries : master.entries = numbered (ks.map Kept.bytes)
  names : ks.Pairwise fun k k' => sameName k.made.name k'.made.name = false

variable {ks pre post : List Kept} {k : Kept} {master : Shape} {s s' : PageStore} {name sql : String}

/-- No two tables answer to one name. -/
theorem only_hit (hnames : (pre ++ k :: post).Pairwise fun k k' =>
    sameName k.made.name k'.made.name = false) (hname : sameName k.made.name name = true) :
    ∀ k' ∈ pre ++ post, sameName k'.made.name name = false := by
  have hboth : ∀ k' : Kept, sameName k'.made.name name = true →
      sameName k'.made.name k.made.name = true ∧ sameName k.made.name k'.made.name = true := by
    intro k' hsame
    rw [sameName_iff] at hsame hname
    exact ⟨sameName_iff.2 (hsame.trans hname.symm), sameName_iff.2 (hname.trans hsame.symm)⟩
  obtain ⟨-, hpost, hpre⟩ := List.pairwise_append.1 hnames
  intro k' hk'
  rw [Bool.eq_false_iff]
  intro hsame
  rcases List.mem_append.1 hk' with hk' | hk'
  · exact Bool.false_ne_true ((hpre k' hk' k List.mem_cons_self).symm.trans (hboth k' hsame).1)
  · exact Bool.false_ne_true ((List.rel_of_pairwise_cons hpost hk').symm.trans (hboth k' hsame).2)

theorem eq_of_hit {k' : Kept} (hnames : ks.Pairwise fun k k' => sameName k.made.name k'.made.name = false)
    (hk : k ∈ ks) (hname : sameName k.made.name name = true) (hk' : k' ∈ ks)
    (hname' : sameName k'.made.name name = true) : k' = k := by
  obtain ⟨pre, post, rfl⟩ := List.append_of_mem hk
  rcases List.mem_append.1 hk' with hpre | hpost
  · exact absurd hname' (by simp [only_hit hnames hname k' (by simp [hpre])])
  rcases List.mem_cons.1 hpost with rfl | hpost
  · rfl
  · exact absurd hname' (by simp [only_hit hnames hname k' (by simp [hpost])])

theorem exists_hit_or_miss (ks : List Kept) (name : String) :
    (∃ pre k post, ks = pre ++ k :: post ∧ sameName k.made.name name = true) ∨
      ∀ k ∈ ks, sameName k.made.name name = false := by
  by_cases h : ∃ k ∈ ks, sameName k.made.name name = true
  · obtain ⟨k, hk, hname⟩ := h
    obtain ⟨pre, post, rfl⟩ := List.append_of_mem hk
    exact .inl ⟨pre, k, post, rfl, hname⟩
  · exact .inr fun k hk => by simpa using fun hname => h ⟨k, hk, hname⟩

namespace Lists

/-- A call on the catalog. -/
theorem on_master {α : Type} (h : Lists ks master s) (c : Call Tree α) : ∃ t, t.store = s ∧
    t.Represents master ∧ (Tree.on root c).result s = ((c.result t).1, (c.result t).2.store) :=
  h.page ▸ Tree.on_ok h.standing h.sound h.synced c

theorem decode_bytes {e : Entry} (he : e.value.size ≤ Tree.maxValueSize) (hk : e.value = k.bytes) :
    Table.decode e.key e.value = .ok (k.table e.key) := by
  have hfit : (k.table e.key).encode.size < 2 ^ 63 := by
    rw [k.encode_table, ← hk]
    exact Nat.lt_of_le_of_lt he (by decide)
  have hdecode := Table.decode_encode hfit
  rwa [k.encode_table, ← hk] at hdecode

theorem tables_ok (h : Lists ks master s) : tables.result s = (.ok (listed ks), s) := by
  obtain ⟨t, rfl, hrep, hon⟩ := h.on_master Tree.scan
  obtain ⟨t', hscan, hadv⟩ := hrep.scan_ok
  rw [hscan, hadv.store_eq] at hon
  have hmap : numbered (ks.map Kept.bytes) =
      (ks.zipIdx 1).map fun k => ⟨.ofNat k.2, k.1.bytes⟩ := by
    rw [numbered, List.zipIdx_map, List.map_map]
    rfl
  have hdecode : (master.entries.mapM fun e => Table.decode e.key e.value) = .ok (listed ks) := by
    rw [h.entries, hmap]
    refine mapM_map_ok fun k hk => decode_bytes (e := ⟨.ofNat k.2, k.1.bytes⟩) ?_ rfl
    apply hrep.stands.small.value_le
    rw [h.entries, hmap]
    exact List.mem_map_of_mem hk
  rw [tables, Call.result_bind_ok hon, hdecode, Call.result_ofExcept_ok]

/-- A table is found under every casing of its name. -/
theorem find?_hit (h : Lists (pre ++ k :: post) master s) (hname : sameName k.made.name name = true) :
    (find? name).result s = (.ok (some (k.table (.ofNat (pre.length + 1)))), s) := by
  obtain ⟨ts, hlisted⟩ := listed_append pre k post
  have hbefore : (listed pre).find? (fun t => sameName t.name name) = none := by
    rw [List.find?_eq_none]
    intro t ht hsame
    obtain ⟨as, k', bs, rfl, rfl⟩ := exists_of_mem_listed ht
    have hmiss := only_hit h.names hname k' (by simp)
    exact Bool.false_ne_true (hmiss.symm.trans hsame)
  rw [find?, Call.result_bind_ok h.tables_ok, Call.result_pure, hlisted, List.find?_append, hbefore]
  rw [Option.none_or, List.find?_cons_of_pos]
  exact hname

theorem find?_miss (h : Lists ks master s) (hname : ∀ k ∈ ks, sameName k.made.name name = false) :
    (find? name).result s = (.ok none, s) := by
  have hnone : (listed ks).find? (fun t => sameName t.name name) = none := by
    rw [List.find?_eq_none]
    intro t ht hsame
    obtain ⟨as, k, bs, rfl, rfl⟩ := exists_of_mem_listed ht
    exact Bool.false_ne_true ((hname k (by simp)).symm.trans hsame)
  rw [find?, Call.result_bind_ok h.tables_ok, Call.result_pure, hnone]

theorem onTable_hit {α : Type} (h : Lists ks master s) (hk : k ∈ ks)
    (hname : sameName k.made.name name = true) (c : Call Tree α) :
    (onTable name c).result s = (Tree.on k.tree.page c).result s := by
  obtain ⟨pre, post, rfl⟩ := List.append_of_mem hk
  rw [onTable, Call.result_bind_ok (h.find?_hit hname)]
  rfl

theorem onTable_miss {α : Type} (h : Lists ks master s)
    (hname : ∀ k ∈ ks, sameName k.made.name name = false) (c : Call Tree α) :
    (onTable name c).result s = (.error (.error (.noSuchTable name)), s) := by
  rw [onTable, Call.result_bind_ok (h.find?_miss hname)]
  rfl

/-- The rows of a table are what its leaves show. -/
theorem rows_of_scan (h : Lists ks master s) (hk : k ∈ ks)
    (hname : sameName k.made.name name = true) {rs : List Row}
    (hscan : (Tree.on k.tree.page Tree.scan).result s = (.ok (numbered (rs.map Row.encode)), s))
    (hfit : ∀ row ∈ rs, row.encode.size ≤ Tree.maxValueSize) :
    (Catalog.rows name).result s = (.ok ((rs.zipIdx 1).map fun r => (.ofNat r.2, r.1)), s) := by
  have hmap : numbered (rs.map Row.encode) =
      (rs.zipIdx 1).map fun r => ⟨.ofNat r.2, r.1.encode⟩ := by
    rw [numbered, List.zipIdx_map, List.map_map]
    rfl
  have hdecode : (numbered (rs.map Row.encode)).mapM decodeEntry =
      .ok ((rs.zipIdx 1).map fun r => (.ofNat r.2, r.1)) := by
    rw [hmap]
    refine mapM_map_ok fun r hr => ?_
    have hrow : r.1 ∈ rs := by
      rw [← List.zipIdx_map_fst 1 rs]
      exact List.mem_map_of_mem hr
    have hsize : r.1.encode.size < 2 ^ 63 := Nat.lt_of_le_of_lt (hfit r.1 hrow) (by decide)
    simp only [decodeEntry, Row.decode_encode hsize]
  rw [← h.onTable_hit hk hname] at hscan
  rw [Catalog.rows, Call.result_bind_ok hscan, hdecode, Call.result_ofExcept_ok]

end Lists

/-- The catalog on page 0 lists these tables, whose trees hold the rows that were added to them. -/
structure Keeps (ks : List Kept) (master : Shape) (s : PageStore) : Prop where
  forest : s.Forest (master :: ks.map Kept.tree)
  page : master.page = root
  entries : master.entries = numbered (ks.map Kept.bytes)
  rows : ∀ k ∈ ks, k.tree.entries = numbered (k.made.rows.map Row.encode)
  dense : ∀ k ∈ ks, k.tree.Dense
  names : ks.Pairwise fun k k' => sameName k.made.name k'.made.name = false

namespace Keeps

theorem synced (h : Keeps ks master s) : s.Synced := h.forest.synced (List.cons_ne_nil _ _)

theorem lists (h : Keeps ks master s) : Lists ks master s :=
  ⟨h.forest.sound, h.synced, h.forest.standing master List.mem_cons_self, h.page, h.entries, h.names⟩

/-- In a file with the same nodes and more. -/
theorem mono (h : Keeps ks master s) (hsound : s'.header.Sound) (hsynced : s'.Synced)
    (hview : s.view.Within s'.view) : Keeps ks master s' :=
  ⟨h.forest.mono hsound hsynced hview, h.page, h.entries, h.rows, h.dense, h.names⟩

theorem standing (h : Keeps ks master s) (hk : k ∈ ks) : k.tree.Stands s.view :=
  h.forest.standing k.tree (List.mem_cons_of_mem _ (List.mem_map_of_mem hk))

/-- A call on the tree of a table. -/
theorem on_tree {α : Type} (h : Keeps ks master s) (hk : k ∈ ks) (c : Call Tree α) : ∃ t,
    t.store = s ∧ t.Represents k.tree ∧
      (Tree.on k.tree.page c).result s = ((c.result t).1, (c.result t).2.store) :=
  Tree.on_ok (h.standing hk) h.forest.sound h.synced c

/-- There is an id for every row that a table has room for. -/
theorem length_rows_lt (h : Keeps ks master s) (hk : k ∈ ks) :
    k.made.rows.length + 1 < UInt64.size := by
  obtain ⟨t, -, hrep, -⟩ := h.on_tree hk Tree.scan
  have hlen := hrep.length_entries_lt
  rwa [h.rows k hk, length_numbered, List.length_map] at hlen

theorem row_fits (h : Keeps ks master s) (hk : k ∈ ks) :
    ∀ row ∈ k.made.rows, row.encode.size ≤ Tree.maxValueSize := by
  intro row hrow
  have hbytes : row.encode ∈ k.made.rows.map Row.encode := List.mem_map_of_mem hrow
  obtain ⟨e, he, hvalue⟩ := exists_numbered hbytes
  exact hvalue ▸ (h.standing hk).small.value_le (h.rows k hk ▸ he)

/-- The rows of a table as they were added. -/
theorem rows_ok (h : Keeps ks master s) (hk : k ∈ ks) (hname : sameName k.made.name name = true) :
    (Catalog.rows name).result s =
      (.ok ((k.made.rows.zipIdx 1).map fun r => (.ofNat r.2, r.1)), s) := by
  have hscan := Tree.on_scan h.forest.sound (h.standing hk).scans
  exact h.lists.rows_of_scan hk hname (h.rows k hk ▸ hscan) (h.row_fits hk)

end Keeps

end Catalog

end PagedTree
