import PagedTree.Proofs.Isolation
import PagedTree.Proofs.Threads

/-! # What can fail

Throughout the life of a file a call on one of its trees fails for two reasons only: an insertion is
given a value that is too long, or it asks for a page and none is left. No call finds a page that does
not hold what it should, and none is led to a page that has not been handed out.
-/
namespace PagedTree.Tree

variable {t t' : Tree} {s : Shape} {root : PageNo} {roots : List PageNo} {store : PageStore}

/-! ## One request after the other -/

theorem Represents.greatestKey_threaded (h : t.Represents s) (hthread : t.Threaded)
    {key : Option UInt64} (hrun : greatestKey.result t = (.ok key, t')) : t'.Threaded := by
  obtain ⟨u, hkey, hadv⟩ := h.greatestKey_ok
  cases hrun.symm.trans hkey
  rcases greatestKey_cursor hrun with hcursor | hcursor
  · exact hthread.read h.coherent hadv hcursor
  · exact .of_none hcursor

theorem Represents.nextId_threaded (h : t.Represents s) (hthread : t.Threaded) {next : UInt64}
    (hrun : nextId.result t = (.ok next, t')) : t'.Threaded := by
  obtain ⟨key, u, hkey, hrest⟩ := Call.exists_of_bind_ok hrun
  have hthread' := h.greatestKey_threaded hthread hkey
  cases key with
  | none =>
    cases hrest
    exact hthread'
  | some key =>
    dsimp only at hrest
    split at hrest
    · cases hrest
      exact hthread'
    · cases hrest

theorem Represents.request_threaded (h : t.Represents s) (hthread : t.Threaded) {r : Request}
    (hrun : r.run.result t = (.ok (), t')) : t'.Threaded := by
  -- a call that only looks up
  have hread : ∀ {α : Type} {c : Call Tree α} {a : α}, Call.Leaves cursor c →
      (∃ u, c.result t = (.ok a, u) ∧ t.Advanced [] [] u) → c.silent.result t = (.ok (), t') →
      t'.Threaded := by
    rintro α c a hleaves ⟨u, hc, hadv⟩ hsilent
    obtain ⟨b, hc'⟩ := Call.exists_of_silent_ok hsilent
    cases hc.symm.trans hc'
    have hcursor := hleaves t
    rw [hc] at hcursor
    exact hthread.read h.coherent hadv hcursor
  cases r with
  | insert key value => exact h.insert_threaded hthread hrun
  | erase key =>
    obtain ⟨erased, herase⟩ := Call.exists_of_silent_ok hrun
    exact h.erase_threaded hthread herase
  | get key => exact hread (get?_leaves key) (h.get?_ok key) hrun
  | scan =>
    obtain ⟨es, hscan⟩ := Call.exists_of_silent_ok hrun
    exact .of_none (scan_cursor hscan)
  | dump => exact hread dump_leaves h.dump_ok hrun
  | toFront =>
    obtain ⟨u, hfront, hthread'⟩ := h.toFront_threaded
    cases hrun.symm.trans hfront
    exact hthread'
  | toNext =>
    obtain ⟨u, hnext, hthread'⟩ := h.coherent.toNext_ok hthread
    cases hrun.symm.trans hnext
    exact hthread'
  | lastLeafSize => exact hread lastLeafSize_leaves h.lastLeafSize_ok hrun
  | greatestKey =>
    obtain ⟨key, hkey⟩ := Call.exists_of_silent_ok hrun
    exact h.greatestKey_threaded hthread hkey
  | nextId =>
    obtain ⟨next, hnext⟩ := Call.exists_of_silent_ok hrun
    exact h.nextId_threaded hthread hnext

theorem Represents.used_threaded (h : t.Represents s) (hthread : t.Threaded) (hused : t.Used t') :
    (∃ s', t'.Represents s') ∧ t'.Threaded := by
  induction hused with
  | fresh => exact ⟨⟨s, h⟩, hthread⟩
  | request r _ hrun ih =>
    obtain ⟨⟨s', hrep⟩, hthread'⟩ := ih
    obtain ⟨fs, ws, s'', -, -, hrep'⟩ := hrep.request hrun
    exact ⟨⟨s'', hrep'⟩, hrep.request_threaded hthread' hrun⟩

/-! ## Errors -/

/-- On this handle an insertion fails if its value is too long or no page is left, every other call
ends well, and the tree can be opened again from the store and from the file. The number of the next
row is the one answer that may not exist. -/
structure Unfailing (t : Tree) : Prop where
  tooLarge : ∀ key value, (∃ n m t', (insert key value).result t =
    (.error (.error (.valueTooLarge n m)), t')) ↔ maxValueSize < value.size
  insert : ∀ key value, value.size ≤ maxValueSize →
    (∃ t', (insert key value).result t = (.ok (), t')) ∨
      ∃ t', (insert key value).result t = (.error (.error .full), t') ∧
        PageStore.allocate.result t'.store = (.error (.error .full), t'.store)
  erase : ∀ key, ∃ erased t', (erase key).result t = (.ok erased, t')
  get : ∀ key, ∃ value t', (get? key).result t = (.ok value, t')
  scan : ∃ es t', scan.result t = (.ok es, t')
  dump : ∃ text t', dump.result t = (.ok text, t')
  lastLeafSize : ∃ n t', lastLeafSize.result t = (.ok n, t')
  greatestKey : ∃ key t', greatestKey.result t = (.ok key, t')
  toFront : ∃ t', toFront.result t = (.ok (), t')
  toNext : ∃ t', toNext.result t = (.ok (), t')
  refetch : ∃ t', (load t.root).result t.store = (.ok t', t.store)
  reopen : ∀ path, ∃ store t', PageStore.load path (.file t.store.file) = .ok store ∧
    (load t.root).result store = (.ok t', store)
  errors : ∀ (r : Request) e t', r.run.result t = (.error (.error e), t') →
    e = .full ∨ ∃ n m, e = .valueTooLarge n m

theorem Represents.insert_ends (h : t.Represents s) (key : UInt64) {value : ByteArray}
    (hv : value.size ≤ maxValueSize) : (∃ t', (insert key value).result t = (.ok (), t')) ∨
      ∃ t', (insert key value).result t = (.error (.error .full), t') ∧
        PageStore.allocate.result t'.store = (.error (.error .full), t'.store) := by
  obtain ⟨fs, g, ws, r, t', hrun, -, -, hentered⟩ := h.insert_ok hv key
  cases g with
  | whole s' =>
    obtain ⟨rfl, -⟩ := hentered
    exact .inl ⟨t', hrun⟩
  | halves => exact hentered.elim
  | stopped =>
    obtain ⟨rfl, hroom, -⟩ := hentered
    exact .inr ⟨t', hrun, PageStore.allocate_full hroom⟩

theorem Represents.erase_ends (h : t.Represents s) (key : UInt64) :
    ∃ erased t', (Tree.erase key).result t = (.ok erased, t') := by
  rcases h.erase_ok key with ⟨t', hrun, -⟩ | ⟨t', hrun, -⟩
  · exact ⟨false, t', hrun⟩
  · exact ⟨true, t', hrun⟩

/-- Where there is a largest key the next number is one more, or there is none. -/
theorem Represents.nextId_ne_error (h : t.Represents s) (e : StoreError) :
    nextId.result t ≠ (.error (.error e), t') := by
  obtain ⟨u, hkey, -⟩ := h.greatestKey_ok
  rw [nextId, Call.result_bind_ok hkey]
  cases s.greatestKey with
  | none => simp
  | some key =>
    dsimp only
    split <;> simp

theorem Represents.errors (h : t.Represents s) (hthread : t.Threaded) {r : Request} {e : StoreError}
    (hrun : r.run.result t = (.error (.error e), t')) : e = .full ∨ ∃ n m, e = .valueTooLarge n m := by
  -- a call that ends well reports no error
  have hends : ∀ {α : Type} {c : Call Tree α} {a : α} {u : Tree}, c.result t = (.ok a, u) →
      c.silent.result t ≠ (.error (.error e), t') := by
    intro α c a u hc hsilent
    cases hc.symm.trans (Call.error_of_silent hsilent)
  cases r with
  | insert key value =>
    by_cases hv : value.size ≤ maxValueSize
    · rcases h.insert_ends key hv with ⟨u, hok⟩ | ⟨u, hfull, -⟩
      · cases hrun.symm.trans hok
      · cases hrun.symm.trans hfull
        exact .inl rfl
    · cases hrun.symm.trans (insert_tooLarge (Nat.not_le.1 hv) key)
      exact .inr ⟨_, _, rfl⟩
  | erase key =>
    obtain ⟨erased, u, hok⟩ := h.erase_ends key
    exact absurd hrun (hends hok)
  | get key =>
    obtain ⟨u, hok, -⟩ := h.get?_ok key
    exact absurd hrun (hends hok)
  | scan =>
    obtain ⟨u, hok, -⟩ := h.scan_ok
    exact absurd hrun (hends hok)
  | dump =>
    obtain ⟨u, hok, -⟩ := h.dump_ok
    exact absurd hrun (hends hok)
  | toFront =>
    obtain ⟨u, hok, -⟩ := h.toFront_threaded
    cases hrun.symm.trans hok
  | toNext =>
    obtain ⟨u, hok, -⟩ := h.coherent.toNext_ok hthread
    cases hrun.symm.trans hok
  | lastLeafSize =>
    obtain ⟨u, hok, -⟩ := h.lastLeafSize_ok
    exact absurd hrun (hends hok)
  | greatestKey =>
    obtain ⟨u, hok, -⟩ := h.greatestKey_ok
    exact absurd hrun (hends hok)
  | nextId => exact absurd (Call.error_of_silent hrun) (h.nextId_ne_error e)

theorem Represents.unfailing (h : t.Represents s) (hthread : t.Threaded) : t.Unfailing where
  tooLarge key value := by
    constructor
    · rintro ⟨n, m, t', hrun⟩
      by_cases hv : value.size ≤ maxValueSize
      · rcases h.insert_ends key hv with ⟨u, hok⟩ | ⟨u, hfull, -⟩
        · cases hrun.symm.trans hok
        · cases hrun.symm.trans hfull
      · exact Nat.not_le.1 hv
    · exact fun hv => ⟨_, _, t, insert_tooLarge hv key⟩
  insert key _ hv := h.insert_ends key hv
  erase := h.erase_ends
  get key := (h.get?_ok key).elim fun t' hrun => ⟨_, t', hrun.1⟩
  scan := h.scan_ok.elim fun t' hrun => ⟨_, t', hrun.1⟩
  dump := h.dump_ok.elim fun t' hrun => ⟨_, t', hrun.1⟩
  lastLeafSize := h.lastLeafSize_ok.elim fun t' hrun => ⟨_, t', hrun.1⟩
  greatestKey := h.greatestKey_ok.elim fun t' hrun => ⟨_, t', hrun.1⟩
  toFront := h.toFront_threaded.elim fun t' hrun => ⟨t', hrun.1⟩
  toNext := (h.coherent.toNext_ok hthread).elim fun t' hrun => ⟨t', hrun.1⟩
  refetch := h.refetch.elim fun t' hrun => ⟨t', hrun.1⟩
  reopen path := by
    obtain ⟨store, t', hopen, hload, -⟩ := h.reopen path
    exact ⟨store, t', hopen, hload⟩
  errors _ _ _ hrun := h.errors hthread hrun

theorem load_cursor {store' : PageStore} (h : (load root).result store = (.ok t, store')) :
    t.cursor = none := by
  obtain ⟨n, _, -, h⟩ := Call.exists_of_bind_ok h
  obtain ⟨_, _, -, h⟩ := Call.exists_of_bind_ok h
  cases h
  rfl

/-- Throughout the life of a file every tree in it can be opened, and whatever has been asked of the
handle, it fails for nothing but a value that is too long or the want of a page. -/
theorem unfailing_calls (h : Planted roots store) (hroot : root ∈ roots) :
    ∃ t, (load root).result store = (.ok t, store) ∧ ∀ t', t.Used t' → t'.Unfailing := by
  obtain ⟨trees, rfl, hforest⟩ := h.forest
  obtain ⟨c, hc, rfl⟩ := List.mem_map.1 hroot
  obtain ⟨t, hload, -, -, hrep⟩ :=
    load_represents (hforest.standing c hc) hforest.sound (hforest.synced (List.ne_nil_of_mem hc))
  refine ⟨t, hload, fun t' hused => ?_⟩
  obtain ⟨⟨s', hrep'⟩, hthread⟩ := hrep.used_threaded (.of_none (load_cursor hload)) hused
  exact hrep'.unfailing hthread

/-- A handle on a tree of several levels, the entries of which it has inserted. -/
theorem unfailing_calls_of_thirteen : ∃ store t t' s, Planted [0] store ∧
    (load 0).result store = (.ok t, store) ∧ t.Used t' ∧ t'.Represents s ∧
    order < s.leaves.length ∧ t'.Unfailing := by
  obtain ⟨_, store, _, _, hs, hcreate, -, hcount⟩ := exists_created
  have hplanted : Planted [0] store := (Planted.bare hs).create hcreate
  obtain ⟨t, hload, hall⟩ := unfailing_calls hplanted (List.mem_singleton_self 0)
  obtain ⟨hsound, hsynced, hstands⟩ := create_represents hs.sound hcreate
  obtain ⟨u, hload', hstore, -, hrep⟩ := load_represents hstands hsound hsynced
  cases hload.symm.trans hload'
  obtain ⟨t', s, hruns, hrep', hperm, -⟩ := hrep.insert_all (n := 0)
    ([1, 2, 3, 4, 5, 6, 7, 8, 9, 10, 11, 12, 13].map fun key => ⟨key, .empty⟩) (by simp)
    (by rw [PageStore.RoomFor, hstore, hcount]; decide)
  have hused := hruns.used .fresh
  refine ⟨store, t, t', s, hplanted, hload, hused, hrep', ?_, hall t' hused⟩
  apply hrep'.stands.small.lt_length_leaves
  rw [hperm.length_eq, Shape.entries_leaf]
  decide

end PagedTree.Tree
