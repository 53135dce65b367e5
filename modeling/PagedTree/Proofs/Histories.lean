import PagedTree.Proofs.Erasing
import PagedTree.Proofs.Raising

/-! # The life of a tree

A tree is created in some store. From then on calls are made on a handle, the handle may be given up
for a fresh one, and the file may be closed and opened again. At every moment of such a life the
handle stands for a tree on the root page.
-/
namespace PagedTree

/-- A store that has come about by opening a file and by allocating and writing pages. -/
inductive PageStore.Reached : PageStore → Prop where
  | create {d : Disk} {s : PageStore} : PageStore.create d = .ok s → Reached s
  | load {path : String} {d : Disk} {s : PageStore} : PageStore.load path d = .ok s → Reached s
  | allocate {s s' : PageStore} {p : PageNo} : Reached s →
      PageStore.allocate.result s = (.ok p, s') → Reached s'
  | writePage {s s' : PageStore} {p : PageNo} {b : ByteArray} : Reached s →
      (PageStore.writePage p b).result s = (.ok (), s') → Reached s'

theorem PageStore.Reached.sound {s : PageStore} (h : s.Reached) : s.header.Sound := by
  induction h with
  | @create d s hs =>
    cases d with
    | directory => cases hs
    | absent =>
      cases hs
      exact Header.sound_fresh
    | file f =>
      cases hs
      exact Header.sound_fresh
  | @load path d s hs =>
    cases d with
    | absent => cases hs
    | directory => cases hs
    | file f =>
      simp only [PageStore.load] at hs
      split at hs
      · cases hs
      split at hs
      · rename_i h hd
        cases hs
        exact Header.sound_of_decode hd
      · cases hs
  | @allocate s s' p _ hrun ih =>
    by_cases hroom : s.HasRoom
    · rw [PageStore.allocate_ok hroom] at hrun
      cases hrun
      exact PageStore.sound_grown ih hroom
    · rw [PageStore.allocate_full hroom] at hrun
      cases hrun
  | @writePage s s' p b _ hrun ih =>
    rw [PageStore.header_writePage hrun]
    exact ih

/-- A call of which only the effect is wanted. -/
def Call.silent {σ α : Type} (c : Call σ α) : Call σ Unit := do
  let _ ← c
  return

theorem Call.result_silent {σ α : Type} (c : Call σ α) (s : σ) :
    c.silent.result s = (Except.map (fun _ => ()) (c.result s).1, (c.result s).2) := by
  rw [silent, result_bind]
  rcases c.result s with ⟨r, t⟩
  cases r <;> rfl

theorem Call.exists_of_silent_ok {σ α : Type} {c : Call σ α} {s t : σ}
    (h : c.silent.result s = (.ok (), t)) : ∃ a, c.result s = (.ok a, t) := by
  obtain ⟨a, u, hc, hreturn⟩ := exists_of_bind_ok h
  cases hreturn
  exact ⟨a, hc⟩

theorem Call.error_of_silent {σ α : Type} {c : Call σ α} {s t : σ} {i : Interrupt}
    (h : c.silent.result s = (.error i, t)) : c.result s = (.error i, t) := by
  rw [result_silent] at h
  rcases hc : c.result s with ⟨r, u⟩
  rw [hc] at h
  cases r with
  | ok a => cases h
  | error j =>
    cases h
    rfl

namespace Tree

variable {t t' : Tree} {s s' : Shape} {root : PageNo} {store : PageStore}

/-- A scan on the handle shows these entries. -/
def Shows (t : Tree) (es : List Entry) : Prop := ∃ t', scan.result t = (.ok es, t')

theorem Shows.unique {es es' : List Entry} (h : t.Shows es) (h' : t.Shows es') : es = es' := by
  obtain ⟨u, hrun⟩ := h
  obtain ⟨u', hrun'⟩ := h'
  cases hrun.symm.trans hrun'
  rfl

theorem Represents.shows (h : t.Represents s) : t.Shows s.entries := by
  obtain ⟨t', hrun, -⟩ := h.scan_ok
  exact ⟨t', hrun⟩

/-- The tree on the root page, as it stands on the file, each node on a page of its own, and as a
walk through its child slots and a scan show it. -/
structure Displays (root : PageNo) (t : Tree) (s : Shape) : Prop where
  page : s.page = root
  on : s.On t.store.view
  distinct : s.pages.Nodup
  dumped : ∃ t', dump.result t = (.ok (s.render 0), t')
  shown : t.Shows s.entries

theorem Represents.displays (h : t.Represents s) : Displays t.root t s := by
  obtain ⟨t', hrun, -⟩ := h.dump_ok
  exact ⟨h.page, h.stands.on, h.stands.distinct, ⟨t', hrun⟩, h.shows⟩

theorem Represents.root_eq (h : t.Represents s) (h' : t'.Represents s') (hp : s'.page = s.page) :
    t'.root = t.root := by rw [← h'.page, hp, h.page]

/-! ## Fresh handles -/

/-- A call on a handle of its own. -/
theorem on_loaded {α : Type} {store' : PageStore} (h : (load root).result store = (.ok t, store'))
    (c : Call Tree α) : (on root c).result store = ((c.result t).1, (c.result t).2.store) := by
  rw [on, Call.result_bind_ok h]
  rfl

theorem load_read {n : Node} (hn : store.view root = some n) : (load root).result store =
    (.ok ⟨store, Arena.empty.add ⟨root, n.map .unloaded⟩, 0, none⟩, store) := by
  rw [load, Call.result_bind_ok (readNode_ok hn), Call.result_bind_ok (Call.result_get store),
    Call.result_pure]

theorem load_ok (hs : store.header.Sound) {n : Node} (hn : store.view root = some n) :
    ∃ t, (load root).result store = (.ok t, store) ∧ t.store = store ∧ t.root = root ∧
      t.Coherent := by
  refine ⟨_, load_read hn, rfl, rfl, hs, Arena.indexed_fresh _, ?_, ?_, rfl⟩
  · intro id r hr
    obtain rfl := Arena.eq_of_fresh hr
    exact ⟨n, Arena.onPage?_unloaded _ n, hn⟩
  · intro id r hr
    obtain rfl := Arena.eq_of_fresh hr
    exact rootFree_unloaded n

/-- A scan on a fresh handle. -/
theorem load_scans (hs : store.header.Sound) {es : List Entry} (h : Scans store.view root es) :
    ∃ t t', (load root).result store = (.ok t, store) ∧ scan.result t = (.ok es, t') ∧
      t'.store = store := by
  obtain ⟨n, hn⟩ : ∃ n, store.view root = some n := by
    obtain ⟨d, f, chain, hdown, -⟩ := h
    cases hdown with
    | leaf hl => exact ⟨_, hl⟩
    | branch hb => exact ⟨_, hb⟩
  obtain ⟨t, hrun, rfl, rfl, hcoherent⟩ := load_ok hs hn
  obtain ⟨t', hscan, hadv⟩ := scan_ok hcoherent h
  exact ⟨t, t', hrun, hscan, hadv.store_eq⟩

/-- A fresh handle on a tree that the file may hold only in part. -/
theorem load_recalls (hs : store.header.Sound) (hon : s.On store.view) (hd : s.pages.Nodup)
    (hordered : ∃ lo hi, s.Ordered lo hi) :
    ∃ t, (load s.page).result store = (.ok t, store) ∧ t.Recalls store.view s := by
  obtain ⟨t, hrun, rfl, hroot, hcoherent⟩ := load_ok hs hon.top
  exact ⟨t, hrun, hcoherent.mirrors, hroot.symm, hon, hd, hordered, hon.lt_pageCount⟩

/-- A fresh handle on the root page of a tree. -/
theorem load_represents (hs : s.Stands store.view) (hsound : store.header.Sound)
    (hsynced : store.Synced) : ∃ t, (load s.page).result store = (.ok t, store) ∧
      t.store = store ∧ t.root = s.page ∧ t.Represents s := by
  obtain ⟨t, hrun, rfl, hroot, hcoherent⟩ := load_ok hsound hs.on.top
  exact ⟨t, hrun, rfl, hroot, hcoherent, hroot.symm, hs, hsynced⟩

/-- A new tree takes a page and writes an empty leaf there. -/
theorem create_puts (hs : store.header.Sound) (hroom : store.HasRoom) : ∃ b, b.size = pageSize ∧
    Node.decode (.ofNat store.pageCount) b = .ok (.leaf .empty) ∧ create.result store =
      (.ok (.ofNat store.pageCount), store.grown.putPage (.ofNat store.pageCount) b) := by
  have hwithin : NodeOf.WithinOrder (.leaf .empty : Node) := .no_entries none
  obtain ⟨b, hsize, hdecode, hencode⟩ := Node.encode_ok hwithin.fitsPage (.ofNat store.pageCount)
  refine ⟨b, hsize, hdecode, ?_⟩
  rw [create, Call.result_bind_ok (PageStore.allocate_ok hroom),
    Call.result_bind_ok (hencode store.grown),
    Call.result_bind_ok (PageStore.writePage_ok (PageStore.allocated_lt hs hroom) hsize),
    Call.result_pure]

theorem create_ok (hs : store.header.Sound) (hroom : store.HasRoom) : ∃ store',
    create.result store = (.ok (.ofNat store.pageCount), store') ∧ store.Wrote
      [.ofNat store.pageCount] [(.ofNat store.pageCount, .leaf .empty)] store' ∧ store'.Synced ∧
      (Shape.leaf (.ofNat store.pageCount) .empty).Stands store'.view := by
  obtain ⟨b, hsize, hdecode, hrun⟩ := create_puts hs hroom
  obtain ⟨-, hleaf⟩ := PageStore.view_allocated hs hroom hsize hdecode
  refine ⟨_, hrun, .write (.allocate (.refl _) hroom) (PageStore.allocated_lt hs hroom) hsize hdecode,
    PageStore.synced_putPage (PageStore.sound_grown hs hroom), Shape.on_leaf.2 hleaf, by simp, ?_,
    Shape.small_leaf.2 ⟨by decide, by simp [Leaf.empty]⟩, ?_⟩
  · exact Shape.ordered_leaf.2 ⟨by simp [Leaf.keys, Leaf.empty], by simp [Leaf.keys, Leaf.empty]⟩
  · rw [Shape.leaves_leaf]
    exact ⟨[(.ofNat store.pageCount, .empty)], .live _ .nil, rfl, hleaf, rfl⟩

theorem create_full (hroom : ¬store.HasRoom) :
    create.result store = (.error (.error .full), store) := by
  rw [create, Call.result_bind_error (PageStore.allocate_full hroom)]

theorem create_wrote (hs : store.header.Sound) {store' : PageStore}
    (hrun : create.result store = (.ok root, store')) : root = .ofNat store.pageCount ∧
      store.Wrote [root] [(root, .leaf .empty)] store' := by
  by_cases hroom : store.HasRoom
  · obtain ⟨made, hcreate, hwrote, -⟩ := create_ok hs hroom
    cases hrun.symm.trans hcreate
    exact ⟨rfl, hwrote⟩
  · cases hrun.symm.trans (create_full hroom)

theorem create_represents (hs : store.header.Sound) {store' : PageStore}
    (hrun : create.result store = (.ok root, store')) : store'.header.Sound ∧ store'.Synced ∧
      (Shape.leaf root .empty).Stands store'.view := by
  by_cases hroom : store.HasRoom
  · obtain ⟨made, hcreate, hwrote, hsynced, hstands⟩ := create_ok hs hroom
    cases hrun.symm.trans hcreate
    exact ⟨hwrote.sound hs, hsynced, hstands⟩
  · cases hrun.symm.trans (create_full hroom)

/-! ## Calls on a handle -/

/-- What a program can ask of a handle. -/
inductive Request where
  | insert (key : UInt64) (value : ByteArray)
  | erase (key : UInt64)
  | get (key : UInt64)
  | scan
  | dump
  | toFront
  | toNext
  | lastLeafSize
  | greatestKey
  | nextId

/-- The call that a request makes, without its answer. -/
def Request.run : Request → Call Tree Unit
  | .insert key value => Tree.insert key value
  | .erase key => Call.silent (Tree.erase key)
  | .get key => Call.silent (get? key)
  | .scan => Call.silent Tree.scan
  | .dump => Call.silent Tree.dump
  | .toFront => Tree.toFront
  | .toNext => Tree.toNext
  | .lastLeafSize => Call.silent Tree.lastLeafSize
  | .greatestKey => Call.silent Tree.greatestKey
  | .nextId => Call.silent Tree.nextId

/-- A handle on the tree with this root page, at any moment of its life. All calls so far have ended
well. -/
inductive Reached (root : PageNo) : Tree → Prop where
  | create {s s' s'' : PageStore} {t : Tree} : s.Reached → create.result s = (.ok root, s') →
      (load root).result s' = (.ok t, s'') → Reached root t
  | request {t t' : Tree} (r : Request) : Reached root t → r.run.result t = (.ok (), t') →
      Reached root t'
  | refetch {t t' : Tree} {s : PageStore} : Reached root t →
      (load root).result t.store = (.ok t', s) → Reached root t'
  | reopen {t t' : Tree} {path : String} {s s' : PageStore} : Reached root t →
      PageStore.load path (.file t.store.file) = .ok s → (load root).result s = (.ok t', s') →
      Reached root t'

/-- What a request that ends well makes of a tree, with the pages it asks for and the nodes it
writes. -/
inductive Changed (s : Shape) : List PageNo → List (PageNo × Node) → Shape → Prop where
  | nothing : Changed s [] [] s
  | insertion {e : Entry} {fs : List PageNo} {ws : List (PageNo × Node)} {s' : Shape} :
      e.value.size ≤ maxValueSize → Insertion e s fs (.whole s') ws → Changed s fs ws s'
  | erasure {key : UInt64} {ws : List (PageNo × Node)} {s' : Shape} : Erasure key s ws s' →
      Changed s [] ws s'

theorem Changed.page {fs : List PageNo} {ws : List (PageNo × Node)} (h : Changed s fs ws s') :
    s'.page = s.page := by
  cases h with
  | nothing => rfl
  | insertion _ hins => exact hins.page
  | erasure herased => exact herased.page

/-- Requests that only ask. -/
def Request.Reads : Request → Prop
  | .insert .. | .erase _ => False
  | .get _ | .scan | .dump | .toFront | .toNext | .lastLeafSize | .greatestKey | .nextId => True

/-- What a request of this kind that ends well makes of a tree. -/
inductive Request.Makes (s : Shape) :
    Request → List PageNo → List (PageNo × Node) → Shape → Prop where
  | inserted {key : UInt64} {value : ByteArray} {fs : List PageNo} {ws : List (PageNo × Node)}
      {s' : Shape} : value.size ≤ maxValueSize → Insertion ⟨key, value⟩ s fs (.whole s') ws →
      Makes s (.insert key value) fs ws s'
  | erased {key : UInt64} {v : ByteArray} {ws : List (PageNo × Node)} {s' : Shape} :
      Erased key v s ws s' → Makes s (.erase key) [] ws s'
  | missed {key : UInt64} : s.find? key = none → Makes s (.erase key) [] [] s
  | read {r : Request} : r.Reads → Makes s r [] [] s

theorem Request.Makes.changed {r : Request} {fs : List PageNo} {ws : List (PageNo × Node)}
    (h : r.Makes s fs ws s') : Changed s fs ws s' := by
  cases h with
  | inserted hv hins => exact .insertion hv hins
  | erased herased => exact .erasure herased.erasure
  | missed | read => exact .nothing

theorem Represents.reads (h : t.Represents s) {r : Request} (hr : r.Reads) :
    t.Advanced [] [] (r.run.result t).2 := by
  have hsilent : ∀ {α : Type} {c : Call Tree α} {a : α},
      (∃ u, c.result t = (.ok a, u) ∧ t.Advanced [] [] u) →
        t.Advanced [] [] (c.silent.result t).2 := by
    rintro α c a ⟨u, hc, hadv⟩
    rw [Call.result_silent, hc]
    exact hadv
  cases r with
  | insert | erase => exact hr.elim
  | get key => exact hsilent (h.get?_ok key)
  | scan => exact hsilent h.scan_ok
  | dump => exact hsilent h.dump_ok
  | toFront => exact h.toFront_keeps
  | toNext => exact toNext_keeps h.coherent
  | lastLeafSize => exact hsilent h.lastLeafSize_ok
  | greatestKey => exact hsilent h.greatestKey_ok
  | nextId =>
    rw [Request.run, Call.result_silent]
    exact h.nextId_keeps

theorem Represents.makes (h : t.Represents s) {r : Request}
    (hrun : r.run.result t = (.ok (), t')) : ∃ fs ws s', r.Makes s fs ws s' ∧
      t.store.Wrote fs ws t'.store ∧ t'.Represents s' := by
  have hread : r.Reads → ∃ fs ws s', r.Makes s fs ws s' ∧ t.store.Wrote fs ws t'.store ∧
      t'.Represents s' := by
    intro hr
    have hadv := h.reads hr
    rw [hrun] at hadv
    exact ⟨[], [], s, .read hr, hadv.wrote, h.advance hadv⟩
  cases r with
  | insert key value =>
    by_cases hv : value.size ≤ maxValueSize
    · obtain ⟨fs, g, ws, r, u, hu, hins, hwrote, hentered⟩ := h.insert_ok hv key
      obtain ⟨rfl, rfl⟩ : .ok () = r ∧ t' = u := by simpa using hrun.symm.trans hu
      cases g with
      | whole s' => exact ⟨fs, ws, s', .inserted hv hins, hwrote, hentered.2⟩
      | halves => exact hentered.elim
      | stopped => cases hentered.1
    · have htoo := insert_tooLarge (t := t) (Nat.not_le.1 hv) key
      cases hrun.symm.trans htoo
  | erase key =>
    obtain ⟨erased, hu⟩ := Call.exists_of_silent_ok hrun
    rcases h.erased_ok key with ⟨u, hnone, hadv, hfind⟩ | ⟨u, hsome, v, ws, s', herased, hwrote, hrep⟩
    · cases hu.symm.trans hnone
      exact ⟨[], [], s, .missed hfind, hadv.wrote, h.advance hadv⟩
    · cases hu.symm.trans hsome
      exact ⟨[], ws, s', .erased herased, hwrote, hrep⟩
  | get | scan | dump | toFront | toNext | lastLeafSize | greatestKey | nextId => exact hread trivial

theorem Represents.request (h : t.Represents s) {r : Request}
    (hrun : r.run.result t = (.ok (), t')) : ∃ fs ws s', Changed s fs ws s' ∧
      t.store.Wrote fs ws t'.store ∧ t'.Represents s' := by
  obtain ⟨fs, ws, s', hmakes, hwrote, hrep⟩ := h.makes hrun
  exact ⟨fs, ws, s', hmakes.changed, hwrote, hrep⟩

theorem Represents.refetch (h : t.Represents s) : ∃ u, (load t.root).result t.store = (.ok u, t.store) ∧
    u.store = t.store ∧ u.root = t.root ∧ u.Represents s :=
  h.page ▸ load_represents h.stands h.coherent.sound h.synced

/-- What the file of a handle holds when it is opened again. -/
theorem Represents.reopen (h : t.Represents s) (path : String) : ∃ store u,
    PageStore.load path (.file t.store.file) = .ok store ∧
    (load t.root).result store = (.ok u, store) ∧ u.root = t.root ∧ u.Represents s := by
  obtain ⟨u, hrun, -, hroot, hrep⟩ :=
    @load_represents s { t.store with journal := [] } h.stands h.coherent.sound h.synced
  rw [h.page] at hrun hroot
  exact ⟨_, u, PageStore.load_synced h.synced path, hrun, hroot, hrep⟩

/-! ## Lives under a rule -/

/-- A handle on the tree with this root page, with the requests of its life so far, the newest first.
All of them ended well, and each of them and the handle after it keep to the rule. -/
inductive Governed (rule : Request → Tree → Prop) (root : PageNo) : List Request → Tree → Prop where
  | create {s s' s'' : PageStore} {t : Tree} : s.Reached → create.result s = (.ok root, s') →
      (load root).result s' = (.ok t, s'') → Governed rule root [] t
  | request {rs : List Request} {t t' : Tree} (r : Request) : Governed rule root rs t →
      r.run.result t = (.ok (), t') → rule r t' → Governed rule root (r :: rs) t'
  | refetch {rs : List Request} {t t' : Tree} {s : PageStore} : Governed rule root rs t →
      (load root).result t.store = (.ok t', s) → Governed rule root rs t'
  | reopen {rs : List Request} {t t' : Tree} {path : String} {s s' : PageStore} :
      Governed rule root rs t → PageStore.load path (.file t.store.file) = .ok s →
      (load root).result s = (.ok t', s') → Governed rule root rs t'

theorem Reached.governed (h : Reached root t) : ∃ rs, Governed (fun _ _ => True) root rs t := by
  induction h with
  | create hs hcreate hload => exact ⟨[], .create hs hcreate hload⟩
  | request r _ hrun ih =>
    obtain ⟨rs, hrs⟩ := ih
    exact ⟨r :: rs, .request r hrs hrun trivial⟩
  | refetch _ hload ih =>
    obtain ⟨rs, hrs⟩ := ih
    exact ⟨rs, .refetch hrs hload⟩
  | reopen _ hopen hload ih =>
    obtain ⟨rs, hrs⟩ := ih
    exact ⟨rs, .reopen hrs hopen hload⟩

theorem Governed.reached {rule : Request → Tree → Prop} {rs : List Request}
    (h : Governed rule root rs t) : Reached root t := by
  induction h with
  | create hs hcreate hload => exact .create hs hcreate hload
  | request r _ hrun _ ih => exact .request r ih hrun
  | refetch _ hload ih => exact .refetch ih hload
  | reopen _ hopen hload ih => exact .reopen ih hopen hload

/-- Throughout a life under a rule a handle stands for a tree on its root page, and what holds of the
new tree and is kept by each request holds of it. -/
theorem Governed.represents {rule : Request → Tree → Prop} {rs : List Request}
    {I : List Request → Shape → Prop} (h : Governed rule root rs t) (hnew : I [] (.leaf root .empty))
    (hstep : ∀ {rs : List Request} {t t' : Tree} {s s' : Shape} {r : Request} {fs : List PageNo}
      {ws : List (PageNo × Node)}, I rs s → t.Represents s → t'.Represents s' → rule r t' →
        r.Makes s fs ws s' → I (r :: rs) s') :
    t.root = root ∧ ∃ s, t.Represents s ∧ I rs s := by
  induction h with
  | create hs hcreate hload =>
    obtain ⟨hsound, hsynced, hstands⟩ := create_represents hs.sound hcreate
    obtain ⟨u, hrun, -, hroot, hrep⟩ := load_represents hstands hsound hsynced
    cases hload.symm.trans hrun
    exact ⟨hroot, _, hrep, hnew⟩
  | request r _ hrun hrule ih =>
    obtain ⟨rfl, s, hrep, hI⟩ := ih
    obtain ⟨fs, ws, s', hmakes, -, hrep'⟩ := hrep.makes hrun
    exact ⟨hrep.root_eq hrep' hmakes.changed.page, s', hrep', hstep hI hrep hrep' hrule hmakes⟩
  | refetch _ hload ih =>
    obtain ⟨rfl, s, hrep, hI⟩ := ih
    obtain ⟨u, hrun, -, hroot, hrep'⟩ := hrep.refetch
    cases hload.symm.trans hrun
    exact ⟨hroot, s, hrep', hI⟩
  | @reopen rs t t' path store store' _ hopen hload ih =>
    obtain ⟨rfl, s, hrep, hI⟩ := ih
    obtain ⟨store₁, u, hopen', hrun, hroot, hrep'⟩ := hrep.reopen path
    cases hopen.symm.trans hopen'
    cases hload.symm.trans hrun
    exact ⟨hroot, s, hrep', hI⟩

/-- Throughout its life a handle stands for a tree on its root page. -/
theorem Reached.represents (h : Reached root t) : t.root = root ∧ ∃ s, t.Represents s := by
  obtain ⟨rs, hrs⟩ := h.governed
  obtain ⟨hroot, s, hrep, -⟩ := @Governed.represents t root _ rs (fun _ _ => True) hrs trivial
    fun _ _ _ _ _ => trivial
  exact ⟨hroot, s, hrep⟩

/-- What stands on the file below the root page is the tree of the handle. -/
theorem Reached.eq_of_on (h : Reached root t) (hrep : t.Represents s) (hon : s'.On t.store.view)
    (hpage : s'.page = root) : s' = s :=
  hon.unique hrep.stands.on (by rw [hpage, hrep.page, h.represents.1])

/-- In a new store a tree can be created. -/
theorem exists_created : ∃ s s' s'' t, s.Reached ∧ create.result s = (.ok 0, s') ∧
    (load 0).result s' = (.ok t, s'') ∧ s'.pageCount = 1 := by
  obtain ⟨s, hs⟩ : ∃ s, PageStore.create .absent = .ok s := ⟨_, rfl⟩
  have hreached := PageStore.Reached.create hs
  have hroom : s.HasRoom := by
    cases hs
    exact (by decide : Header.fresh.freeOffset.toNat + pageSize < UInt32.size)
  have hzero : s.pageCount = 0 := by
    cases hs
    rfl
  obtain ⟨s', hcreate, hwrote, hsynced, hstands⟩ := create_ok hreached.sound hroom
  rw [hzero] at hcreate hstands
  obtain ⟨t, hload, -⟩ := load_represents hstands (hwrote.sound hreached.sound) hsynced
  refine ⟨s, s', s', t, hreached, hcreate, hload, ?_⟩
  rw [hwrote.pageCount_eq hreached.sound, hzero]
  rfl

/-- A tree that is a leaf below the order takes an entry in without another page. -/
theorem Represents.insert_roomy {p : PageNo} {l : Leaf} (h : t.Represents (.leaf p l))
    (hroom : l.entries.length + 1 < order) {value : ByteArray} (hv : value.size ≤ maxValueSize)
    (key : UInt64) : ∃ t', (insert key value).result t = (.ok (), t') ∧
      t'.Represents (.leaf p (l.insert ⟨key, value⟩)) ∧ t'.store.pageCount = t.store.pageCount := by
  obtain ⟨fs, g, ws, r, t', hrun, hins, hwrote, hentered⟩ := h.insert_ok hv key
  obtain ⟨rfl, rfl⟩ := hins.roomy hroom
  obtain ⟨rfl, hrep⟩ := hentered
  exact ⟨t', hrun, hrep, hwrote.pageCount_eq h.coherent.sound⟩

/-- A tree in a new store takes in an entry. -/
theorem exists_one (key : UInt64) {value : ByteArray} (hv : value.size ≤ maxValueSize) :
    ∃ t, Reached 0 t ∧ t.Represents (.leaf 0 ⟨[⟨key, value⟩], none⟩) := by
  obtain ⟨s, s', s'', t, hs, hcreate, hload, -⟩ := exists_created
  obtain ⟨hsound, hsynced, hstands⟩ := create_represents hs.sound hcreate
  obtain ⟨u, hrun, -, -, hrep⟩ := load_represents hstands hsound hsynced
  cases hload.symm.trans hrun
  obtain ⟨t', hinsert, hrep', -⟩ := hrep.insert_roomy (by decide) hv key
  exact ⟨t', .request (.insert key value) (.create hs hcreate hload) hinsert, hrep'⟩

/-- A tree in a new store takes in two entries with one key if the rule lets it. -/
theorem exists_pair {rule : Request → Tree → Prop} (key : UInt64) {a b : ByteArray}
    (ha : a.size ≤ maxValueSize) (hb : b.size ≤ maxValueSize)
    (hrule : ∀ (value : ByteArray) {t : Tree} {es : List Entry}, t.Shows es → es.length ≤ 2 →
      rule (.insert key value) t) :
    ∃ t, Governed rule 0 [.insert key b, .insert key a] t ∧
      t.Represents (.leaf 0 ⟨[⟨key, b⟩, ⟨key, a⟩], none⟩) := by
  obtain ⟨s, s', s'', t, hs, hcreate, hload, -⟩ := exists_created
  obtain ⟨hsound, hsynced, hstands⟩ := create_represents hs.sound hcreate
  obtain ⟨u, hrun, -, -, hrep⟩ := load_represents hstands hsound hsynced
  cases hload.symm.trans hrun
  obtain ⟨t₁, hinsert₁, hrep₁, -⟩ := hrep.insert_roomy (by decide) ha key
  have hone : Leaf.empty.insert ⟨key, a⟩ = ⟨[⟨key, a⟩], none⟩ := rfl
  have htwo : Leaf.insert ⟨[⟨key, a⟩], none⟩ ⟨key, b⟩ = ⟨[⟨key, b⟩, ⟨key, a⟩], none⟩ := by
    simp [Leaf.insert]
  rw [hone] at hrep₁
  obtain ⟨t₂, hinsert₂, hrep₂, -⟩ := hrep₁.insert_roomy (by simp [order]) hb key
  rw [htwo] at hrep₂
  refine ⟨t₂, .request (.insert key b) (.request (.insert key a) (.create hs hcreate hload) hinsert₁
    (hrule a hrep₁.shows ?_)) hinsert₂ (hrule b hrep₂.shows ?_), hrep₂⟩
  · simp
  · simp

end Tree

end PagedTree
