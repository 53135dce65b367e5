import PagedTree.Proofs.Agreement
import PagedTree.Proofs.Forest

/-! # Trees side by side

Any number of trees can be created in one file and changed in turn. They never have a page in common:
a page that is asked for is new to all of them, and a call writes no page of another tree. So a call
on one tree leaves the bytes and the answers of all others as they were.
-/
namespace PagedTree

namespace PageStore

variable {s t : PageStore} {root : PageNo} {trees : List Shape} {d : Shape}

/-- The pages and answers of a tree are the same in both stores. -/
structure Spared (r : PageNo) (s t : PageStore) : Prop where
  bytes : ∀ p, s.view.Reachable r p →
    t.file.read p.offset pageSize = s.file.read p.offset pageSize
  answers : ∃ u v, (Tree.load r).result s = (.ok u, s) ∧ (Tree.load r).result t = (.ok v, t) ∧
    (∀ key, u.Alike v (Tree.get? key)) ∧ u.Alike v Tree.scan ∧ u.Alike v Tree.dump ∧
    u.Alike v Tree.lastLeafSize ∧ u.Alike v Tree.greatestKey

theorem Forest.spared (h : s.Forest trees) (htended : s.Tended root t)
    (hfar : ∀ c ∈ trees, c.page ≠ root → ∀ p, s.view.Reachable c.page p → ¬s.view.Reachable root p)
    (hsynced : t.Synced) (hd : d ∈ trees) (hne : d.page ≠ root) : Spared d.page s t := by
  have hstands := h.standing d hd
  obtain ⟨u, hu, -, -, hrep⟩ := Tree.load_represents hstands h.sound (h.synced (List.ne_nil_of_mem hd))
  obtain ⟨v, hv, -, -, hrep'⟩ :=
    Tree.load_represents (htended.keeps hstands (hfar d hd hne)).1 htended.sound hsynced
  refine ⟨fun p hp => htended.spares p (h.lt hd hp) (hfar d hd hne p hp), u, v, hu, hv, ?_, ?_, ?_,
    ?_, ?_⟩
  · exact fun key => hrep.alike hrep' fun hw => hw.get?_ok key
  · exact hrep.alike hrep' Tree.Represents.scan_ok
  · exact hrep.alike hrep' Tree.Represents.dump_ok
  · exact hrep.alike hrep' Tree.Represents.lastLeafSize_ok
  · exact hrep.alike hrep' Tree.Represents.greatestKey_ok

end PageStore

namespace Tree

open PageStore (Forest Spared)

variable {t t' t'' : Tree} {c : Shape} {trees : List Shape} {root : PageNo} {roots : List PageNo}
  {store store' : PageStore} {n : Nat}

/-- A handle on which further requests have been made, all of which ended well. -/
inductive Used (t : Tree) : Tree → Prop where
  | fresh : Used t t
  | request {t' t'' : Tree} (r : Request) : Used t t' → r.run.result t' = (.ok (), t'') → Used t t''

theorem Runs.used {rs : List Request} (hruns : t'.Runs rs t'') (h : t.Used t') : t.Used t'' := by
  induction hruns with
  | nil => exact h
  | cons hrun _ ih => exact ih (.request _ h hrun)

/-- One request. -/
theorem Represents.request_tended (h : t.Represents c) {r : Request}
    (hrun : r.run.result t = (.ok (), t')) : t.store.Tended c.page t'.store ∧
      ∃ c', c'.page = c.page ∧ t'.Represents c' := by
  obtain ⟨fs, ws, c', hchanged, hwrote, hrep⟩ := h.request hrun
  exact ⟨hchanged.confined.tended h.stands h.coherent.sound hwrote, c', hchanged.page, hrep⟩

/-- Any number of requests. -/
theorem Represents.used_tended (h : t.Represents c) (hused : t.Used t') :
    t.store.Tended c.page t'.store ∧ ∃ c', c'.page = c.page ∧ t'.Represents c' := by
  induction hused with
  | fresh => exact ⟨.refl h.coherent.sound, c, rfl, h⟩
  | request r _ hrun ih =>
    obtain ⟨htended, c', hpage, hrep⟩ := ih
    obtain ⟨htended', c'', hpage', hrep'⟩ := hrep.request_tended hrun
    exact ⟨htended.trans (hpage ▸ htended'), c'', hpage'.trans hpage, hrep'⟩

/-- A store in which trees with these root pages have been created, newest first, and since then
changed on one handle after the other, with the file closed and opened again at any moment. All calls
have ended well. -/
inductive Planted : List PageNo → PageStore → Prop where
  | bare {s : PageStore} : s.Reached → Planted [] s
  | create {roots : List PageNo} {root : PageNo} {s s' : PageStore} : Planted roots s →
      create.result s = (.ok root, s') → Planted (root :: roots) s'
  | tend {roots : List PageNo} {root : PageNo} {s s' : PageStore} {t t' : Tree} : Planted roots s →
      root ∈ roots → (load root).result s = (.ok t, s') → t.Used t' → Planted roots t'.store
  | reopen {roots : List PageNo} {path : String} {s s' : PageStore} : Planted roots s →
      PageStore.load path (.file s.file) = .ok s' → Planted roots s'

/-- What becomes of all trees when one of them is used on a handle. -/
theorem used_forest (h : store.Forest trees) (hc : c ∈ trees)
    (hrun : (load c.page).result store = (.ok t, store')) (hused : t.Used t') :
    ∃ trees', trees'.map Shape.page = trees.map Shape.page ∧ t'.store.Forest trees' ∧
      ∃ c' ∈ trees', c'.page = c.page ∧ t'.Represents c' := by
  obtain ⟨u, hu, hstore, -, hrep⟩ :=
    load_represents (h.standing c hc) h.sound (h.synced (List.ne_nil_of_mem hc))
  cases hrun.symm.trans hu
  obtain ⟨htended, c', hpage, hrep'⟩ := hrep.used_tended hused
  obtain ⟨as, bs, rfl⟩ := List.append_of_mem hc
  exact ⟨as ++ c' :: bs, by simp [hpage],
    h.replace (hstore ▸ htended) hpage hrep'.stands hrep'.synced, c', by simp, hpage, hrep'⟩

theorem Planted.forest (h : Planted roots store) :
    ∃ trees, trees.map Shape.page = roots ∧ store.Forest trees := by
  induction h with
  | bare hs => exact ⟨[], rfl, hs.sound, by simp, by simp, by simp, by simp⟩
  | @create roots root s s' _ hrun ih =>
    obtain ⟨trees, rfl, hforest⟩ := ih
    obtain ⟨htended, hnew⟩ := create_tended hforest.sound hrun
    obtain ⟨-, hsynced, hstands⟩ := create_represents hforest.sound hrun
    exact ⟨.leaf root .empty :: trees, rfl, hforest.plant htended hnew hstands hsynced⟩
  | tend _ hroot hrun hused ih =>
    obtain ⟨trees, rfl, hforest⟩ := ih
    obtain ⟨c, hc, rfl⟩ := List.mem_map.1 hroot
    obtain ⟨trees', hpages, hforest', -⟩ := used_forest hforest hc hrun hused
    exact ⟨trees', hpages, hforest'⟩
  | @reopen roots path s s' _ hopen ih =>
    obtain ⟨trees, rfl, hforest⟩ := ih
    by_cases htrees : trees = []
    · subst htrees
      exact ⟨[], rfl, (PageStore.Reached.load hopen).sound, by simp, by simp, by simp, by simp⟩
    · have hsynced := hforest.synced htrees
      cases hopen.symm.trans (PageStore.load_synced hsynced path)
      exact ⟨trees, rfl, hforest.sound, fun _ => hsynced, hforest.distinct, hforest.standing,
        hforest.apart⟩

/-- Trees in one file that have no page in common, so that creating another and any request on one of
them spare the others. -/
structure Isolated (roots : List PageNo) (store : PageStore) : Prop where
  distinct : roots.Nodup
  apart : ∀ r ∈ roots, ∀ r' ∈ roots, r ≠ r' →
    ∀ p, store.view.Reachable r p → ¬store.view.Reachable r' p
  created : ∀ {root : PageNo} {store' : PageStore}, create.result store = (.ok root, store') →
    root ∉ roots ∧ ∀ r ∈ roots, Spared r store store'
  requested : ∀ {root : PageNo} {t t' t'' : Tree} {store' : PageStore} (q : Request), root ∈ roots →
    (load root).result store = (.ok t, store') → t.Used t' → q.run.result t' = (.ok (), t'') →
    ∀ r ∈ roots, r ≠ root → Spared r t'.store t''.store

/-- Throughout the life of a file its trees are isolated from each other. -/
theorem isolation (h : Planted roots store) : Isolated roots store := by
  obtain ⟨trees, rfl, hforest⟩ := h.forest
  refine ⟨hforest.distinct, ?_, ?_, ?_⟩
  · intro r hr r' hr'
    obtain ⟨c, hc, rfl⟩ := List.mem_map.1 hr
    obtain ⟨d, hd, rfl⟩ := List.mem_map.1 hr'
    exact hforest.apart c hc d hd
  · intro root store' hrun
    obtain ⟨htended, hnew⟩ := create_tended hforest.sound hrun
    obtain ⟨-, hsynced, -⟩ := create_represents hforest.sound hrun
    constructor
    · intro hmem
      obtain ⟨d, hd, he⟩ := List.mem_map.1 hmem
      exact hforest.page_ne_of_new hnew hd he
    · intro r hr
      obtain ⟨d, hd, rfl⟩ := List.mem_map.1 hr
      exact hforest.spared htended (hforest.far_of_new hnew) hsynced hd
        (hforest.page_ne_of_new hnew hd)
  · intro root t t' t'' store' q hroot hload hused hrun r hr hne
    obtain ⟨c, hc, rfl⟩ := List.mem_map.1 hroot
    obtain ⟨trees', hpages, hforest', c', hc', hpage, hrep⟩ := used_forest hforest hc hload hused
    obtain ⟨htended, c'', -, hrep'⟩ := hrep.request_tended hrun
    rw [← hpages] at hr
    obtain ⟨d, hd, rfl⟩ := List.mem_map.1 hr
    exact hforest'.spared htended (hforest'.far hc') hrep'.synced hd (hpage ▸ hne)

/-- Entries can be inserted into one of several trees as long as there is room. -/
theorem fill_forest {as bs : List Shape} (h : store.Forest (as ++ c :: bs)) {es : List Entry}
    (hv : ∀ e ∈ es, e.value.size ≤ maxValueSize) (hroom : store.RoomFor (n + es.length)) :
    ∃ t t' c', (load c.page).result store = (.ok t, store) ∧ t.Used t' ∧
      t'.store.Forest (as ++ c' :: bs) ∧ c'.page = c.page ∧ c'.entries.Perm (es ++ c.entries) ∧
      t'.store.RoomFor n := by
  have hc : c ∈ as ++ c :: bs := by simp
  obtain ⟨t, hload, rfl, -, hrep⟩ :=
    load_represents (h.standing c hc) h.sound (h.synced (List.ne_nil_of_mem hc))
  obtain ⟨t', c', hruns, hrep', hperm, hleft⟩ := hrep.insert_all es hv hroom
  have hused := hruns.used .fresh
  obtain ⟨htended, d, hpage, hd⟩ := hrep.used_tended hused
  have hpage' : c'.page = c.page := by rw [hrep'.page, ← hd.page, hpage]
  exact ⟨t, t', c', hload, hused, h.replace htended hpage' hrep'.stands hrep'.synced, hpage', hperm,
    hleft⟩

/-- A tree can be created beside others and take in entries as long as there is room. -/
theorem plant_filled (h : Planted (trees.map Shape.page) store) (hforest : store.Forest trees)
    {es : List Entry} (hv : ∀ e ∈ es, e.value.size ≤ maxValueSize)
    (hroom : store.RoomFor (n + es.length + 1)) :
    ∃ store' c, Planted ((c :: trees).map Shape.page) store' ∧ store'.Forest (c :: trees) ∧
      c.entries.Perm es ∧ store'.RoomFor n := by
  obtain ⟨s, hcreate, hwrote, hsynced, hstands⟩ :=
    create_ok hforest.sound (hroom.hasRoom hforest.sound (by omega))
  obtain ⟨htended, hnew⟩ := create_tended hforest.sound hcreate
  have hgrown := hforest.plant (c := .leaf _ .empty) htended hnew hstands hsynced
  have hcount := hwrote.pageCount_eq hforest.sound
  rw [List.length_singleton] at hcount
  obtain ⟨t, t', c, hload, hused, hfilled, hpage, hperm, hleft⟩ :=
    @fill_forest _ s n [] trees hgrown es hv (hroom.next (by omega))
  have hplanted := (h.create hcreate).tend List.mem_cons_self hload hused
  refine ⟨t'.store, c, ?_, hfilled, by simpa [Leaf.empty] using hperm, hleft⟩
  rwa [List.map_cons, hpage]

/-- Two trees of several leaves side by side in a new file. -/
theorem isolation_of_split : ∃ roots store, Planted roots store ∧ roots.length = 2 ∧
    (∀ r ∈ roots, ∃ c : Shape, c.page = r ∧ c.Stands store.view ∧ 1 < c.leaves.length) ∧
    Isolated roots store := by
  let es : List Entry := [1, 2, 3, 4, 5, 6].map fun key => ⟨key, .empty⟩
  have hv : ∀ e ∈ es, e.value.size ≤ maxValueSize := by simp [es]
  obtain ⟨s, hs⟩ : ∃ s, PageStore.create .absent = .ok s := ⟨_, rfl⟩
  have hroom : s.RoomFor 14 := by
    cases hs
    exact (by decide : PageStore.Allows ((Header.fresh.pageCount + 2) * 2 ^ 14))
  have hbare : Planted (List.map Shape.page []) s := .bare (.create hs)
  obtain ⟨trees, htrees, hforest⟩ := hbare.forest
  obtain rfl := List.map_eq_nil_iff.1 htrees
  obtain ⟨s₁, c, hone, hforest₁, hc, hleft⟩ := plant_filled (n := 7) hbare hforest hv hroom
  obtain ⟨s₂, d, htwo, hforest₂, hd, -⟩ := plant_filled (n := 0) hone hforest₁ hv hleft
  refine ⟨_, s₂, htwo, rfl, ?_, isolation htwo⟩
  intro r hr
  obtain ⟨x, hx, rfl⟩ := List.mem_map.1 hr
  have hstands := hforest₂.standing x hx
  have hperm : x.entries.Perm es := by
    rcases List.mem_pair.1 hx with rfl | rfl
    · exact hd
    · exact hc
  exact ⟨x, rfl, hstands, hstands.small.lt_length_leaves (by rw [hperm.length_eq]; decide)⟩

end Tree

end PagedTree
