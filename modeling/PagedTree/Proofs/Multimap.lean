import PagedTree.Proofs.Room

/-! # A tree is a multimap

What a program sees of a tree is the list of entries that a scan shows. The list is in key order, and
each call changes it and answers from it as a sorted list of entries would.
-/
namespace PagedTree.Tree

variable {t t' : Tree} {s : Shape} {root : PageNo} {es : List Entry}

/-- A handle on the tree with this root page that shows the entries `es`, and what the calls make of
them. An insertion may fail only because the file is full. -/
structure Multimap (root : PageNo) (t : Tree) (es : List Entry) : Prop where
  shown : t.Shows es
  sorted : es.Pairwise fun x y => x.key ≤ y.key
  inserted : ∀ (key : UInt64) (value : ByteArray), value.size ≤ maxValueSize →
    ∃ r t', (insert key value).result t = (r, t') ∧ (r = .error (.error .full) ∨ r = .ok () ∧
      ∃ pre post, es = pre ++ post ∧ (∀ x ∈ pre, x.key ≤ key) ∧ (∀ x ∈ post, key ≤ x.key) ∧
        t'.Shows (pre ++ ⟨key, value⟩ :: post))
  erased : ∀ key : UInt64, ∃ found t', (erase key).result t = (.ok found, t') ∧
    (found = true ↔ ∃ x ∈ es, x.key = key) ∧
    (found = true → ∃ pre v post, es = pre ++ ⟨key, v⟩ :: post ∧ t'.Shows (pre ++ post)) ∧
    (found = false → t'.store = t.store ∧ t'.Shows es)
  got : ∀ key : UInt64, ∃ answer t', (get? key).result t = (.ok answer, t') ∧
    (∀ v, answer = some v → ⟨key, v⟩ ∈ es) ∧ (answer = none ↔ ∀ x ∈ es, x.key ≠ key) ∧ t'.Shows es
  scanned : ∀ t', scan.result t = (.ok es, t') → t'.Shows es
  refetched : ∃ t' store, (load root).result t.store = (.ok t', store) ∧ t'.Shows es
  reopened : ∀ path, ∃ store t' store', PageStore.load path (.file t.store.file) = .ok store ∧
    (load root).result store = (.ok t', store') ∧ t'.Shows es

theorem Represents.insert_shows (h : t.Represents s) (key : UInt64) {value : ByteArray}
    (hv : value.size ≤ maxValueSize) : ∃ r t', (insert key value).result t = (r, t') ∧
      (r = .error (.error .full) ∨ r = .ok () ∧ t'.Shows (s.entriesWith ⟨key, value⟩)) := by
  have hsound := h.coherent.sound
  obtain ⟨fs, g, ws, r, t', hrun, hins, hwrote, hentered⟩ := h.insert_ok hv key
  refine ⟨r, t', hrun, ?_⟩
  cases g with
  | stopped => exact .inl hentered.1
  | halves => exact hentered.elim
  | whole s' =>
    obtain ⟨-, -, hentries⟩ :=
      hins.stands h.stands (hwrote.unseen hsound) (hwrote.fresh hsound).1 hv
    exact .inr ⟨hentered.1, hentries ▸ hentered.2.shows⟩

theorem Represents.erase_shows (h : t.Represents s) (key : UInt64) : ∃ found t',
    (erase key).result t = (.ok found, t') ∧ (found = true ↔ ∃ x ∈ s.entries, x.key = key) ∧
    (found = true → ∃ pre v post, s.entries = pre ++ ⟨key, v⟩ :: post ∧ t'.Shows (pre ++ post)) ∧
    (found = false → t'.store = t.store ∧ t'.Shows s.entries) := by
  rcases h.erase_ok key with ⟨t', hrun, hadv, hnone⟩ | ⟨t', hrun, ws, s', herased, -, hrep⟩
  · refine ⟨false, t', hrun, ?_, by simp, fun _ => ⟨hadv.store_eq, (h.advance hadv).shows⟩⟩
    simpa using h.stands.ordered.find?_eq_none hnone
  · obtain ⟨pre, v, post, hentries, hentries'⟩ := herased.entries h.stands
    have hmem : ⟨key, v⟩ ∈ s.entries := by simp [hentries]
    exact ⟨true, t', hrun, iff_of_true rfl ⟨⟨key, v⟩, hmem, rfl⟩,
      fun _ => ⟨pre, v, post, hentries, hentries' ▸ hrep.shows⟩, by simp⟩

theorem Represents.get_shows (h : t.Represents s) (key : UInt64) : ∃ answer t',
    (get? key).result t = (.ok answer, t') ∧ (∀ v, answer = some v → ⟨key, v⟩ ∈ s.entries) ∧
    (answer = none ↔ ∀ x ∈ s.entries, x.key ≠ key) ∧ t'.Shows s.entries := by
  obtain ⟨t', hrun, hadv⟩ := h.get?_ok key
  exact ⟨_, t', hrun, fun v hv => Shape.mem_of_find? hv, h.stands.ordered.find?_eq_none_iff,
    (h.advance hadv).shows⟩

theorem Represents.multimap (h : t.Represents s) : Multimap t.root t s.entries := by
  refine ⟨h.shows, h.stands.ordered.sorted, ?_, h.erase_shows, h.get_shows, ?_,
    ?_, ?_⟩
  · intro key value hv
    obtain ⟨pre, post, hcut, hwith, hpre, hpost⟩ := h.stands.ordered.entriesWith ⟨key, value⟩
    obtain ⟨r, t', hrun, hfull | ⟨hok, hshows⟩⟩ := h.insert_shows key hv
    · exact ⟨r, t', hrun, .inl hfull⟩
    · exact ⟨r, t', hrun, .inr ⟨hok, pre, post, hcut, hpre, hpost, hwith ▸ hshows⟩⟩
  · intro t' hrun
    obtain ⟨u, hscan, hadv⟩ := h.scan_ok
    cases hrun.symm.trans hscan
    exact (h.advance hadv).shows
  · obtain ⟨t', hrun, -, -, hrep⟩ := h.refetch
    exact ⟨t', t.store, hrun, hrep.shows⟩
  · intro path
    obtain ⟨store, t', hopen, hrun, -, hrep⟩ := h.reopen path
    exact ⟨store, t', store, hopen, hrun, hrep.shows⟩

/-- From an empty list on, every call of every life of a tree is one on a sorted list of entries. -/
theorem multimap_refinement :
    (∀ {s s' s'' : PageStore} {root : PageNo} {t : Tree}, s.Reached →
      create.result s = (.ok root, s') → (load root).result s' = (.ok t, s'') → t.Shows []) ∧
    ∀ {root : PageNo} {t : Tree}, Reached root t → ∃ es, Multimap root t es := by
  constructor
  · intro s s' s'' root t hs hcreate hload
    obtain ⟨hsound, hsynced, hstands⟩ := create_represents hs.sound hcreate
    obtain ⟨u, hrun, -, -, hrep⟩ := load_represents hstands hsound hsynced
    cases hload.symm.trans hrun
    have hempty : (Shape.leaf root .empty).entries = [] := Shape.entries_leaf
    exact hempty ▸ hrep.shows
  · intro root t h
    obtain ⟨rfl, s, hrep⟩ := h.represents
    exact ⟨s.entries, hrep.multimap⟩

/-- A tree that has just been created, and one of several levels with copies of a key. -/
theorem multimap_refinement_of_thirteen : (∃ t : Tree, t.Shows []) ∧
    ∃ t s, Reached 0 t ∧ Displays 0 t s ∧ order < s.leaves.length ∧
      Multimap 0 t ([1, 2, 3, 5, 5, 5, 5, 8, 9, 10, 11, 12, 13].map fun key => ⟨key, .empty⟩) := by
  obtain ⟨store, s₁, s₂, u, hs, hcreate, hload, -⟩ := exists_created
  obtain ⟨t, s, hreached, hrep, hentries, hleaves⟩ :=
    @exists_keys [0, 7] [1, 2, 3, 5, 5, 5, 5, 8, 9, 10, 11, 12, 13] (by decide) (by decide)
  obtain ⟨es, hmultimap⟩ := multimap_refinement.2 hreached
  obtain rfl : es = s.entries := hmultimap.shown.unique hrep.shows
  refine ⟨⟨u, multimap_refinement.1 hs hcreate hload⟩, t, s, hreached,
    hreached.represents.1 ▸ hrep.displays, hleaves order (by decide), hentries ▸ hmultimap⟩

end PagedTree.Tree
