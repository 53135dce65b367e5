import PagedTree.Proofs.Room

/-! # Calls that are cut short

When a call that changes a tree is cut short between two writes, a scan of the file shows the entries
of before or those of afterwards, and the same holds after an insertion that found no page. This needs
no log: right halves are written before the nodes that lead to them.
-/
namespace PagedTree

/-- A scan on a fresh handle shows these entries when the file is opened. -/
def SparseFile.Recovers (f : SparseFile) (root : PageNo) (es : List Entry) : Prop :=
  ∀ path, ∃ store t store', PageStore.load path (.file f) = .ok store ∧
    (Tree.load root).result store = (.ok t, store') ∧ t.Shows es

namespace Tree

variable {t t' : Tree} {s : Shape} {root : PageNo} {es es' : List Entry}

/-- Each file that a call leaves, from before its first write to after its last, recovers to one of two
lists, and so does a fresh handle on the store after the call. -/
structure SurvivesCuts (root : PageNo) (t t' : Tree) (es es' : List Entry) : Prop where
  files : ∃ files, t'.store.journal = files ++ t.store.journal ∧
    ∀ f ∈ t.store.file :: files, f.Recovers root es ∨ f.Recovers root es'
  after : ∃ u store, (load root).result t'.store = (.ok u, store) ∧ (u.Shows es ∨ u.Shows es')

theorem recovers {store : PageStore} (hsound : store.header.Sound) (hsynced : store.Synced)
    (h : Scans store.view root es) : store.file.Recovers root es := by
  intro path
  obtain ⟨t, t', hrun, hscan, -⟩ := @load_scans root { store with journal := [] } hsound es h
  exact ⟨_, t, _, PageStore.load_synced hsynced path, hrun, t', hscan⟩

/-- It is enough that every first part of the writes leaves one of the two lists. -/
theorem Represents.survivesCuts (h : t.Represents s) {fs : List PageNo} {ws : List (PageNo × Node)}
    (hwrote : t.store.Wrote fs ws t'.store) (hcut : ∀ {pre post : List (PageNo × Node)},
      ws = pre ++ post → Scans (t.store.view.write pre) t.root es ∨
        Scans (t.store.view.write pre) t.root es') : SurvivesCuts t.root t t' es es' := by
  have hsound := h.coherent.sound
  have hscans : ∀ {store : PageStore} {gs : List PageNo} {pre post : List (PageNo × Node)},
      t.store.Wrote gs pre store → ws = pre ++ post →
        Scans store.view t.root es ∨ Scans store.view t.root es' := by
    intro store gs pre post hpart he
    have hsame := (hpart.view hsound).sameWay
    exact (hcut he).imp (·.sameWay hsame) (·.sameWay hsame)
  obtain ⟨files, hfiles, hparts⟩ := hwrote.journal hsound
  refine ⟨⟨files, hfiles, ?_⟩, ?_⟩
  · intro f hf
    rcases List.mem_cons.1 hf with rfl | hf
    · exact (hscans (.refl _) rfl).imp (recovers hsound h.synced) (recovers hsound h.synced)
    · obtain ⟨store, gs, pre, post, he, hpart, hsynced, rfl⟩ := hparts f hf
      exact (hscans hpart he).imp (recovers (hpart.sound hsound) hsynced)
        (recovers (hpart.sound hsound) hsynced)
  · rcases hscans hwrote (List.append_nil ws).symm with hes | hes'
    · obtain ⟨u, u', hrun, hscan, -⟩ := load_scans (hwrote.sound hsound) hes
      exact ⟨u, _, hrun, .inl ⟨u', hscan⟩⟩
    · obtain ⟨u, u', hrun, hscan, -⟩ := load_scans (hwrote.sound hsound) hes'
      exact ⟨u, _, hrun, .inr ⟨u', hscan⟩⟩

/-- A call that writes nothing leaves what was there. -/
theorem Represents.survives_unwritten (h : t.Represents s) (hsame : t'.store = t.store)
    (es' : List Entry) : SurvivesCuts t.root t t' s.entries es' := by
  have hwrote : t.store.Wrote [] [] t'.store := by
    rw [hsame]
    exact .refl _
  apply h.survivesCuts hwrote
  intro pre post he
  obtain ⟨rfl, -⟩ := List.append_eq_nil_iff.1 he.symm
  exact .inl (h.page ▸ h.stands.scans)

/-- What each call leaves of a tree when it is cut short. An insertion adds the entry at one place, an
erasure takes out at most one entry. -/
structure Resilient (root : PageNo) (t : Tree) (s : Shape) : Prop where
  page : s.page = root
  on : s.On t.store.view
  shown : t.Shows s.entries
  added : ∀ e : Entry, ∃ pre post, s.entries = pre ++ post ∧ s.entriesWith e = pre ++ e :: post ∧
    (∀ x ∈ pre, x.key ≤ e.key) ∧ ∀ x ∈ post, e.key ≤ x.key
  inserted : ∀ (key : UInt64) (value : ByteArray), ∃ r t', (insert key value).result t = (r, t') ∧
    (r = .ok () → t'.Shows (s.entriesWith ⟨key, value⟩)) ∧
    SurvivesCuts root t t' s.entries (s.entriesWith ⟨key, value⟩)
  erased : ∀ key : UInt64, ∃ found t' es', (erase key).result t = (.ok found, t') ∧ t'.Shows es' ∧
    SurvivesCuts root t t' s.entries es' ∧ (es' = s.entries ∨ ∃ pre v post,
      s.entries = pre ++ ⟨key, v⟩ :: post ∧ es' = pre ++ post)

theorem Represents.resilient (h : t.Represents s) : Resilient t.root t s := by
  have hsound := h.coherent.sound
  refine ⟨h.page, h.stands.on, h.shows, h.stands.ordered.entriesWith, ?_, ?_⟩
  · intro key value
    by_cases hv : value.size ≤ maxValueSize
    · obtain ⟨fs, g, ws, r, t', hrun, hins, hwrote, hentered⟩ := h.insert_ok hv key
      have hfs := hwrote.unseen hsound
      have hd := (hwrote.fresh hsound).1
      refine ⟨r, t', hrun, ?_, h.survivesCuts hwrote ?_⟩
      · intro hok
        cases g with
        | stopped =>
          rw [hok] at hentered
          cases hentered.1
        | halves => exact hentered.elim
        | whole s' =>
          obtain ⟨-, -, hentries⟩ := hins.stands h.stands hfs hd hv
          exact hentries ▸ hentered.2.shows
      · intro pre post he
        exact h.page ▸ hins.scans h.stands hfs hd hv he
    · have htoo := insert_tooLarge (t := t) (Nat.not_le.1 hv) key
      refine ⟨.error (.error (.valueTooLarge value.size maxValueSize)), t, htoo, ?_,
        h.survives_unwritten rfl _⟩
      intro hok
      cases hok
  · intro key
    rcases h.erase_ok key with ⟨t', hrun, hadv, -⟩ | ⟨t', hrun, ws, s', herased, hwrote, hrep⟩
    · exact ⟨false, t', s.entries, hrun, (h.advance hadv).shows,
        h.survives_unwritten hadv.store_eq _, .inl rfl⟩
    · refine ⟨true, t', s'.entries, hrun, hrep.shows, h.survivesCuts hwrote ?_,
        .inr (herased.entries h.stands)⟩
      intro pre post he
      exact h.page ▸ herased.scans h.stands he

/-- A scan survives an operation cut short at any moment of the life of a tree. -/
theorem scan_survives_cut (h : Reached root t) : ∃ s, Resilient root t s := by
  obtain ⟨rfl, s, hrep⟩ := h.represents
  exact ⟨s, hrep.resilient⟩

/-- A tree of several levels with copies of its first and its last key. -/
theorem scan_survives_cut_of_thirteen : ∃ t s, Reached 0 t ∧
    s.entries = ([1, 1, 1, 1, 5, 6, 7, 8, 9, 11, 11, 11, 11].map fun key => ⟨key, .empty⟩) ∧
    order < s.leaves.length ∧ Resilient 0 t s := by
  obtain ⟨t, s, hreached, hrep, hentries, hleaves⟩ :=
    @exists_keys [4, 10] [1, 1, 1, 1, 5, 6, 7, 8, 9, 11, 11, 11, 11] (by decide) (by decide)
  obtain ⟨s', hresilient⟩ := scan_survives_cut hreached
  obtain rfl := hreached.eq_of_on hrep hresilient.on hresilient.page
  exact ⟨t, s', hreached, hentries, hleaves order (by decide), hresilient⟩

end Tree

end PagedTree
