import PagedTree.Proofs.Room

/-! # Lookups and erasures find the same entry

With many entries under one key in many leaves, a lookup finds one of them, and the next erasure takes
that one out. Done in turn the two come to each entry with the key once.
-/
namespace PagedTree.Tree

variable {t t' : Tree} {s : Shape} {root : PageNo} {key : UInt64}

/-- Looking up a key and erasing it in turn until it is not found, with the values found and the handle
in the end. -/
inductive Drains (key : UInt64) : Tree → List ByteArray → Tree → Prop where
  | done {t t' : Tree} : (get? key).result t = (.ok none, t') → Drains key t [] t'
  | more {t t₁ t₂ t' : Tree} {v : ByteArray} {vs : List ByteArray} :
      (get? key).result t = (.ok (some v), t₁) → (erase key).result t₁ = (.ok true, t₂) →
      Drains key t₂ vs t' → Drains key t (v :: vs) t'

/-- A lookup answers with the value of the entry at a place of its own in the scan, and the next erasure
takes that entry out. In turn they find each value under the key once and leave the other entries. -/
structure Drainable (root : PageNo) (t : Tree) (s : Shape) (key : UInt64) : Prop
    extends Displays root t s where
  got : ∃ t', (get? key).result t =
    (.ok ((s.place? key).bind fun i => s.entries[i]?.map Entry.value), t')
  erased : ∀ v t₁, (get? key).result t = (.ok (some v), t₁) → ∃ i t₂, s.place? key = some i ∧
    s.entries[i]? = some ⟨key, v⟩ ∧ (erase key).result t₁ = (.ok true, t₂) ∧
    t₂.Shows (s.entries.eraseIdx i)
  drained : ∃ vs t', Drains key t vs t' ∧ vs.Perm (valuesUnder key s.entries) ∧
    t'.Shows (s.entries.filter (·.key != key))

/-- An erasure after a lookup that has found a value. -/
theorem Represents.erase_found (h : t.Represents s) {v : ByteArray} (hfind : s.find? key = some v) :
    ∃ i t' s', s.place? key = some i ∧ s.entries[i]? = some ⟨key, v⟩ ∧
      (erase key).result t = (.ok true, t') ∧ s'.entries = s.entries.eraseIdx i ∧ t'.Represents s' := by
  rcases h.erased_ok key with ⟨t', -, -, hnone⟩ | ⟨t', hrun, w, ws, s', herased, -, hrep⟩
  · cases hfind.symm.trans hnone
  · cases hfind.symm.trans herased.find?
    obtain ⟨i, hplace, hentry, hentries⟩ := herased.place?
    exact ⟨i, t', s', hplace, hentry, hrun, hentries, hrep⟩

/-- Each round takes one entry with the key, so the rounds come to an end. -/
theorem Represents.drains (h : t.Represents s) (key : UInt64) : ∃ vs t', Drains key t vs t' ∧
    vs.Perm (valuesUnder key s.entries) ∧ t'.Shows (s.entries.filter (·.key != key)) := by
  induction hn : (valuesUnder key s.entries).length generalizing t s with
  | zero =>
    obtain ⟨t', hrun, hadv⟩ := h.get?_ok key
    have hnil := List.length_eq_zero_iff.1 hn
    have habsent := valuesUnder_eq_nil.1 hnil
    rw [h.stands.ordered.find?_eq_none_iff.2 habsent] at hrun
    have hkept : s.entries.filter (·.key != key) = s.entries :=
      List.filter_eq_self.2 (by simpa using habsent)
    exact ⟨[], t', .done hrun, by rw [hnil], hkept.symm ▸ (h.advance hadv).shows⟩
  | succ n ih =>
    obtain ⟨t₁, hget, hadv⟩ := h.get?_ok key
    obtain ⟨v, hv⟩ : ∃ v, s.find? key = some v := by
      refine Option.ne_none_iff_exists'.1 fun hnone => ?_
      simp [valuesUnder_eq_nil.2 (h.stands.ordered.find?_eq_none hnone)] at hn
    obtain ⟨i, t₂, s', -, hentry, herase, hentries, hrep⟩ := (h.advance hadv).erase_found hv
    obtain ⟨pre, post, hcut, rfl⟩ := exists_cut_getElem? hentry
    rw [hcut, eraseIdx_cut rfl] at hentries
    have hvalues : (valuesUnder key s.entries).Perm (v :: valuesUnder key s'.entries) := by
      rw [hcut, hentries]
      exact valuesUnder_perm
    have hothers : s.entries.filter (·.key != key) = s'.entries.filter (·.key != key) := by
      simp [hcut, hentries]
    obtain ⟨vs, t', hdrains, hperm, hshows⟩ := ih hrep (by simpa [hn] using hvalues.length_eq.symm)
    exact ⟨v :: vs, t', .more (hv ▸ hget) herase hdrains, (hperm.cons v).trans hvalues.symm,
      hothers ▸ hshows⟩

theorem Represents.drainable (h : t.Represents s) (key : UInt64) : Drainable t.root t s key := by
  refine ⟨h.displays, ?_, ?_, h.drains key⟩
  · obtain ⟨t', hrun, -⟩ := h.get?_ok key
    rw [← s.find?_eq_place? key]
    exact ⟨t', hrun⟩
  · intro v t₁ hget
    obtain ⟨u, hrun, hadv⟩ := h.get?_ok key
    obtain ⟨hv, rfl⟩ : s.find? key = some v ∧ u = t₁ := by simpa using hrun.symm.trans hget
    obtain ⟨i, t₂, s', hplace, hentry, herase, hentries, hrep⟩ := (h.advance hadv).erase_found hv
    exact ⟨i, t₂, hplace, hentry, herase, hentries ▸ hrep.shows⟩

/-- Whatever the tree looks like, what a lookup finds is what the next erasure takes out. -/
theorem draining (h : Reached root t) : ∃ s, ∀ key, Drainable root t s key := by
  obtain ⟨rfl, s, hrep⟩ := h.represents
  exact ⟨s, hrep.drainable⟩

/-- Seven copies of a key between two others, over three leaves or more. -/
theorem draining_of_seven : ∃ t s, Reached 0 t ∧
    s.entries = ([4, 5, 5, 5, 5, 5, 5, 5, 6].map fun key => ⟨key, .empty⟩) ∧
    2 < s.leaves.length ∧ ∀ key, Drainable 0 t s key := by
  obtain ⟨t, s, hreached, hrep, hentries, hleaves⟩ :=
    @exists_keys [3, 5] [4, 5, 5, 5, 5, 5, 5, 5, 6] (by decide) (by decide)
  obtain ⟨s', hdrainable⟩ := draining hreached
  obtain rfl := hreached.eq_of_on hrep (hdrainable 0).on (hdrainable 0).page
  exact ⟨t, s', hreached, hentries, hleaves 2 (by decide), hdrainable⟩

end PagedTree.Tree
