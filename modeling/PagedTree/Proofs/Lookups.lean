import PagedTree.Proofs.Histories
import PagedTree.Proofs.Stranding

/-! # Lookups after an insertion that was refused

A value that is too large is refused before anything has changed. An insertion that finds no page may
have split a child by then, and what its right half held cannot be looked up on the file any more, nor
on the handle if the root itself had split. Whatever else is looked up has the answer that it had before.
-/
namespace PagedTree

namespace Tree

variable {t t' u : Tree} {s kept held : Shape} {P Q : Pages} {root : PageNo} {e : Entry}
  {fs : List PageNo} {ws : List (PageNo × Node)} {key : UInt64} {value : ByteArray}

/-- What a lookup on the handle answers. -/
def lookup (t : Tree) (key : UInt64) : Except Interrupt (Option ByteArray) :=
  ((get? key).result t).1

/-- Every lookup on the handle ends well and finds one of these entries, if there is one with the
key. -/
def Finds (t : Tree) (es : List Entry) : Prop :=
  ∀ key, ∃ answer, t.lookup key = .ok answer ∧ (∀ v, answer = some v → ⟨key, v⟩ ∈ es) ∧
    (answer = none ↔ ∀ x ∈ es, x.key ≠ key)

theorem Recalls.lookup_eq (h : t.Recalls P s) (key : UInt64) : t.lookup key = .ok (s.find? key) := by
  obtain ⟨t', hrun, -⟩ := h.get?_ok key
  rw [lookup, hrun]

theorem Recalls.finds (h : t.Recalls P s) : t.Finds s.entries := by
  obtain ⟨lo, hi, hordered⟩ := h.ordered
  exact fun key => ⟨_, h.lookup_eq key, fun v hv => Shape.mem_of_find? hv, hordered.find?_eq_none_iff⟩

/-- What lookups answer when an insertion of `e` has found no page: on the handle `t'` and on a fresh
one `u`, where the handle was `t` before. The entries are those that the tree would have had. Whether
the handle has lost entries too is told from the root page: it has where the root has split. -/
inductive Disturbed (e : Entry) (es : List Entry) (t t' u : Tree) : Prop where
  /-- Nothing has been written. The handle has the new entry, the file has not. -/
  | unwritten : t'.store = t.store → (∀ key, u.lookup key = t.lookup key) →
      (∀ key, key ≠ e.key → t'.lookup key = t.lookup key) →
      t'.lookup e.key = .ok (some e.value) → Disturbed e es t t' u
  /-- Nodes below the root have been written, and the root page holds what it held. The file has lost a
  stretch of entries, the handle has not. -/
  | torn {before lost behind : List Entry} : t'.store.journal ≠ t.store.journal →
      t'.store.view t.root = t.store.view t.root →
      es = before ++ (lost ++ behind) → u.Finds (before ++ behind) →
      (∀ key, key ≠ e.key → (∀ x ∈ lost, x.key ≠ key) → u.lookup key = t.lookup key) →
      t'.Finds es → (∀ key, key ≠ e.key → t'.lookup key = t.lookup key) → Disturbed e es t t' u
  /-- The root has split, and its page holds the left half. The file and the handle have lost the last
  entries. -/
  | halved {before lost : List Entry} : t'.store.journal ≠ t.store.journal →
      t'.store.view t.root ≠ t.store.view t.root →
      es = before ++ lost → u.Finds before →
      (∀ key, key ≠ e.key → (∀ x ∈ lost, x.key ≠ key) → u.lookup key = t.lookup key) →
      (∀ key, t'.lookup key = u.lookup key) → Disturbed e es t t' u

/-- Entries that are lost matter to their own keys only. -/
theorem find?_of_lost {xs gone ys : List (PageNo × Leaf)} {lo hi lo' hi' : UInt64}
    (hs : s.Ordered lo hi) (hkept : kept.Ordered lo' hi') (hleaves : kept.leaves = xs ++ ys)
    (hfound : lastFound key (xs ++ (gone ++ ys)) = lastFound key s.leaves)
    (hlost : ∀ x ∈ gone.flatMap (·.2.entries), x.key ≠ key) : kept.find? key = s.find? key := by
  have hnone : lastFound key gone = none := lastFound_eq_none.2 hlost
  rw [hs.find?_eq, hkept.find?_eq, hleaves, ← hfound]
  simp [hnone]

/-- A fresh handle sees what is left on the file. -/
theorem Represents.load_kept (h : t.Represents s) (hins : Insertion e s fs (.stopped kept held) ws)
    (hwrote : t.store.Wrote fs ws t'.store) : ∃ u,
      (load t.root).result t'.store = (.ok u, t'.store) ∧ u.Recalls t'.store.view kept := by
  have hsound := h.coherent.sound
  have hleft := hins.left h.stands (hwrote.unseen hsound) (hwrote.fresh hsound).1
  rw [← h.page, ← hleft.page]
  exact load_recalls (hwrote.sound hsound) (hleft.on.mono fun q _ n => hwrote.view hsound q n)
    hleft.distinct hleft.ordered

/-- A call that stops below the root leaves the root page as it is. -/
theorem Represents.root_kept (h : t.Represents s) (hst : Stopped e s fs kept held ws)
    (hwrote : t.store.Wrote fs ws t'.store) : t'.store.view t.root = t.store.view t.root := by
  have hsound := h.coherent.sound
  have hall := h.stands.distinct_append (hwrote.unseen hsound) (hwrote.fresh hsound).1
  have htop := h.stands.on.top
  have hkept : t.store.view.write ws s.page = some s.node := by
    rw [Pages.write_other (hst.root_unwritten hall), htop]
  rw [← h.page, htop, hwrote.view hsound _ _ hkept]

/-- A call that stops at the root leaves another node on its page. -/
theorem Represents.root_split {a b : Shape} {mid : UInt64} (h : t.Represents s)
    (hins : Inserted e s fs (.halves a mid b) ws) (hwrote : t.store.Wrote fs ws t'.store) :
    t'.store.view t.root ≠ t.store.view t.root := by
  have hsound := h.coherent.sound
  have hfs := hwrote.unseen hsound
  have hall := h.stands.distinct_append hfs (hwrote.fresh hsound).1
  have hleft : t.store.view.write ws s.page = some a.node := by
    rw [← hins.page a rfl]
    exact (hins.on h.stands.on hall a (by simp [Growth.trees])).top
  rw [← h.page, h.stands.on.top, hwrote.view hsound _ _ hleft]
  exact fun he => hins.left_ne h.stands hfs (Option.some.inj he)

/-- A call that stops below the root. -/
theorem Represents.torn (h : t.Represents s) (hins : Inserted e s fs (.stopped kept held) ws)
    (hwrote : t.store.Wrote fs ws t'.store) (hmind : t'.Recalls P held) (hfresh : u.Recalls Q kept) :
    Disturbed e (s.entriesWith e) t t' u := by
  have hon := h.stands.on
  have hordered := h.stands.ordered
  have hst := hins.stopped
  obtain ⟨hkept, hheld⟩ := hst.ordered hordered UInt64.zero_le (le_topKey e.key)
  have hother : ∀ key, key ≠ e.key → t'.lookup key = t.lookup key := by
    intro key hkey
    rw [hmind.lookup_eq, h.recalls.lookup_eq, hheld.find?_eq, hordered.find?_eq,
      hst.lastFound hon hordered hkey]
  rcases hst.cut hordered with ⟨rfl, rfl, hfound⟩ | ⟨hne, xs, gone, ys, hleaves, hleaves'⟩
  · refine .unwritten ((Insertion.stopped hins).eq_of_unwritten hwrote) ?_ hother ?_
    · intro key
      rw [hfresh.lookup_eq, h.recalls.lookup_eq]
    · rw [hmind.lookup_eq, hheld.find?_eq, hfound]
  · have hentries := hst.entries hon
    have hlost : s.entriesWith e = xs.flatMap (·.2.entries) ++
        (gone.flatMap (·.2.entries) ++ ys.flatMap (·.2.entries)) := by
      rw [← hentries, Shape.entries_eq, hleaves]
      simp
    have hleft : kept.entries = xs.flatMap (·.2.entries) ++ ys.flatMap (·.2.entries) := by
      rw [Shape.entries_eq, hleaves']
      simp
    refine .torn (hwrote.journal_ne hne) (h.root_kept hst hwrote) hlost (hleft ▸ hfresh.finds) ?_
      (hentries ▸ hmind.finds) hother
    intro key hkey hgone
    have hfound := hst.lastFound hon hordered hkey
    rw [hleaves] at hfound
    rw [hfresh.lookup_eq, h.recalls.lookup_eq, find?_of_lost hordered hkept hleaves' hfound hgone]

/-- A call that stops at the root. -/
theorem Represents.halved {a b : Shape} {mid : UInt64} (h : t.Represents s)
    (hins : Inserted e s fs (.halves a mid b) ws) (hwrote : t.store.Wrote fs ws t'.store)
    (hmind : t'.Recalls P a) (hfresh : u.Recalls Q a) : Disturbed e (s.entriesWith e) t t' u := by
  have hordered := h.stands.ordered
  have hhalves := hins.ordered (by simp) hordered UInt64.zero_le (le_topKey e.key)
  have hentries := hins.entries (by simp) h.stands.on
  simp only [Growth.trees, List.flatMap_cons, List.flatMap_nil, List.append_nil] at hentries
  refine .halved (hwrote.journal_ne (List.ne_nil_of_mem hins.left_written))
    (h.root_split hins hwrote) hentries.symm hfresh.finds ?_
    fun key => by rw [hmind.lookup_eq, hfresh.lookup_eq]
  intro key hkey hgone
  have hfound := hins.lastFound (by simp) h.stands.on hordered hkey
  simp only [Growth.trees, List.flatMap_cons, List.flatMap_nil, List.append_nil] at hfound
  rw [hfresh.lookup_eq, h.recalls.lookup_eq]
  have hkept : a.leaves = a.leaves ++ [] := (List.append_nil _).symm
  exact congrArg _ (find?_of_lost hordered hhalves.2.1 hkept (by simpa using hfound) hgone)

/-- An insertion that is refused disturbs no lookups but those of its own key and of entries that a
split has cut off. -/
theorem lookups_after_refusal (h : Reached root t) {i : Interrupt}
    (hrun : (insert key value).result t = (.error i, t')) :
    ∃ u, (load root).result t'.store = (.ok u, t'.store) ∧
      (i = .error (.valueTooLarge value.size maxValueSize) ∧
          (∀ k, t'.lookup k = t.lookup k ∧ u.lookup k = t.lookup k) ∨
        i = .error .full ∧ ∃ pre post, t.Shows (pre ++ post) ∧ (∀ x ∈ pre, x.key ≤ key) ∧
          (∀ x ∈ post, key ≤ x.key) ∧ Disturbed ⟨key, value⟩ (pre ++ ⟨key, value⟩ :: post) t t' u) := by
  obtain ⟨rfl, s, hrep⟩ := h.represents
  by_cases hv : value.size ≤ maxValueSize
  · obtain ⟨pre, post, hshown, hwith, hpre, hpost⟩ :=
      hrep.stands.ordered.entriesWith ⟨key, value⟩
    have hshows := hrep.shows
    rw [hshown] at hshows
    obtain ⟨fs, g, ws, r, u, hrun', hins, hwrote, hentered⟩ := hrep.insert_ok hv key
    cases hrun.symm.trans hrun'
    cases g with
    | whole => cases hentered.1
    | halves => exact hentered.elim
    | stopped kept held =>
      obtain ⟨hfull, -, P, hmind⟩ := hentered
      cases hfull
      obtain ⟨u, hload, hfresh⟩ := hrep.load_kept hins hwrote
      refine ⟨u, hload, .inr ⟨rfl, pre, post, hshows, hpre, hpost, hwith ▸ ?_⟩⟩
      cases hins with
      | stopped hins => exact hrep.torn hins hwrote hmind hfresh
      | full hins => exact hrep.halved hins hwrote hmind hfresh
  · cases hrun.symm.trans (insert_tooLarge (Nat.not_le.1 hv) key)
    obtain ⟨u, hload, -, -, hrep'⟩ := hrep.refetch
    refine ⟨u, hload, .inl ⟨rfl, fun k => ⟨rfl, ?_⟩⟩⟩
    rw [hrep'.recalls.lookup_eq, hrep.recalls.lookup_eq]

/-! ## A full leaf -/

/-- A leaf that has to split needs two pages to do so as the root. Where there is one page only the right
half is lost, and where there is none the file stays as it is. -/
theorem Represents.refused {p : PageNo} {l : Leaf} (h : t.Represents (.leaf p l))
    (hv : value.size ≤ maxValueSize) (key : UInt64) (hfull : (l.insert ⟨key, value⟩).isFull = true)
    (hlast : UInt32.size ≤ firstPageOffset + pageSize * (t.store.pageCount + 2)) :
    ∃ t' u, (insert key value).result t = (.error (.error .full), t') ∧
      (load t.root).result t'.store = (.ok u, t'.store) ∧
      (t.store.HasRoom ∧ (∃ q a mid b, (l.insert ⟨key, value⟩).split? q = some (a, mid, b) ∧
          ∀ k, t'.lookup k = .ok (a.get? k) ∧ u.lookup k = .ok (a.get? k)) ∨
        ¬t.store.HasRoom ∧ ∀ k, t'.lookup k = .ok ((l.insert ⟨key, value⟩).get? k) ∧
          u.lookup k = .ok (l.get? k)) := by
  have hsound := h.coherent.sound
  obtain ⟨fs, g, ws, r, t', hrun, hins, hwrote, hentered⟩ := h.insert_ok hv key
  have hfits := hwrote.fits hsound
  rcases hins.of_full_leaf hfull with ⟨s', rfl, hlen⟩ | ⟨q, a, mid, b, hsplit, rfl, hlen, -⟩ |
    ⟨rfl, rfl, rfl⟩
  · rw [hlen] at hfits
    exact absurd hfits (Nat.not_lt.2 hlast)
  · obtain ⟨rfl, -, P, hmind⟩ := hentered
    obtain ⟨u, hload, hfresh⟩ := h.load_kept hins hwrote
    rw [hlen] at hfits
    refine ⟨t', u, hrun, hload, .inl ⟨(PageStore.hasRoom_iff hsound).2 hfits, q, a, mid, b, hsplit,
      fun k => ?_⟩⟩
    rw [hmind.lookup_eq, hfresh.lookup_eq, Shape.find?_leaf]
    exact ⟨rfl, rfl⟩
  · obtain ⟨rfl, hend, P, hmind⟩ := hentered
    obtain ⟨u, hload, hfresh⟩ := h.load_kept hins hwrote
    rw [hwrote.eq_of_nil] at hend
    refine ⟨t', u, hrun, hload, .inr ⟨hend, fun k => ?_⟩⟩
    rw [hmind.lookup_eq, hfresh.lookup_eq, Shape.find?_leaf, Shape.find?_leaf]
    exact ⟨rfl, rfl⟩

/-- A file with a tree of three entries, of which all pages but some have been handed out. -/
theorem exists_three {header : Header} (hs : header.Sound)
    (hroom : header.freeOffset.toNat + pageSize < UInt32.size) : ∃ root t l, Reached root t ∧
      t.Represents (.leaf root l) ∧ t.store.pageCount = header.pageCount + 1 ∧
      l.entries = [⟨1, .empty⟩, ⟨2, .empty⟩, ⟨3, .empty⟩] := by
  have hreached := PageStore.Reached.load (PageStore.load_header hs .empty "db")
  have hsound := hreached.sound
  obtain ⟨store, hcreate, hwrote, hsynced, hstands⟩ := create_ok hsound hroom
  obtain ⟨t, hload, rfl, -, hrep⟩ := load_represents hstands (hwrote.sound hsound) hsynced
  have hempty : (ByteArray.empty).size ≤ maxValueSize := by decide
  obtain ⟨t₁, hrun₁, hrep₁, hcount₁⟩ := hrep.insert_roomy (by decide) hempty 1
  obtain ⟨t₂, hrun₂, hrep₂, hcount₂⟩ := hrep₁.insert_roomy (by decide) hempty 2
  obtain ⟨t₃, hrun₃, hrep₃, hcount₃⟩ := hrep₂.insert_roomy (by decide) hempty 3
  have hlife := Reached.create hreached hcreate hload
  refine ⟨_, t₃, _, ((hlife.request (.insert 1 .empty) hrun₁).request (.insert 2 .empty) hrun₂).request
    (.insert 3 .empty) hrun₃, hrep₃, ?_, rfl⟩
  rw [hcount₃, hcount₂, hcount₁, hwrote.pageCount_eq hsound]
  rfl

/-- Where one page is left a fourth entry costs the third one. -/
theorem exists_halved : ∃ root t t' u, Reached root t ∧
    (insert 4 .empty).result t = (.error (.error .full), t') ∧
    (load root).result t'.store = (.ok u, t'.store) ∧ t.lookup 3 = .ok (some .empty) ∧
    t'.lookup 3 = .ok none ∧ u.lookup 3 = .ok none := by
  have hempty : (ByteArray.empty).size ≤ maxValueSize := by decide
  obtain ⟨root, t, ⟨es, next⟩, hreached, hrep, hcount, rfl⟩ :=
    @exists_three ⟨.ofNat pageSize, 4294869093⟩ ⟨by decide, by decide⟩ (by decide)
  obtain ⟨t', u, hrun, hload, hcases⟩ :=
    hrep.refused hempty 4 rfl (by rw [hcount]; decide)
  have hbefore := hrep.recalls.lookup_eq 3
  rw [Shape.find?_leaf] at hbefore
  rw [← hrep.page, Shape.page_leaf] at hload
  rcases hcases with ⟨-, q, a, mid, b, hsplit, hfound⟩ | ⟨hroom, -⟩
  · have hgrown : Leaf.insert ⟨[⟨1, .empty⟩, ⟨2, .empty⟩, ⟨3, .empty⟩], next⟩ ⟨4, .empty⟩ =
        ⟨[⟨1, .empty⟩, ⟨2, .empty⟩, ⟨3, .empty⟩, ⟨4, .empty⟩], next⟩ := rfl
    have hpoint : Leaf.breakPoint? [1, 2, 3, 4] = some 2 := by decide
    rw [hgrown, Leaf.split?] at hsplit
    simp only [Leaf.keys, List.map_cons, List.map_nil, hpoint] at hsplit
    cases hsplit
    exact ⟨root, t, t', u, hreached, hrun, hload, hbefore, (hfound 3).1, (hfound 3).2⟩
  · exact absurd ((PageStore.hasRoom_iff hrep.coherent.sound).2 (by rw [hcount]; decide)) hroom

/-- Where no page is left the handle has a fourth entry that the file does not have. -/
theorem exists_unwritten : ∃ root t t' u, Reached root t ∧
    (insert 4 .empty).result t = (.error (.error .full), t') ∧
    (load root).result t'.store = (.ok u, t'.store) ∧ t.lookup 4 = .ok none ∧
    t'.lookup 4 = .ok (some .empty) ∧ u.lookup 4 = .ok none := by
  have hempty : (ByteArray.empty).size ≤ maxValueSize := by decide
  obtain ⟨root, t, ⟨es, next⟩, hreached, hrep, hcount, rfl⟩ :=
    @exists_three ⟨.ofNat pageSize, 4294901861⟩ ⟨by decide, by decide⟩ (by decide)
  obtain ⟨t', u, hrun, hload, hcases⟩ :=
    hrep.refused hempty 4 rfl (by rw [hcount]; decide)
  have hbefore := hrep.recalls.lookup_eq 4
  rw [Shape.find?_leaf] at hbefore
  rw [← hrep.page, Shape.page_leaf] at hload
  rcases hcases with ⟨hroom, -⟩ | ⟨-, hfound⟩
  · rw [PageStore.hasRoom_iff hrep.coherent.sound, hcount] at hroom
    exact absurd hroom (by decide)
  · exact ⟨root, t, t', u, hreached, hrun, hload, hbefore, (hfound 4).1, (hfound 4).2⟩

/-- An insertion that is refused can change what lookups answer, on the handle and on a fresh one, of a
key that was there and of its own. -/
theorem refusal_disturbs_lookups : (∃ root t t' u, Reached root t ∧
      (insert 4 .empty).result t = (.error (.error .full), t') ∧
      (load root).result t'.store = (.ok u, t'.store) ∧ t'.lookup 3 ≠ t.lookup 3 ∧
      u.lookup 3 ≠ t.lookup 3) ∧
    ∃ root t t', Reached root t ∧ (insert 4 .empty).result t = (.error (.error .full), t') ∧
      t'.lookup 4 ≠ t.lookup 4 := by
  constructor
  · obtain ⟨root, t, t', u, hreached, hrun, hload, hbefore, hafter, hfresh⟩ := exists_halved
    refine ⟨root, t, t', u, hreached, hrun, hload, ?_, ?_⟩
    · rw [hbefore, hafter]
      simp
    · rw [hbefore, hfresh]
      simp
  · obtain ⟨root, t, t', u, hreached, hrun, -, hbefore, hafter, -⟩ := exists_unwritten
    refine ⟨root, t, t', hreached, hrun, ?_⟩
    rw [hbefore, hafter]
    simp

/-- The handle and a fresh one agree on what is left of three entries. -/
theorem lookups_after_refusal_of_four : ∃ root t t' u, Reached root t ∧
    (insert 4 .empty).result t = (.error (.error .full), t') ∧
    (load root).result t'.store = (.ok u, t'.store) ∧ t'.lookup 3 ≠ t.lookup 3 ∧
    ∃ pre post, t.Shows (pre ++ post) ∧
      Disturbed ⟨4, .empty⟩ (pre ++ ⟨4, .empty⟩ :: post) t t' u := by
  obtain ⟨root, t, t', u, hreached, hrun, hload, hbefore, hafter, -⟩ := exists_halved
  obtain ⟨u', hload', hcases⟩ := lookups_after_refusal hreached hrun
  cases hload.symm.trans hload'
  refine ⟨root, t, t', u, hreached, hrun, hload, by rw [hbefore, hafter]; simp, ?_⟩
  rcases hcases with ⟨htoo, -⟩ | ⟨-, pre, post, hshows, -, -, hdisturbed⟩
  · cases htoo
  · exact ⟨pre, post, hshows, hdisturbed⟩

end Tree

end PagedTree
