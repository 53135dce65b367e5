import PagedTree.Proofs.Appending
import PagedTree.Proofs.Room

/-! # The largest key and the next id

The largest key is read off the rightmost leaf, and off a scan only when that leaf is empty. It is the
key of the last entry either way, so the next id is above every key.
-/
namespace PagedTree

namespace Shape

variable {s : Shape} {lo hi : UInt64}

theorem Ordered.greatestKey_eq_none (h : s.Ordered lo hi) :
    s.greatestKey = none ↔ s.entries = [] := by
  rw [h.greatestKey, Option.map_eq_none_iff, List.getLast?_eq_none_iff]

theorem Ordered.greatestKey_spec (h : s.Ordered lo hi) {key : UInt64}
    (hkey : s.greatestKey = some key) :
    (∃ e ∈ s.entries, e.key = key) ∧ ∀ e ∈ s.entries, e.key ≤ key := by
  rw [h.greatestKey] at hkey
  obtain ⟨last, hlast, rfl⟩ := Option.map_eq_some_iff.1 hkey
  obtain ⟨es, hes⟩ := List.getLast?_eq_some_iff.1 hlast
  have hsorted := h.sorted
  rw [hes] at hsorted ⊢
  refine ⟨⟨last, by simp, rfl⟩, ?_⟩
  intro e he
  rcases List.mem_append.1 he with he | he
  · exact (List.pairwise_append.1 hsorted).2.2 e he last (by simp)
  · rw [List.mem_singleton.1 he]
    exact UInt64.le_refl _

end Shape

theorem toNat_succ_lt {key : UInt64} (h : key < topKey) : key.toNat + 1 < UInt64.size := by
  have hlt := UInt64.lt_iff_toNat_lt.1 h
  rw [show topKey.toNat = UInt64.size - 1 from rfl] at hlt
  omega

theorem lt_succ {key : UInt64} (h : key < topKey) : key < key + 1 := by
  rw [UInt64.lt_iff_toNat_lt, UInt64.toNat_add, UInt64.toNat_one,
    Nat.mod_eq_of_lt (toNat_succ_lt h)]
  exact Nat.lt_succ_self _

namespace Tree

variable {t : Tree} {s : Shape} {root : PageNo}

/-- What a handle says of the end of its tree. An answer from the rightmost leaf leaves the handle as
the way down to that leaf does, so nothing else is read for it. -/
structure Extendable (root : PageNo) (t : Tree) (s : Shape) : Prop extends Displays root t s where
  greatest : ∃ key t', greatestKey.result t = (.ok key, t') ∧ (key = none ↔ s.entries = []) ∧
    ∀ k, key = some k → (∃ e ∈ s.entries, e.key = k) ∧ ∀ e ∈ s.entries, e.key ≤ k
  rightmost : ∃ p l id t', s.leaves.getLast? = some (p, l) ∧ lastLeaf.result t = (.ok (id, l), t') ∧
    lastLeafSize.result t = (.ok l.entries.length, t') ∧
    (l.entries ≠ [] → greatestKey.result t = (.ok l.keys.getLast?, t'))
  alone : ∀ p l, s = .leaf p l → ∃ t', lastLeafSize.result t = (.ok s.entries.length, t')
  first : s.entries = [] → ∃ t', nextId.result t = (.ok 1, t')
  next : (∀ e ∈ s.entries, e.key < topKey) → ∃ id t', nextId.result t = (.ok id, t') ∧
    ∀ e ∈ s.entries, e.key < id

theorem greatestKey_nonempty {t' : Tree} {id : NodeId} {l : Leaf}
    (hrun : lastLeaf.result t = (.ok (id, l), t')) (hl : l.entries ≠ []) :
    greatestKey.result t = (.ok l.keys.getLast?, t') := by
  obtain ⟨key, hkey⟩ : ∃ key, l.keys.getLast? = some key :=
    ⟨_, List.getLast?_eq_some_getLast (by simpa [Leaf.keys] using hl)⟩
  rw [greatestKey, Call.result_bind_ok hrun, hkey]
  rfl

/-- The next id is one past the largest key. -/
theorem Represents.nextId_gt (h : t.Represents s) (htop : ∀ e ∈ s.entries, e.key < topKey) :
    ∃ id t', nextId.result t = (.ok id, t') ∧ ∀ e ∈ s.entries, e.key < id := by
  obtain ⟨t', hrun, -⟩ := h.greatestKey_ok
  rw [nextId, Call.result_bind_ok hrun]
  cases hkey : s.greatestKey with
  | none =>
    refine ⟨1, t', rfl, ?_⟩
    simp [h.stands.ordered.greatestKey_eq_none.1 hkey]
  | some key =>
    obtain ⟨⟨e, he, rfl⟩, hle⟩ := h.stands.ordered.greatestKey_spec hkey
    have hlt := htop e he
    refine ⟨e.key + 1, t', ?_, fun x hx => UInt64.lt_of_le_of_lt (hle x hx) (lt_succ hlt)⟩
    simp only [toNat_succ_lt hlt, if_true, Call.result_orFault_some]

theorem Represents.extendable (h : t.Represents s) : Extendable t.root t s := by
  have hordered := h.stands.ordered
  obtain ⟨t₁, hgreatest, -⟩ := h.greatestKey_ok
  obtain ⟨ls, p, l, id, t₂, hleaves, hlast, -⟩ := lastLeaf_ok h.coherent h.stands.on hordered h.page
  have hsize : lastLeafSize.result t = (.ok l.entries.length, t₂) := by
    rw [lastLeafSize, Call.result_bind_ok hlast, Call.result_pure]
  refine ⟨h.displays, ?_, ?_, ?_, ?_, h.nextId_gt⟩
  · exact ⟨_, t₁, hgreatest, hordered.greatestKey_eq_none, fun k => hordered.greatestKey_spec⟩
  · exact ⟨p, l, id, t₂, by simp [hleaves], hlast, hsize, greatestKey_nonempty hlast⟩
  · rintro q m rfl
    have hend := congrArg List.getLast? hleaves
    obtain ⟨-, rfl⟩ : q = p ∧ m = l := by simpa using hend
    exact ⟨t₂, by simpa using hsize⟩
  · intro hnil
    have hnone := hordered.greatestKey_eq_none.2 hnil
    rw [hnone] at hgreatest
    exact ⟨t₁, by rw [nextId, Call.result_bind_ok hgreatest]; rfl⟩

/-- Whatever is inserted and erased, and however the rightmost leaves come and go, a handle finds the
last entry. -/
theorem largest_key (h : Reached root t) : ∃ s, Extendable root t s := by
  obtain ⟨rfl, s, hrep⟩ := h.represents
  exact ⟨s, hrep.extendable⟩

/-- A tree of several levels, the largest keys of which have been erased. -/
theorem largest_key_of_erased : ∃ t s, Reached 0 t ∧
    s.entries = ([1, 2, 3, 4, 5, 6, 7, 8, 9, 10, 11, 12, 13].map fun key => ⟨key, .empty⟩) ∧
    order < s.leaves.length ∧ Extendable 0 t s := by
  obtain ⟨t, s, hreached, hrep, hentries, hleaves⟩ :=
    @exists_keys [14, 15] [1, 2, 3, 4, 5, 6, 7, 8, 9, 10, 11, 12, 13] (by decide) (by decide)
  obtain ⟨s', hextendable⟩ := largest_key hreached
  obtain rfl := hreached.eq_of_on hrep hextendable.on hextendable.page
  exact ⟨t, s', hreached, hentries, hleaves order (by decide), hextendable⟩

end Tree

end PagedTree
