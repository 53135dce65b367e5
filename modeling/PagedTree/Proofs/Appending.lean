import PagedTree.Catalog.Basic
import PagedTree.Proofs.Confinement

/-! # Rows behind the last one

The next id is one past the largest key, wherever the tree keeps it, so a row that is appended to a
numbered tree goes behind all others and the numbers stay without a gap. A file has room for fewer
entries than there are ids.
-/
namespace PagedTree

/-- Values under the ids from 1 on. -/
def numbered (vs : List ByteArray) : List Entry := (vs.zipIdx 1).map fun v => ⟨.ofNat v.2, v.1⟩

@[simp] theorem length_numbered (vs : List ByteArray) : (numbered vs).length = vs.length := by
  simp [numbered]

theorem exists_numbered {vs : List ByteArray} {v : ByteArray} (h : v ∈ vs) :
    ∃ e ∈ numbered vs, e.value = v := by
  rw [← List.zipIdx_map_fst 1 vs] at h
  obtain ⟨x, hx, rfl⟩ := List.mem_map.1 h
  exact ⟨_, List.mem_map_of_mem hx, rfl⟩

theorem numbered_concat (vs : List ByteArray) (v : ByteArray) :
    numbered (vs ++ [v]) = numbered vs ++ [⟨.ofNat (vs.length + 1), v⟩] := by
  simp [numbered, List.zipIdx_append, Nat.add_comm]

theorem eq_numbered_of_prefix {vs : List ByteArray} {es ls : List Entry}
    (h : numbered vs = es ++ ls) : es = numbered (vs.take es.length) := by
  have hlen := congrArg List.length h
  rw [length_numbered, List.length_append] at hlen
  have hcut : numbered vs = numbered (vs.take es.length) ++
      ((vs.drop es.length).zipIdx (1 + es.length)).map fun v => ⟨.ofNat v.2, v.1⟩ := by
    have htake : (vs.take es.length).length = es.length := List.length_take_of_le (by omega)
    conv => lhs; rw [← List.take_append_drop es.length vs]
    rw [numbered, List.zipIdx_append, List.map_append, htake]
    rfl
  rw [hcut] at h
  refine (List.append_inj_left h ?_).symm
  rw [length_numbered, List.length_take_of_le (by omega)]

/-- The largest of keys that do not decrease is the last one. -/
theorem max?_of_sorted {ks : List UInt64} (h : ks.Pairwise (· ≤ ·)) : ks.max? = ks.getLast? := by
  induction ks with
  | nil => rfl
  | cons j ks ih =>
    cases ks with
    | nil => rfl
    | cons k ks =>
      have hjk : max j k = k := if_pos (List.rel_of_pairwise_cons h List.mem_cons_self)
      rw [List.getLast?_cons_cons, ← ih h.of_cons, List.max?_cons', List.max?_cons', List.foldl_cons,
        hjk]

namespace Shape

variable {s : Shape} {lo hi : UInt64}

/-- The largest key is that of the last entry. -/
theorem Ordered.greatestKey (h : s.Ordered lo hi) :
    s.greatestKey = s.entries.getLast?.map Entry.key := by
  unfold Shape.greatestKey
  split
  case h_1 key hkey =>
    obtain ⟨x, hx, hlast⟩ := Option.bind_eq_some_iff.1 hkey
    obtain ⟨ls, hls⟩ := List.getLast?_eq_some_iff.1 hx
    have hentries : s.entries = ls.flatMap (·.2.entries) ++ x.2.entries := by
      simp [entries_eq, hls]
    rw [Leaf.keys, List.getLast?_map] at hlast
    obtain ⟨e, he, rfl⟩ := Option.map_eq_some_iff.1 hlast
    rw [hentries, List.getLast?_append, he]
    rfl
  case h_2 =>
    rw [max?_of_sorted (List.pairwise_map.2 h.sorted), List.getLast?_map]

/-- An entry with a key above all others goes to the end. -/
theorem Ordered.entriesWith_last (h : s.Ordered lo hi) {e : Entry}
    (he : ∀ x ∈ s.entries, x.key < e.key) : s.entriesWith e = s.entries ++ [e] := by
  obtain ⟨pre, post, hentries, hwith, -, hpost⟩ := h.entriesWith e
  cases post with
  | nil => rw [hwith, hentries, List.append_nil]
  | cons x post =>
    have hlt := he x (by simp [hentries])
    exact absurd hlt (UInt64.not_lt.2 (hpost x List.mem_cons_self))

end Shape

namespace Tree

variable {t t' : Tree} {s : Shape} {vs : List ByteArray}

theorem pageCount_lt (store : PageStore) : store.pageCount < UInt32.size := by
  rw [← PageStore.toNat_allocated store]
  exact UInt32.toNat_lt _

/-- There is an id for every entry that a file has room for. -/
theorem Represents.length_entries_lt (h : t.Represents s) :
    s.entries.length + 1 < UInt64.size := by
  have hentries := h.stands.small.length_entries_le
  have hleaves : s.leaves.length ≤ s.parts.length := List.length_filterMap_le ..
  have hparts := h.length_parts_le
  have hpages := pageCount_lt t.store
  have hbound : (order - 1) * (UInt32.size + 2) + 1 < UInt64.size := by decide
  have hmost : (order - 1) * s.leaves.length ≤ (order - 1) * (UInt32.size + 2) := by
    apply Nat.mul_le_mul_left
    unfold walkLimit at hparts
    omega
  omega

/-- The next id is one past the key of the last entry. -/
theorem nextId_ok {es : List Entry} {id : UInt64}
    (hgreatest : greatestKey.result t = (.ok (es.getLast?.map Entry.key), t'))
    (hid : match es.getLast? with
      | none => id = 1
      | some e => e.key.toNat + 1 < UInt64.size ∧ id = e.key + 1) :
    nextId.result t = (.ok id, t') := by
  rw [nextId, Call.result_bind_ok hgreatest]
  cases hlast : es.getLast? with
  | none =>
    rw [hlast] at hid
    rw [hid]
    rfl
  | some e =>
    rw [hlast] at hid
    simp only [Option.map_some]
    rw [if_pos hid.1, hid.2]
    rfl

theorem numbered_last (hlen : vs.length + 1 < UInt64.size) :
    match (numbered vs).getLast? with
    | none => UInt64.ofNat (vs.length + 1) = 1
    | some e => e.key.toNat + 1 < UInt64.size ∧ UInt64.ofNat (vs.length + 1) = e.key + 1 := by
  rcases List.eq_nil_or_concat vs with rfl | ⟨us, v, rfl⟩
  · rfl
  · rw [List.concat_eq_append] at *
    rw [List.length_append, List.length_singleton] at *
    rw [numbered_concat, List.getLast?_concat]
    have hkey : (UInt64.ofNat (us.length + 1)).toNat = us.length + 1 :=
      UInt64.toNat_ofNat_of_lt' (Nat.lt_of_succ_lt hlen)
    refine ⟨by rw [hkey]; exact hlen, ?_⟩
    apply UInt64.toNat_inj.1
    rw [UInt64.toNat_ofNat_of_lt' hlen, UInt64.toNat_add, hkey]
    exact (Nat.mod_eq_of_lt hlen).symm

theorem numbered_lt (hlen : vs.length + 1 < UInt64.size) :
    ∀ e ∈ numbered vs, e.key < .ofNat (vs.length + 1) := by
  intro e he
  obtain ⟨⟨v, i⟩, hv, rfl⟩ := List.mem_map.1 he
  have hi := List.mem_zipIdx hv
  rw [UInt64.lt_iff_toNat_lt, UInt64.toNat_ofNat_of_lt' hlen,
    UInt64.toNat_ofNat_of_lt' (by omega)]
  omega

theorem Represents.nextId_numbered (h : t.Represents s) (hs : s.entries = numbered vs) :
    vs.length + 1 < UInt64.size ∧ ∃ t', nextId.result t = (.ok (.ofNat (vs.length + 1)), t') ∧
      t.Advanced [] [] t' := by
  have hlen := h.length_entries_lt
  obtain ⟨t', hgreatest, hadv⟩ := h.greatestKey_ok
  rw [h.stands.ordered.greatestKey, hs] at hgreatest
  rw [hs, length_numbered] at hlen
  exact ⟨hlen, t', nextId_ok hgreatest (numbered_last hlen), hadv⟩

/-- How it ends when a row is appended to a tree with so many rows. -/
inductive Appended (t : Tree) (s : Shape) (vs : List ByteArray) (id : UInt64) (b : ByteArray) :
    Except Interrupt UInt64 → Tree → Prop where
  | added {fs : List PageNo} {ws : List (PageNo × Node)} {s' : Shape} {t' : Tree} :
      b.size ≤ maxValueSize → Insertion ⟨id, b⟩ s fs (.whole s') ws → t.store.Wrote fs ws t'.store →
      t'.Represents s' → s'.entries = numbered (vs ++ [b]) → Appended t s vs id b (.ok id) t'
  | full {fs : List PageNo} {ws : List (PageNo × Node)} {kept held : Shape} {t' : Tree} :
      b.size ≤ maxValueSize → Insertion ⟨id, b⟩ s fs (.stopped kept held) ws →
      t.store.Wrote fs ws t'.store → ¬t'.store.HasRoom → Appended t s vs id b (.error (.error .full)) t'
  | tooLarge {t' : Tree} : maxValueSize < b.size → t'.store = t.store →
      Appended t s vs id b (.error (.error (.valueTooLarge b.size maxValueSize))) t'

theorem Represents.append_ok (h : t.Represents s) (hs : s.entries = numbered vs)
    (row : UInt64 → ByteArray) : ∃ r t', (Catalog.append row).result t = (r, t') ∧
      Appended t s vs (.ofNat (vs.length + 1)) (row (.ofNat (vs.length + 1))) r t' := by
  obtain ⟨hlen, t₁, hnext, hadv⟩ := h.nextId_numbered hs
  have hrep := h.advance hadv
  have hsound := hrep.coherent.sound
  rw [Catalog.append, Call.result_bind_ok hnext]
  by_cases hv : (row (.ofNat (vs.length + 1))).size ≤ maxValueSize
  · obtain ⟨fs, g, ws, r, t', hrun, hins, hwrote, hentered⟩ :=
      hrep.insert_ok hv (.ofNat (vs.length + 1))
    have hwrote' : t.store.Wrote fs ws t'.store := hadv.store_eq ▸ hwrote
    cases g with
    | halves => exact hentered.elim
    | stopped =>
      obtain ⟨rfl, hfull, -⟩ := hentered
      exact ⟨_, t', Call.result_bind_error hrun _, .full hv hins hwrote' hfull⟩
    | whole s' =>
      obtain ⟨rfl, hrep'⟩ := hentered
      obtain ⟨-, -, hentries⟩ :=
        hins.stands hrep.stands (hwrote.unseen hsound) (hwrote.fresh hsound).1 hv
      refine ⟨_, t', Call.result_bind_ok hrun _, .added hv hins hwrote' hrep' ?_⟩
      rw [hentries, h.stands.ordered.entriesWith_last (hs ▸ numbered_lt hlen), hs,
        ← numbered_concat]
  · exact ⟨_, t₁, Call.result_bind_error (insert_tooLarge (Nat.not_le.1 hv) _) _,
      .tooLarge (Nat.not_le.1 hv) hadv.store_eq⟩

end Tree

end PagedTree
