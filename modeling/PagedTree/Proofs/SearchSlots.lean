import PagedTree.Proofs.Search

/-! # The children a search goes to

A search of a branch goes to the children whose bounds admit the key, from the one that a new entry with
the key goes to down to the leftmost. There is more than one only if a separator equals the key.
-/
namespace PagedTree.Branch

variable {Child : Type} {b : Branch Child} {key : UInt64}

/-- The search starts with the child that a new entry goes to, and ends there unless a separator equals
the key. -/
theorem slotsFor_eq (b : Branch Child) (key : UInt64) :
    ∃ rest, b.slotsFor key = b.slotOf key :: rest ∧ (key ∉ b.keys → rest = []) := by
  have hprefix : ∀ keys : List UInt64, (keys.takeWhile (· < key)).length ≤
      (keys.takeWhile (· ≤ key)).length ∧ (key ∉ keys →
        (keys.takeWhile (· < key)).length = (keys.takeWhile (· ≤ key)).length) := by
    intro keys
    induction keys with
    | nil => simp
    | cons k keys ih =>
      by_cases hlt : k < key
      · have hle := UInt64.le_of_lt hlt
        have hne : key ≠ k := fun he => UInt64.lt_irrefl k (he ▸ hlt)
        simpa [hlt, hle, hne] using ih
      · by_cases hle : k ≤ key
        · have heq : key = k := UInt64.le_antisymm (UInt64.not_lt.1 hlt) hle
          simp [heq]
        · simp [hlt, hle]
  obtain ⟨hle, heq⟩ := hprefix b.keys
  obtain ⟨n, hn⟩ := Nat.exists_eq_add_of_le hle
  refine ⟨(List.range' (b.keys.takeWhile (· < key)).length n).reverse, ?_, ?_⟩
  · have hslot : b.slotOf key = (b.keys.takeWhile (· < key)).length + n := hn
    have hcount : b.slotOf key + 1 - (b.keys.takeWhile (· < key)).length = n + 1 := by omega
    rw [slotsFor, hcount, List.range'_1_concat, List.reverse_concat, hslot]
  · intro hkey
    have hzero : n = 0 := by
      have hsame := heq hkey
      omega
    simp [hzero]

/-- The slots to search go down one by one from where a new entry goes. -/
theorem slotsFor_descend {n i : Nat} (h : (b.slotsFor key)[n]? = some i) : i + n = b.slotOf key := by
  obtain ⟨hn, -⟩ := List.getElem?_eq_some_iff.1 h
  rw [slotsFor, List.length_reverse, List.length_range'] at hn
  rw [slotsFor, List.getElem?_reverse (by rwa [List.length_range']), List.length_range',
    List.getElem?_range' (by omega)] at h
  have hi := Option.some.inj h
  omega

/-- Keys that do not decrease, by where they stand. -/
theorem le_of_getElem? {keys : List UInt64} (h : keys.Pairwise (· ≤ ·)) {m n : Nat} {k l : UInt64}
    (hle : m ≤ n) (hk : keys[m]? = some k) (hl : keys[n]? = some l) : k ≤ l := by
  obtain ⟨hm, rfl⟩ := List.getElem?_eq_some_iff.1 hk
  obtain ⟨hn, rfl⟩ := List.getElem?_eq_some_iff.1 hl
  rcases Nat.eq_or_lt_of_le hle with rfl | hlt
  · exact UInt64.le_refl _
  · exact List.pairwise_iff_getElem.1 h m n hm hn hlt

/-- Where separators do not decrease, only those next to a slot matter. -/
theorem mem_slotsFor_iff (h : b.keys.Pairwise (· ≤ ·)) {i : Nat} : i ∈ b.slotsFor key ↔
    i ≤ b.keys.length ∧ (∀ k, 1 ≤ i → b.keys[i - 1]? = some k → k ≤ key) ∧
      ∀ k, b.keys[i]? = some k → key ≤ k := by
  rw [mem_slotsFor h]
  refine and_congr_right fun hi => and_congr ⟨?_, ?_⟩ ⟨?_, ?_⟩
  · intro hleft k hpos hk
    refine hleft k (List.mem_of_getElem? (i := i - 1) ?_)
    rw [List.getElem?_take_of_lt (by omega), hk]
  · intro hlast k hk
    obtain ⟨j, hj⟩ := List.mem_iff_getElem?.1 hk
    rw [List.getElem?_take] at hj
    split at hj
    case isFalse => cases hj
    case isTrue hlt =>
      have hnext := List.getElem?_eq_getElem (l := b.keys) (i := i - 1) (by omega)
      exact UInt64.le_trans (le_of_getElem? h (by omega) hj hnext) (hlast _ (by omega) hnext)
  · intro hright k hk
    refine hright k (List.mem_of_getElem? (i := 0) ?_)
    rw [List.getElem?_drop, Nat.add_zero, hk]
  · intro hfirst k hk
    obtain ⟨j, hj⟩ := List.mem_iff_getElem?.1 hk
    rw [List.getElem?_drop] at hj
    have hlt := (List.getElem?_eq_some_iff.1 hj).1
    have hnext := List.getElem?_eq_getElem (l := b.keys) (i := i) (by omega)
    exact UInt64.le_trans (hfirst _ hnext) (le_of_getElem? h (by omega) hnext hj)

/-- There is one slot to search if no separator equals the key, and otherwise the children on both sides
of that separator are searched. -/
theorem length_slotsFor_eq_one (h : b.keys.Pairwise (· ≤ ·)) :
    (b.slotsFor key).length = 1 ↔ key ∉ b.keys := by
  obtain ⟨rest, hslots, hrest⟩ := slotsFor_eq b key
  constructor
  · intro hone hkey
    obtain ⟨j, hj⟩ := List.mem_iff_getElem?.1 hkey
    have hlt := (List.getElem?_eq_some_iff.1 hj).1
    have hleft : j ∈ b.slotsFor key := (mem_slotsFor_iff h).2
      ⟨by omega, fun k _ hk => le_of_getElem? h (by omega) hk hj,
        fun k hk => le_of_getElem? h (by omega) hj hk⟩
    have hright : j + 1 ∈ b.slotsFor key := (mem_slotsFor_iff h).2
      ⟨hlt, fun k _ hk => le_of_getElem? h (by omega) hk hj,
        fun k hk => le_of_getElem? h (by omega) hj hk⟩
    obtain ⟨i, hi⟩ := List.length_eq_one_iff.1 hone
    rw [hi, List.mem_singleton] at hleft hright
    omega
  · intro hkey
    rw [hslots, hrest hkey, List.length_singleton]

/-- A search of a branch whose separators do not decrease starts with the child that a new entry with the
key goes to and goes down one by one. It goes to the children between whose separators the key lies, the
outer ones having none on their outer side, and to no other. So where the entries are in order no other
child has the key. It goes to one child only if no separator equals the key. -/
theorem slotsFor_exact (b : Branch Child) (h : b.keys.Pairwise (· ≤ ·)) (key : UInt64) :
    (b.slotsFor key).head? = some (b.slotOf key) ∧
      (∀ n i, (b.slotsFor key)[n]? = some i → i + n = b.slotOf key) ∧
      (b.Shaped → ∀ i ∈ b.slotsFor key, i < b.children.length) ∧
      (∀ i, i ∈ b.slotsFor key ↔
        i ≤ b.keys.length ∧ (∀ k, 1 ≤ i → b.keys[i - 1]? = some k → k ≤ key) ∧
          ∀ k, b.keys[i]? = some k → key ≤ k) ∧
      (∀ p kids lo hi, Shape.Ordered lo hi (.branch p b.keys kids) → ∀ i c, kids[i]? = some c →
        i ∉ b.slotsFor key → ∀ e ∈ c.entries, e.key ≠ key) ∧
      ((b.slotsFor key).length = 1 ↔ key ∉ b.keys) := by
  refine ⟨?_, fun n i => slotsFor_descend, ?_, fun i => mem_slotsFor_iff h, ?_,
    length_slotsFor_eq_one h⟩
  · obtain ⟨rest, hslots, -⟩ := slotsFor_eq b key
    rw [hslots, List.head?_cons]
  · intro hshaped i hi
    rw [hshaped]
    exact Nat.lt_succ_of_le (le_of_mem_slotsFor hi)
  · rintro p kids lo hi hordered i c hc hout e he rfl
    obtain ⟨hlen, -, hseparated⟩ := hordered.separated
    have hlt := (List.getElem?_eq_some_iff.1 hc).1
    exact hout ((mem_slotsFor h).2 ⟨by omega, hseparated i c hc e he⟩)

example : slotsFor ⟨[10, 10, 20], [1, 2, 3, 4]⟩ 20 = [3, 2] := by decide

/-- A search for a key that two separators equal goes to the children around both. -/
theorem slotsFor_exact_of_repeats : ∃ b : Branch Nat, b.keys = [10, 10, 20] ∧
    b.keys.Pairwise (· ≤ ·) ∧ b.slotOf 10 = 2 ∧ (b.slotsFor 10).head? = some 2 ∧
    0 ∈ b.slotsFor 10 ∧ 3 ∉ b.slotsFor 10 ∧ (b.slotsFor 10).length ≠ 1 := by
  obtain ⟨hhead, -, -, hmem, -, hone⟩ := slotsFor_exact ⟨[10, 10, 20], [1, 2, 3, 4]⟩ (by decide) 10
  refine ⟨⟨[10, 10, 20], [1, 2, 3, 4]⟩, rfl, by decide, by decide, hhead, (hmem 0).2 ⟨by decide, ?_⟩, ?_,
    fun h => hone.1 h (by decide)⟩
  · refine ⟨fun k h => absurd h (by decide), fun k hk => ?_⟩
    obtain rfl := Option.some.inj hk
    decide
  · intro h
    exact absurd (((hmem 3).1 h).2.1 20 (by decide) rfl) (by decide)

end PagedTree.Branch
