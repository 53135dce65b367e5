import PagedTree.Node.Leaf
import PagedTree.Proofs.Separators

/-! # What happens to the entries of a leaf

A new entry keeps the keys in order, a leaf of two or more entries splits into two that are not
empty, and the entry that a lookup finds is the one that would be taken out.
-/
namespace PagedTree

theorem le_length_takeWhile {α : Type} {p : α → Bool} {xs : List α} {i : Nat} :
    i ≤ (xs.takeWhile p).length ↔ i ≤ xs.length ∧ ∀ x ∈ xs.take i, p x := by
  induction xs generalizing i with
  | nil => simp
  | cons x xs ih =>
    cases i with
    | zero => simp
    | succ i =>
      by_cases hx : p x
      · simp [List.takeWhile_cons_of_pos hx, ih, hx]
      · simp [hx]

theorem length_takeWhile_lt_le {xs : List UInt64} (h : xs.Pairwise (· ≤ ·)) {key : UInt64}
    {i : Nat} : (xs.takeWhile (· < key)).length ≤ i ↔ ∀ x ∈ xs.drop i, key ≤ x := by
  induction xs generalizing i with
  | nil => simp
  | cons x xs ih =>
    have hrest : ∀ y ∈ xs, x ≤ y := fun y hy => List.rel_of_pairwise_cons h hy
    by_cases hx : x < key
    · rw [List.takeWhile_cons_of_pos (by simpa using hx)]
      cases i with
      | zero =>
        simp only [List.length_cons, List.drop_zero]
        refine ⟨fun hlen => by omega, ?_⟩
        intro hge
        exact absurd (hge x List.mem_cons_self) (UInt64.not_le.2 hx)
      | succ i => simpa using ih h.of_cons
    · have hall : ∀ y ∈ x :: xs, key ≤ y := by
        intro y hy
        have hkx := UInt64.not_lt.1 hx
        rcases List.mem_cons.1 hy with rfl | hy
        · exact hkx
        · exact UInt64.le_trans hkx (hrest y hy)
      rw [List.takeWhile_cons_of_neg (by simpa using hx)]
      exact ⟨fun _ y hy => hall y (List.mem_of_mem_drop hy), fun _ => Nat.zero_le i⟩

theorem le_of_mem_dropWhile {xs : List UInt64} (h : xs.Pairwise (· ≤ ·)) {key : UInt64} :
    ∀ x ∈ xs.dropWhile (· < key), key ≤ x := by
  have hrest : (xs.takeWhile (· < key) ++ xs.dropWhile (· < key)).drop
      (xs.takeWhile (· < key)).length = xs.dropWhile (· < key) := List.drop_left
  rw [List.takeWhile_append_dropWhile] at hrest
  rw [← hrest]
  exact (length_takeWhile_lt_le h).1 (Nat.le_refl _)

namespace Leaf

variable {l a b : Leaf} {key : UInt64} {v : ByteArray} {e : Entry}

theorem length_keys (l : Leaf) : l.keys.length = l.entries.length := List.length_map _

@[simp] theorem next_insert (l : Leaf) (e : Entry) : (l.insert e).next = l.next := rfl

@[simp] theorem next_erase (l : Leaf) (key : UInt64) : (l.erase key).next = l.next := rfl

theorem mem_insert {x : Entry} : x ∈ (l.insert e).entries ↔ x = e ∨ x ∈ l.entries := by
  rw [(entries_insert l e).mem_iff, List.mem_cons]

theorem length_insert (l : Leaf) (e : Entry) :
    (l.insert e).entries.length = l.entries.length + 1 := by
  rw [(entries_insert l e).length_eq, List.length_cons]

/-- The new entry stands behind all smaller keys and before all others. -/
theorem exists_insert (l : Leaf) (e : Entry) :
    ∃ pre post, l.entries = pre ++ post ∧ (l.insert e).entries = pre ++ e :: post ∧
      ∀ x ∈ pre, x.key < e.key :=
  ⟨_, _, List.takeWhile_append_dropWhile.symm, rfl,
    fun x hx => by simpa using List.all_eq_true.1 List.all_takeWhile x hx⟩

theorem keys_insert (l : Leaf) (e : Entry) :
    (l.insert e).keys = l.keys.takeWhile (· < e.key) ++ e.key :: l.keys.dropWhile (· < e.key) := by
  simp only [keys, insert, List.map_append, List.map_cons, List.takeWhile_map, List.dropWhile_map]
  rfl

theorem sorted_insert (h : l.keys.Pairwise (· ≤ ·)) (e : Entry) :
    (l.insert e).keys.Pairwise (· ≤ ·) := by
  have hcut := List.takeWhile_append_dropWhile (p := (· < e.key)) (l := l.keys)
  have hbefore : ∀ x ∈ l.keys.takeWhile (· < e.key), x ≤ e.key := by
    intro x hx
    have hlt := List.all_eq_true.1 List.all_takeWhile x hx
    exact UInt64.le_of_lt (by simpa using hlt)
  have hafter : ∀ x ∈ l.keys.dropWhile (· < e.key), e.key ≤ x := le_of_mem_dropWhile h
  rw [← hcut, List.pairwise_append] at h
  rw [keys_insert, List.pairwise_append]
  refine ⟨h.1, List.pairwise_cons.2 ⟨hafter, h.2.1⟩, ?_⟩
  intro x hx y hy
  rcases List.mem_cons.1 hy with rfl | hy
  · exact hbefore x hx
  · exact h.2.2 x hx y hy

/-! ## Splitting -/

theorem breakPoint?_inside {keys : List UInt64} (h : 2 ≤ keys.length) :
    ∃ point, breakPoint? keys = some point ∧ 0 < point ∧ point < keys.length := by
  obtain ⟨last, ks, hlast⟩ : ∃ last ks, (keys.take (keys.length / 2)).reverse = last :: ks :=
    List.exists_cons_of_length_pos (by rw [List.length_reverse, List.length_take]; omega)
  obtain ⟨key, ls, hkey⟩ : ∃ key ls, keys.drop (keys.length / 2) = key :: ls :=
    List.exists_cons_of_length_pos (by rw [List.length_drop]; omega)
  unfold breakPoint?
  simp only [hlast, hkey]
  refine ⟨_, rfl, ?_⟩
  split
  · omega
  split
  · omega
  split <;> omega

/-- The break point is where the run of equal keys around the middle starts, or where it ends if
nothing stands before it, or the middle if there is nothing but the run. -/
theorem breakPoint?_run {keys : List UInt64} {point : Nat} (h : breakPoint? keys = some point) :
    ∃ key before run behind, keys = before ++ (run ++ behind) ∧ key ∈ run ∧ (∀ x ∈ run, x = key) ∧
      (∀ x ∈ before.getLast?, x ≠ key) ∧ (∀ x ∈ behind.head?, x ≠ key) ∧
      (before.length ≤ keys.length / 2 ∧ keys.length / 2 < before.length + run.length) ∧
      (before ≠ [] ∧ point = before.length ∨ before = [] ∧ behind ≠ [] ∧ point = run.length ∨
        before = [] ∧ behind = [] ∧ point = keys.length / 2) := by
  have hcut := List.take_append_drop (keys.length / 2) keys
  have hlen : (keys.take (keys.length / 2)).length = keys.length / 2 :=
    List.length_take_of_le (by omega)
  unfold breakPoint? at h
  dsimp only at h
  generalize keys.length / 2 = mid at *
  generalize keys.take mid = xs at *
  generalize keys.drop mid = ys at *
  subst hcut
  split at h
  case h_2 => cases h
  case h_1 last bs key as hlast =>
    have hrun : ∀ {zs : List UInt64}, ∀ x ∈ zs.takeWhile (· == key), x = key :=
      fun x hx => by simpa using List.all_eq_true.1 List.all_takeWhile x hx
    have hnot : ∀ {zs : List UInt64}, ∀ x ∈ (zs.dropWhile (· == key)).head?, x ≠ key := by
      intro zs x hx
      have hhead := List.head?_dropWhile_not (· == key) zs
      rw [Option.mem_def.1 hx] at hhead
      simpa using hhead
    have hfront := List.takeWhile_append_dropWhile (p := (· == key)) (l := xs.reverse)
    have hback := List.takeWhile_append_dropWhile (p := (· == key)) (l := key :: as)
    have hfrontLen := congrArg List.length hfront
    have hbackLen := congrArg List.length hback
    simp only [List.length_append, List.length_reverse] at hfrontLen hbackLen h
    refine ⟨key, (xs.reverse.dropWhile (· == key)).reverse, (xs.reverse.takeWhile (· == key)).reverse ++
      (key :: as).takeWhile (· == key), (key :: as).dropWhile (· == key), ?_, ?_, ?_, ?_, hnot, ?_, ?_⟩
    · rw [List.append_assoc, hback, ← List.append_assoc, ← List.reverse_append, hfront,
        List.reverse_reverse]
    · exact List.mem_append_right _ (by simp)
    · intro x hx
      rcases List.mem_append.1 hx with hx | hx
      · exact hrun x (List.mem_reverse.1 hx)
      · exact hrun x hx
    · rw [List.getLast?_reverse]
      exact hnot
    · have hkey : 0 < ((key :: as).takeWhile (· == key)).length := by simp
      simp only [List.length_append, List.length_reverse]
      omega
    · simp only [List.length_append, List.length_reverse]
      split at h
      case isTrue hne =>
        have hnone : xs.reverse.takeWhile (· == key) = [] := by
          rw [hlast]
          exact List.takeWhile_cons_of_neg (by simpa using hne)
        have hpos : 0 < xs.length := by
          rw [← List.length_reverse, hlast]
          exact Nat.succ_pos _
        rw [hnone, List.length_nil] at hfrontLen
        obtain rfl := Option.some.inj h
        refine .inl ⟨List.ne_nil_of_length_pos ?_, by omega⟩
        rw [List.length_reverse]
        omega
      split at h
      case isTrue =>
        obtain rfl := Option.some.inj h
        refine .inl ⟨List.ne_nil_of_length_pos ?_, by omega⟩
        rw [List.length_reverse]
        omega
      have hbefore : (xs.reverse.dropWhile (· == key)).reverse = [] := by
        apply List.eq_nil_of_length_eq_zero
        rw [List.length_reverse]
        omega
      split at h
      case isTrue =>
        obtain rfl := Option.some.inj h
        exact .inr (.inl ⟨hbefore, List.ne_nil_of_length_pos (by omega), by omega⟩)
      case isFalse =>
        obtain rfl := Option.some.inj h
        exact .inr (.inr ⟨hbefore, List.eq_nil_of_length_eq_zero (by omega), rfl⟩)

/-- Keys that do not decrease are parted between two different ones, unless all are equal. -/
theorem breakPoint?_apart {keys : List UInt64} (h : keys.Pairwise (· ≤ ·)) {point : Nat}
    (hpoint : breakPoint? keys = some point) {k : UInt64} (hleft : k ∈ keys.take point)
    (hright : k ∈ keys.drop point) : ∀ x ∈ keys, x = k := by
  obtain ⟨key, before, run, behind, rfl, hkey, hrun, hlast, hfirst, -, hcases⟩ := breakPoint?_run hpoint
  obtain ⟨hbefore, hrest, hcross⟩ := List.pairwise_append.1 h
  obtain ⟨-, hbehind, hcross'⟩ := List.pairwise_append.1 hrest
  rcases hcases with ⟨hne, rfl⟩ | ⟨rfl, hne, rfl⟩ | ⟨rfl, rfl, -⟩
  · -- the keys in front of the run are smaller than those from there on
    rw [List.take_left] at hleft
    rw [List.drop_left] at hright
    rcases List.eq_nil_or_concat before with rfl | ⟨ls, last, rfl⟩
    · simp at hne
    rw [List.concat_eq_append] at *
    have hle : last ≤ key := hcross last (by simp) key (List.mem_append_left _ hkey)
    have hklast : k ≤ last := by
      rcases List.mem_append.1 hleft with hk | hk
      · exact (List.pairwise_append.1 hbefore).2.2 k hk last (by simp)
      · exact List.mem_singleton.1 hk ▸ UInt64.le_refl _
    have hkey' : key ≤ k := by
      rcases List.mem_append.1 hright with hk | hk
      · exact hrun k hk ▸ UInt64.le_refl _
      · exact hcross' key hkey k hk
    exact absurd (UInt64.le_antisymm hle (UInt64.le_trans hkey' hklast)) (hlast last (by simp))
  · -- the keys behind the run are greater than those in it
    rw [List.nil_append, List.take_left] at hleft
    rw [List.nil_append, List.drop_left] at hright
    obtain ⟨first, ls, rfl⟩ := List.exists_cons_of_ne_nil hne
    have hle : key ≤ first := hcross' key hkey first List.mem_cons_self
    have hfirstk : first ≤ k := by
      rcases List.mem_cons.1 hright with rfl | hk
      · exact UInt64.le_refl _
      · exact List.rel_of_pairwise_cons hbehind hk
    rw [hrun k hleft] at hfirstk
    exact absurd (UInt64.le_antisymm hfirstk hle) (hfirst first rfl)
  · simp only [List.nil_append, List.append_nil] at hleft ⊢
    obtain rfl := hrun k (List.mem_of_mem_take hleft)
    exact hrun

/-- The halves of a leaf are what lies in front of the break point and what lies from there on. -/
theorem split?_at {point : Nat} (h : breakPoint? l.keys = some point) (hlt : point < l.entries.length)
    (right : PageNo) : ∃ a key b, l.split? right = some (a, key, b) ∧
      a.entries = l.entries.take point ∧ b.entries = l.entries.drop point := by
  obtain ⟨e, es, hdrop⟩ : ∃ e es, l.entries.drop point = e :: es :=
    List.exists_cons_of_length_pos (by rw [List.length_drop]; omega)
  refine ⟨⟨l.entries.take point, some right⟩, e.key, ⟨e :: es, l.next⟩, ?_, rfl, hdrop.symm⟩
  simp [split?, h, hdrop]

/-- The halves of a leaf are not empty, and the key between them is the first of the right one. -/
theorem split?_ok (h : 2 ≤ l.entries.length) (right : PageNo) :
    ∃ a key b, l.split? right = some (a, key, b) ∧ a.entries ≠ [] := by
  obtain ⟨point, hpoint, hpos, hlt⟩ := breakPoint?_inside (length_keys l ▸ h)
  rw [length_keys] at hlt
  obtain ⟨a, key, b, hsplit, ha, -⟩ := split?_at hpoint hlt right
  refine ⟨a, key, b, hsplit, fun hnil => ?_⟩
  have hlen := congrArg List.length (ha.symm.trans hnil)
  rw [List.length_take, List.length_nil] at hlen
  omega

theorem nonempty_split {right : PageNo} (hs : l.split? right = some (a, key, b))
    (h : 2 ≤ l.entries.length) : a.entries ≠ [] ∧ b.entries ≠ [] := by
  obtain ⟨a', key', b', hs', ha⟩ := split?_ok h right
  cases hs.symm.trans hs'
  refine ⟨ha, fun hb => ?_⟩
  obtain ⟨-, -, -, hkey⟩ := entries_split? hs
  simp [keys, hb] at hkey

theorem sorted_split {right : PageNo} (hs : l.split? right = some (a, key, b))
    (h : l.keys.Pairwise (· ≤ ·)) : a.keys.Pairwise (· ≤ ·) ∧ b.keys.Pairwise (· ≤ ·) ∧
      (∀ k ∈ a.keys, k ≤ key) ∧ (∀ k ∈ b.keys, key ≤ k) ∧ key ∈ l.keys := by
  obtain ⟨hentries, -, -, hkey⟩ := entries_split? hs
  have hkeys : l.keys = a.keys ++ b.keys := by rw [keys, ← hentries, List.map_append]; rfl
  obtain ⟨ks, hks⟩ := List.head?_eq_some_iff.1 hkey
  rw [hkeys, List.pairwise_append] at h
  obtain ⟨ha, hb, hab⟩ := h
  refine ⟨ha, hb, fun k hk => hab k hk key (by simp [hks]), ?_, by simp [hkeys, hks]⟩
  intro k hk
  rw [hks] at hk hb
  rcases List.mem_cons.1 hk with rfl | hk
  · exact UInt64.le_refl _
  · exact List.rel_of_pairwise_cons hb hk

/-- No key stands in both halves, unless the leaf has no other. -/
theorem apart_split {right : PageNo} (hs : l.split? right = some (a, key, b))
    (h : l.keys.Pairwise (· ≤ ·)) {k : UInt64} (ha : k ∈ a.keys) (hb : k ∈ b.keys) :
    ∀ x ∈ l.keys, x = k := by
  unfold split? at hs
  obtain ⟨point, hpoint, hs⟩ := Option.bind_eq_some_iff.1 hs
  split at hs
  case h_1 => cases hs
  case h_2 e es hdrop =>
    obtain ⟨rfl, rfl, rfl⟩ : _ ∧ _ ∧ _ := by simpa using hs
    simp only [keys, ← hdrop, List.map_take, List.map_drop] at ha hb
    exact breakPoint?_apart h hpoint ha hb

/-! ## Lookup and erasure -/

theorem get?_eq_none : l.get? key = none ↔ ∀ e ∈ l.entries, e.key ≠ key := by
  simp [get?]

theorem get?_insert_self (l : Leaf) (e : Entry) : (l.insert e).get? e.key = some e.value := by
  have hbefore : (l.entries.takeWhile (·.key < e.key)).find? (·.key == e.key) = none := by
    rw [List.find?_eq_none]
    intro x hx heq
    have hlt := List.all_eq_true.1 List.all_takeWhile x hx
    rw [beq_iff_eq.1 heq] at hlt
    simp at hlt
  rw [get?, insert, List.find?_append, hbefore, Option.none_or, List.find?_cons_of_pos (by simp)]
  rfl

theorem get?_insert_of_ne (l : Leaf) {k : UInt64} (h : k ≠ e.key) :
    (l.insert e).get? k = l.get? k := by
  rw [get?, get?, insert, List.find?_append, List.find?_cons_of_neg (by simpa using h.symm),
    ← List.find?_append, List.takeWhile_append_dropWhile]

/-- The right half is searched first, but a leaf with two different keys has each in one half. -/
theorem get?_split {right : PageNo} (hs : l.split? right = some (a, key, b))
    (h : l.keys.Pairwise (· ≤ ·)) {k x : UInt64} (hx : x ∈ l.keys) (hne : x ≠ k) :
    (b.get? k).or (a.get? k) = l.get? k := by
  have hl : l.get? k = (a.get? k).or (b.get? k) := by
    rw [get?, ← (entries_split? hs).1, List.find?_append, Option.map_or]
    rfl
  rw [hl]
  cases ha : a.get? k with
  | none => simp
  | some v =>
    cases hb : b.get? k with
    | none => simp
    | some w =>
      have hmem : ∀ {c : Leaf} {u : ByteArray}, c.get? k = some u → k ∈ c.keys := by
        intro c u hc
        obtain ⟨e, he, -⟩ := Option.map_eq_some_iff.1 hc
        have hkey := List.find?_some he
        exact List.mem_map.2 ⟨e, List.mem_of_find?_eq_some he, by simpa using hkey⟩
      exact absurd (apart_split hs h (hmem ha) (hmem hb) x hx) hne

/-- The entry that a lookup finds is the first with the key, and it is the one taken out. -/
theorem findIdx?_of_get? (h : l.get? key = some v) :
    ∃ i, l.entries.findIdx? (·.key == key) = some i ∧ l.entries[i]? = some ⟨key, v⟩ ∧
      (l.erase key).entries = l.entries.eraseIdx i := by
  obtain ⟨⟨k, v⟩, he, rfl⟩ := Option.map_eq_some_iff.1 h
  obtain ⟨hk, pre, post, hentries, hpre⟩ := List.find?_eq_some_iff_append.1 he
  obtain rfl : k = key := by simpa using hk
  have hnone : pre.findIdx? (·.key == k) = none := List.findIdx?_eq_none_iff.2 (by simpa using hpre)
  have hplace : l.entries.findIdx? (·.key == k) = some pre.length := by
    rw [hentries, List.findIdx?_append, hnone, List.findIdx?_cons]
    simp
  refine ⟨pre.length, hplace, by simp [hentries], ?_⟩
  rw [erase, List.eraseP_eq_eraseIdx, hplace]

/-- The value that is found is that of the entry which would be taken out. -/
theorem get?_eq_some (h : l.get? key = some v) : ∃ pre post,
    l.entries = pre ++ ⟨key, v⟩ :: post ∧ (l.erase key).entries = pre ++ post := by
  obtain ⟨i, -, hentry, herased⟩ := findIdx?_of_get? h
  obtain ⟨pre, post, hcut, rfl⟩ := exists_cut_getElem? hentry
  exact ⟨pre, post, hcut, by rw [herased, hcut, eraseIdx_cut rfl]⟩

theorem any_key (l : Leaf) (key : UInt64) :
    l.entries.any (·.key == key) = (l.get? key).isSome := by
  rw [get?, Option.isSome_map, Bool.eq_iff_iff, List.find?_isSome, List.any_eq_true]

theorem erase_sublist (l : Leaf) (key : UInt64) : (l.erase key).entries.Sublist l.entries :=
  List.eraseP_sublist

end Leaf

end PagedTree
