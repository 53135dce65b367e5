import PagedTree.Proofs.Leaves
import PagedTree.Proofs.Standing

/-! # Where a key lies

A new entry is routed to the child behind the last separator that is not greater than its key. A
lookup has to search every child whose bounds admit the key, from right to left; it finds an entry
if the tree has one with the key.
-/
namespace PagedTree

/-- Separators cut where an entry with the key goes. -/
def Routed (key : UInt64) (ks ls : List UInt64) : Prop :=
  (∀ k ∈ ks, k ≤ key) ∧ ∀ k ∈ ls.head?, key < k

namespace Branch

variable {Child : Type}

theorem slotOf_routed {key : UInt64} {ks ls : List UInt64} (h : Routed key ks ls)
    (cs : List Child) : slotOf ⟨ks ++ ls, cs⟩ key = ks.length := by
  have hls : ls.takeWhile (· ≤ key) = [] := by
    cases ls with
    | nil => rfl
    | cons k ls =>
      have hk := UInt64.not_le.2 (h.2 k rfl)
      exact List.takeWhile_cons_of_neg (by simpa using hk)
  have hks : ∀ k ∈ ks, decide (k ≤ key) = true := fun k hk => decide_eq_true (h.1 k hk)
  rw [slotOf, List.takeWhile_append_of_pos hks, hls, List.append_nil]

/-- A branch of its shape, cut at the child that an entry with the key goes to. -/
theorem exists_routed {keys : List UInt64} {cs : List Child} (h : cs.length = keys.length + 1)
    (key : UInt64) : ∃ ks ls as c bs, keys = ks ++ ls ∧ cs = as ++ c :: bs ∧
      as.length = ks.length ∧ Routed key ks ls := by
  have hle := (List.takeWhile_sublist (l := keys) (· ≤ key)).length_le
  have hlt : (keys.takeWhile (· ≤ key)).length < cs.length := by omega
  obtain ⟨as, c, bs, rfl, has⟩ := exists_cut hlt
  refine ⟨_, _, as, c, bs, List.takeWhile_append_dropWhile.symm, rfl, has, ?_, ?_⟩
  · intro k hk
    simpa using List.all_eq_true.1 List.all_takeWhile k hk
  · intro k hk
    have hnot := List.head?_dropWhile_not (· ≤ key) keys
    rw [hk] at hnot
    simpa using hnot

theorem le_of_mem_slotsFor {b : Branch Child} {key : UInt64} {i : Nat} (h : i ∈ b.slotsFor key) :
    i ≤ b.keys.length := by
  have hle := slotOf_le b key
  simp only [slotsFor, List.mem_reverse, List.mem_range'_1] at h
  omega

/-- The slots to search are those with no separator above the key on their left and none below it
on their right. -/
theorem mem_slotsFor {b : Branch Child} (h : b.keys.Pairwise (· ≤ ·)) {key : UInt64} {i : Nat} :
    i ∈ b.slotsFor key ↔ i ≤ b.keys.length ∧ (∀ k ∈ b.keys.take i, k ≤ key) ∧
      ∀ k ∈ b.keys.drop i, key ≤ k := by
  have hbetween : i ∈ b.slotsFor key ↔
      (b.keys.takeWhile (· < key)).length ≤ i ∧ i ≤ b.slotOf key := by
    simp only [slotsFor, List.mem_reverse, List.mem_range'_1]
    omega
  rw [hbetween, slotOf, length_takeWhile_lt_le h, le_length_takeWhile]
  simp only [decide_eq_true_eq]
  constructor
  · rintro ⟨hge, hi, hle⟩
    exact ⟨hi, hle, hge⟩
  · rintro ⟨hi, hle, hge⟩
    exact ⟨hge, hi, hle⟩

end Branch

theorem findSome?_rel {α β γ : Type} {R : β → γ → Prop} {f : α → Option β} {g : α → Option γ}
    {xs : List α} (h : ∀ x ∈ xs, Option.Rel R (f x) (g x)) :
    Option.Rel R (xs.findSome? f) (xs.findSome? g) := by
  induction xs with
  | nil => exact .none
  | cons x xs ih =>
    have hx := h x List.mem_cons_self
    rw [List.findSome?_cons, List.findSome?_cons]
    generalize f x = b at hx ⊢
    generalize g x = c at hx ⊢
    cases hx with
    | none => exact ih fun y hy => h y (List.mem_cons_of_mem _ hy)
    | some hR => exact .some hR

/-- The values under the key, in the order of a scan. -/
def valuesUnder (key : UInt64) (es : List Entry) : List ByteArray :=
  (es.filter (·.key == key)).map Entry.value

section
variable {key : UInt64} {v : ByteArray} {es pre post : List Entry} {e : Entry}

theorem valuesUnder_append :
    valuesUnder key (pre ++ post) = valuesUnder key pre ++ valuesUnder key post := by
  simp [valuesUnder]

theorem valuesUnder_eq_nil : valuesUnder key es = [] ↔ ∀ e ∈ es, e.key ≠ key := by
  simp [valuesUnder]

/-- The first value under the key. -/
theorem valuesUnder_cut (h : ∀ x ∈ pre, x.key ≠ key) :
    valuesUnder key (pre ++ ⟨key, v⟩ :: post) = v :: valuesUnder key (pre ++ post) := by
  rw [valuesUnder_append, valuesUnder_append, valuesUnder_eq_nil.2 h]
  simp [valuesUnder]

theorem valuesUnder_perm : (valuesUnder key (pre ++ ⟨key, v⟩ :: post)).Perm
    (v :: valuesUnder key (pre ++ post)) := by
  simp only [valuesUnder, List.filter_append, List.filter_cons, beq_self_eq_true, if_true,
    List.map_append, List.map_cons]
  exact List.perm_middle

theorem valuesUnder_other (h : e.key ≠ key) :
    valuesUnder key (pre ++ e :: post) = valuesUnder key (pre ++ post) := by
  simp [valuesUnder, h]

end

namespace Shape

/-- A value stored under the key, from the rightmost leaf that has the key. -/
def find? (key : UInt64) : Shape → Option ByteArray
  | leaf _ l => l.get? key
  | branch _ keys kids => (Branch.slotsFor ⟨keys, kids⟩ key).findSome? fun i =>
    match h : kids[i]? with
    | some c =>
      have := List.mem_of_getElem? h
      c.find? key
    | none => none

/-- The entries of the tree and a new one, where its leaf takes it in. -/
def entriesWith (e : Entry) : Shape → List Entry
  | leaf _ l => (l.insert e).entries
  | branch _ keys kids =>
    let slot := Branch.slotOf ⟨keys, kids⟩ e.key
    match h : kids[slot]? with
    | some c =>
      have := List.mem_of_getElem? h
      (kids.take slot).flatMap entries ++ c.entriesWith e ++ (kids.drop (slot + 1)).flatMap entries
    | none => kids.flatMap entries

/-- Where in a scan the entry stands whose value a lookup finds. -/
def place? (key : UInt64) : Shape → Option Nat
  | leaf _ l => l.entries.findIdx? (·.key == key)
  | branch _ keys kids => (Branch.slotsFor ⟨keys, kids⟩ key).findSome? fun i =>
    match h : kids[i]? with
    | some c =>
      have := List.mem_of_getElem? h
      (c.place? key).map (((kids.take i).flatMap entries).length + ·)
    | none => none

theorem find?_leaf {p : PageNo} {l : Leaf} (key : UInt64) : (leaf p l).find? key = l.get? key := by
  simp [find?]

theorem find?_branch {p : PageNo} {keys : List UInt64} {kids : List Shape} (key : UInt64) :
    (branch p keys kids).find? key =
      (Branch.slotsFor ⟨keys, kids⟩ key).findSome? fun i => kids[i]?.bind (find? key) := by
  rw [find?]
  congr 1
  funext i
  split <;> rename_i h <;> simp [h]

theorem place?_leaf {p : PageNo} {l : Leaf} (key : UInt64) :
    (leaf p l).place? key = l.entries.findIdx? (·.key == key) := by simp [place?]

theorem place?_branch {p : PageNo} {keys : List UInt64} {kids : List Shape} (key : UInt64) :
    (branch p keys kids).place? key = (Branch.slotsFor ⟨keys, kids⟩ key).findSome? fun i =>
      kids[i]?.bind fun c => (c.place? key).map (((kids.take i).flatMap entries).length + ·) := by
  rw [place?]
  congr 1
  funext i
  split <;> rename_i h <;> simp [h]

@[simp] theorem entriesWith_leaf {p : PageNo} {l : Leaf} (e : Entry) :
    (leaf p l).entriesWith e = (l.insert e).entries := by simp [entriesWith]

theorem entriesWith_branch {p : PageNo} {ks ls : List UInt64} {cs ds : List Shape} {c : Shape}
    {e : Entry} (hlen : cs.length = ks.length) (h : Routed e.key ks ls) :
    (branch p (ks ++ ls) (cs ++ c :: ds)).entriesWith e =
      cs.flatMap entries ++ c.entriesWith e ++ ds.flatMap entries := by
  have hslot := Branch.slotOf_routed h (cs ++ c :: ds)
  have hc : (cs ++ c :: ds)[ks.length]? = some c := by simp [← hlen]
  rw [entriesWith]
  simp only [hslot]
  split
  · rename_i d hd
    rw [hslot, hc] at hd
    cases hd
    simp [← hlen]
  · rename_i hd
    rw [hslot, hc] at hd
    cases hd

/-- The new entry stands behind every smaller key and before every larger one. -/
theorem Ordered.entriesWith {s : Shape} {lo hi : UInt64} (h : s.Ordered lo hi) (e : Entry) :
    ∃ pre post, s.entries = pre ++ post ∧ s.entriesWith e = pre ++ e :: post ∧
      (∀ x ∈ pre, x.key ≤ e.key) ∧ ∀ x ∈ post, e.key ≤ x.key := by
  induction s using induct generalizing lo hi with
  | leaf p l =>
    obtain ⟨pre, post, hpre, hpost, -⟩ := Leaf.exists_insert l e
    have hsorted := Leaf.sorted_insert (ordered_leaf.1 h).1 e
    rw [Leaf.keys, hpost, List.map_append, List.map_cons, List.pairwise_append] at hsorted
    refine ⟨pre, post, by simpa using hpre, by simpa using hpost, ?_, ?_⟩
    · intro x hx
      exact hsorted.2.2 x.key (List.mem_map_of_mem hx) e.key List.mem_cons_self
    · intro x hx
      exact List.rel_of_pairwise_cons hsorted.2.1 (List.mem_map_of_mem hx)
  | branch p keys kids ih =>
    rw [ordered_branch] at h
    obtain ⟨ks, ls, cs, c, ds, rfl, rfl, hlen, hroute⟩ := Branch.exists_routed h.length e.key
    obtain ⟨a, b, -, -, -, -, -, hc, -⟩ := h.hole hlen
    obtain ⟨pre, post, hentries, hwith, hpre, hpost⟩ := ih c (by simp) hc
    have hls : ∀ k ∈ ls, e.key ≤ k := by
      have hsorted := (List.pairwise_append.1 (List.pairwise_append.1 h.sorted.of_cons).1).2.1
      cases ls with
      | nil => simp
      | cons k ls =>
        have hk : e.key ≤ k := UInt64.le_of_lt (hroute.2 k rfl)
        intro x hx
        rcases List.mem_cons.1 hx with rfl | hx
        · exact hk
        · exact UInt64.le_trans hk (List.rel_of_pairwise_cons hsorted hx)
    refine ⟨cs.flatMap entries ++ pre, post ++ ds.flatMap entries, ?_, ?_, ?_, ?_⟩
    · simp [hentries]
    · simp [entriesWith_branch hlen hroute, hwith]
    · intro x hx
      rcases List.mem_append.1 hx with hx | hx
      · obtain ⟨d, hd, hxd⟩ := List.mem_flatMap.1 hx
        obtain ⟨a, b, hb, hR⟩ := h.left_of hlen hd
        exact UInt64.le_trans (hR.bound x hxd).2 (hroute.1 b hb)
      · exact hpre x hx
    · intro x hx
      rcases List.mem_append.1 hx with hx | hx
      · exact hpost x hx
      · obtain ⟨d, hd, hxd⟩ := List.mem_flatMap.1 hx
        obtain ⟨a, b, ha, hR⟩ := h.right_of hlen hd
        exact UInt64.le_trans (hls a ha) (hR.bound x hxd).1

/-- The value that a lookup finds is that of the entry at the place. -/
theorem find?_place? (s : Shape) (key : UInt64) :
    Option.Rel (fun v i => s.entries[i]? = some ⟨key, v⟩) (s.find? key) (s.place? key) := by
  induction s using induct with
  | leaf p l =>
    rw [find?_leaf, place?_leaf, entries_leaf]
    cases hget : l.get? key with
    | none =>
      rw [List.findIdx?_eq_none_iff.2 (by simpa using Leaf.get?_eq_none.1 hget)]
      exact .none
    | some v =>
      obtain ⟨i, hi, hentry, -⟩ := Leaf.findIdx?_of_get? hget
      rw [hi]
      exact .some hentry
  | branch p keys kids ih =>
    rw [find?_branch, place?_branch]
    apply findSome?_rel
    intro i _
    cases hi : kids[i]? with
    | none => exact .none
    | some c =>
      obtain ⟨cs, ds, rfl, rfl⟩ := exists_cut_getElem? hi
      simp only [Option.bind_some, entries_branch, List.take_left, List.flatMap_append,
        List.flatMap_cons]
      have hc := ih c (by simp)
      generalize c.find? key = v at hc ⊢
      generalize c.place? key = j at hc ⊢
      cases hc with
      | none => exact .none
      | @some v j hj =>
        refine .some ?_
        rw [getElem?_middle (List.getElem?_eq_some_iff.1 hj).1, hj]

theorem find?_eq_place? (s : Shape) (key : UInt64) :
    s.find? key = (s.place? key).bind fun i => s.entries[i]?.map Entry.value := by
  have hboth := s.find?_place? key
  generalize s.find? key = v at hboth ⊢
  generalize s.place? key = i at hboth ⊢
  cases hboth with
  | none => rfl
  | some hentry => rw [Option.bind_some, hentry, Option.map_some]

theorem place?_eq_none {s : Shape} {key : UInt64} : s.place? key = none ↔ s.find? key = none := by
  have hboth := s.find?_place? key
  generalize s.find? key = v at hboth ⊢
  generalize s.place? key = i at hboth ⊢
  cases hboth <;> simp

theorem mem_of_find? {s : Shape} {key : UInt64} {v : ByteArray} (h : s.find? key = some v) :
    ⟨key, v⟩ ∈ s.entries := by
  induction s using induct with
  | leaf p l =>
    rw [find?_leaf] at h
    obtain ⟨pre, post, hentries, -⟩ := Leaf.get?_eq_some h
    simp [hentries]
  | branch p keys kids ih =>
    rw [find?_branch] at h
    obtain ⟨-, i, -, -, hi, -⟩ := List.findSome?_eq_some_iff.1 h
    obtain ⟨c, hc, hfind⟩ := Option.bind_eq_some_iff.1 hi
    have hmem := List.mem_of_getElem? hc
    rw [entries_branch]
    exact List.mem_flatMap.2 ⟨c, hmem, ih c hmem hfind⟩

/-- A key is found wherever it is. -/
theorem Ordered.find?_eq_none {s : Shape} {lo hi : UInt64} (h : s.Ordered lo hi) {key : UInt64}
    (hfind : s.find? key = none) : ∀ e ∈ s.entries, e.key ≠ key := by
  induction s using induct generalizing lo hi with
  | leaf p l =>
    rw [find?_leaf] at hfind
    simpa using Leaf.get?_eq_none.1 hfind
  | branch p keys kids ih =>
    rintro e he rfl
    obtain ⟨hlen, hsorted, hseparated⟩ := h.separated
    rw [ordered_branch] at h
    rw [entries_branch] at he
    obtain ⟨c, hc, hec⟩ := List.mem_flatMap.1 he
    obtain ⟨i, hlt, rfl⟩ := List.getElem_of_mem hc
    have hi : kids[i]? = some kids[i] := List.getElem?_eq_getElem hlt
    obtain ⟨a, b, hR, -⟩ := h.bounds_getElem? hi
    obtain ⟨hleft, hright⟩ := hseparated i kids[i] hi e hec
    have hslot : i ∈ Branch.slotsFor ⟨keys, kids⟩ e.key :=
      (Branch.mem_slotsFor hsorted).2 ⟨by simp only; omega, hleft, hright⟩
    rw [find?_branch, List.findSome?_eq_none_iff] at hfind
    have hnone := hfind i hslot
    rw [hi, Option.bind_some] at hnone
    exact ih kids[i] hc hR hnone e hec rfl

theorem Ordered.find?_eq_none_iff {s : Shape} {lo hi : UInt64} (h : s.Ordered lo hi)
    {key : UInt64} : s.find? key = none ↔ ∀ e ∈ s.entries, e.key ≠ key := by
  refine ⟨h.find?_eq_none, fun habsent => ?_⟩
  by_contra hfind
  obtain ⟨v, hv⟩ := Option.ne_none_iff_exists'.1 hfind
  exact habsent ⟨key, v⟩ (mem_of_find? hv) rfl

end Shape

end PagedTree
