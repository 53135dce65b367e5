/-! # Separators and what stands between them

Separators and children alternate, and each child lies between the separator on its left and the
one on its right, both included; the outer children share the bounds of the whole row. A row can be
cut at a separator and joined again, and the end of a row can be replaced by any other row that
starts at the same bound.
-/
namespace PagedTree

variable {α : Type} {R : UInt64 → UInt64 → α → Prop}

theorem exists_cut {xs : List α} {i : Nat} (h : i < xs.length) :
    ∃ as x bs, xs = as ++ x :: bs ∧ as.length = i := by
  obtain ⟨x, bs, hdrop⟩ : ∃ x bs, xs.drop i = x :: bs :=
    List.exists_cons_of_length_pos (by rw [List.length_drop]; omega)
  refine ⟨xs.take i, x, bs, ?_, List.length_take_of_le (Nat.le_of_lt h)⟩
  rw [← hdrop, List.take_append_drop]

theorem exists_cut_getElem? {xs : List α} {i : Nat} {x : α} (h : xs[i]? = some x) :
    ∃ as bs, xs = as ++ x :: bs ∧ as.length = i := by
  obtain ⟨hi, hx⟩ := List.getElem?_eq_some_iff.1 h
  obtain ⟨as, y, bs, rfl, rfl⟩ := exists_cut hi
  obtain rfl : y = x := by simpa using hx
  exact ⟨as, bs, rfl, rfl⟩

theorem getElem?_middle {as xs bs : List α} {i : Nat} (h : i < xs.length) :
    (as ++ (xs ++ bs))[as.length + i]? = xs[i]? := by
  rw [List.getElem?_append_right (Nat.le_add_right ..), Nat.add_sub_cancel_left,
    List.getElem?_append_left h]

theorem eraseIdx_middle {as xs bs : List α} {i : Nat} (h : i < xs.length) :
    (as ++ (xs ++ bs)).eraseIdx (as.length + i) = as ++ (xs.eraseIdx i ++ bs) := by
  rw [List.eraseIdx_append_of_length_le (Nat.le_add_right ..), Nat.add_sub_cancel_left,
    List.eraseIdx_append_of_lt_length h]

theorem eraseIdx_cut {xs : List α} {i : Nat} (h : xs.length = i) (x : α) (ys : List α) :
    (xs ++ x :: ys).eraseIdx i = xs ++ ys := by
  subst h
  simp [List.eraseIdx_append]

/-- What holds of a row also holds when one of it gives way to others of which it holds. -/
theorem forall_mem_replace {Q : α → Prop} {as bs ys : List α} {x : α} (h : ∀ z ∈ as ++ x :: bs, Q z)
    (hys : ∀ z ∈ ys, Q z) : ∀ z ∈ as ++ (ys ++ bs), Q z := by
  intro z hz
  rcases List.mem_append.1 hz with hz | hz
  · exact h z (List.mem_append_left _ hz)
  rcases List.mem_append.1 hz with hz | hz
  · exact hys z hz
  · exact h z (List.mem_append_right _ (List.mem_cons_of_mem x hz))

/-- A row of separators and children from `lo` to `hi`. -/
def Between (R : UInt64 → UInt64 → α → Prop) : UInt64 → List UInt64 → List α → UInt64 → Prop
  | lo, [], [c], hi => lo ≤ hi ∧ R lo hi c
  | lo, k :: ks, c :: cs, hi => lo ≤ k ∧ R lo k c ∧ Between R k ks cs hi
  | _, _, _, _ => False

namespace Between

@[simp] theorem nil_left {lo hi : UInt64} {ks : List UInt64} : ¬Between R lo ks [] hi := by
  cases ks <;> simp [Between]

@[simp] theorem singleton {lo hi : UInt64} {c : α} :
    Between R lo [] [c] hi ↔ lo ≤ hi ∧ R lo hi c := Iff.rfl

@[simp] theorem cons {lo k hi : UInt64} {ks : List UInt64} {c : α} {cs : List α} :
    Between R lo (k :: ks) (c :: cs) hi ↔ lo ≤ k ∧ R lo k c ∧ Between R k ks cs hi := Iff.rfl

theorem length {lo hi : UInt64} {ks : List UInt64} {cs : List α} (h : Between R lo ks cs hi) :
    cs.length = ks.length + 1 := by
  induction ks generalizing lo cs with
  | nil =>
    match cs, h with
    | [_], _ => rfl
  | cons k ks ih =>
    match cs, h with
    | c :: cs, h => simp [ih h.2.2]

theorem le {lo hi : UInt64} {ks : List UInt64} {cs : List α} (h : Between R lo ks cs hi) :
    lo ≤ hi := by
  induction ks generalizing lo cs with
  | nil =>
    match cs, h with
    | [_], h => exact h.1
  | cons k ks ih =>
    match cs, h with
    | c :: cs, h => exact UInt64.le_trans h.1 (ih h.2.2)

/-- The separators do not decrease and stay within the bounds. -/
theorem sorted {lo hi : UInt64} {ks : List UInt64} {cs : List α} (h : Between R lo ks cs hi) :
    (lo :: (ks ++ [hi])).Pairwise (· ≤ ·) := by
  induction ks generalizing lo cs with
  | nil => simpa using h.le
  | cons k ks ih =>
    match cs, h with
    | c :: cs, h =>
      have hrest := ih h.2.2
      refine List.Pairwise.cons ?_ hrest
      intro x hx
      rcases List.mem_cons.1 hx with rfl | hx
      · exact h.1
      · exact UInt64.le_trans h.1 (List.rel_of_pairwise_cons hrest hx)

/-- Cut at a separator, a row gives two. -/
theorem append {lo m hi : UInt64} {ks ls : List UInt64} {cs ds : List α}
    (hlen : cs.length = ks.length + 1) :
    Between R lo (ks ++ m :: ls) (cs ++ ds) hi ↔ Between R lo ks cs m ∧ Between R m ls ds hi := by
  induction ks generalizing lo cs with
  | nil =>
    match cs, hlen with
    | [c], _ => simp [and_assoc]
  | cons k ks ih =>
    match cs, hlen with
    | c :: cs, hlen =>
      simp only [List.cons_append, cons, ih (by simpa using hlen), and_assoc]

/-- The end of a row starts at a bound of its own and can be replaced by any row from there. -/
theorem tail {lo hi : UInt64} {ks ls : List UInt64} {cs ds : List α} (hlen : cs.length = ks.length)
    (h : Between R lo (ks ++ ls) (cs ++ ds) hi) :
    ∃ a ∈ lo :: ks, lo ≤ a ∧ Between R a ls ds hi ∧
      ∀ {ls' : List UInt64} {ds' : List α} {hi' : UInt64},
        Between R a ls' ds' hi' → Between R lo (ks ++ ls') (cs ++ ds') hi' := by
  induction ks generalizing lo cs with
  | nil =>
    match cs, hlen with
    | [], _ => exact ⟨lo, by simp, UInt64.le_refl lo, h, id⟩
  | cons k ks ih =>
    match cs, hlen with
    | c :: cs, hlen =>
      obtain ⟨hlo, hc, hrest⟩ := h
      obtain ⟨a, ha, hka, htail, hnew⟩ := ih (by simpa using hlen) hrest
      exact ⟨a, List.mem_cons_of_mem _ ha, UInt64.le_trans hlo hka, htail,
        fun h' => ⟨hlo, hc, hnew h'⟩⟩

/-- A child has bounds of its own and can be replaced by any row between them. -/
theorem hole {lo hi : UInt64} {ks ls : List UInt64} {c : α} {cs ds : List α}
    (hlen : cs.length = ks.length) (h : Between R lo (ks ++ ls) (cs ++ c :: ds) hi) :
    ∃ a b, a ∈ lo :: ks ∧ b = ls.head?.getD hi ∧ lo ≤ a ∧ a ≤ b ∧ b ≤ hi ∧ R a b c ∧
      ∀ {ms : List UInt64} {es : List α},
        Between R a ms es b → Between R lo (ks ++ (ms ++ ls)) (cs ++ (es ++ ds)) hi := by
  obtain ⟨a, ha, hlo, htail, hnew⟩ := h.tail hlen
  cases ls with
  | nil =>
    match ds, htail with
    | [], htail =>
      refine ⟨a, hi, ha, rfl, hlo, htail.1, UInt64.le_refl hi, htail.2, ?_⟩
      intro ms es hes
      simpa using hnew hes
  | cons b ls =>
    obtain ⟨hab, hc, hrest⟩ := htail
    refine ⟨a, b, ha, rfl, hlo, hab, hrest.le, hc, ?_⟩
    intro ms es hes
    exact hnew ((append hes.length).2 ⟨hes, hrest⟩)

/-- A child before the cut lies below one of the separators before the cut. -/
theorem left_of {lo hi : UInt64} {ks ls : List UInt64} {cs ds : List α} {c : α}
    (hlen : cs.length = ks.length) (h : Between R lo (ks ++ ls) (cs ++ ds) hi) (hc : c ∈ cs) :
    ∃ a b, b ∈ ks ∧ R a b c := by
  induction ks generalizing lo cs with
  | nil =>
    match cs, hlen with
    | [], _ => simp at hc
  | cons k ks ih =>
    match cs, hlen with
    | d :: cs, hlen =>
      obtain ⟨-, hd, hrest⟩ := h
      rcases List.mem_cons.1 hc with rfl | hc
      · exact ⟨lo, k, List.mem_cons_self, hd⟩
      · obtain ⟨a, b, hb, hR⟩ := ih (by simpa using hlen) hrest hc
        exact ⟨a, b, List.mem_cons_of_mem _ hb, hR⟩

theorem head {lo hi : UInt64} {ks : List UInt64} {c : α} {cs : List α}
    (h : Between R lo ks (c :: cs) hi) : ∃ b, R lo b c := by
  cases ks with
  | nil =>
    match cs, h with
    | [], h => exact ⟨hi, h.2⟩
  | cons k ks => exact ⟨k, h.2.1⟩

theorem of_mem_tail {lo hi : UInt64} {ks : List UInt64} {c d : α} {ds : List α}
    (h : Between R lo ks (d :: ds) hi) (hc : c ∈ ds) : ∃ a b, a ∈ ks ∧ R a b c := by
  induction ks generalizing lo d ds with
  | nil =>
    match ds, h with
    | [], _ => simp at hc
  | cons k ks ih =>
    match ds, hc with
    | e :: ds, hc =>
      rcases List.mem_cons.1 hc with rfl | hc
      · obtain ⟨b, hb⟩ := h.2.2.head
        exact ⟨k, b, List.mem_cons_self, hb⟩
      · obtain ⟨a, b, ha, hR⟩ := ih h.2.2 hc
        exact ⟨a, b, List.mem_cons_of_mem _ ha, hR⟩

/-- A child behind the cut lies above one of the separators behind the cut. -/
theorem right_of {lo hi : UInt64} {ks ls : List UInt64} {cs ds : List α} {c d : α}
    (hlen : cs.length = ks.length) (h : Between R lo (ks ++ ls) (cs ++ d :: ds) hi) (hc : c ∈ ds) :
    ∃ a b, a ∈ ls ∧ R a b c := by
  obtain ⟨a, -, -, htail, -⟩ := h.tail hlen
  exact htail.of_mem_tail hc

/-- The bounds of a child lie behind all separators before it and before all behind it. -/
theorem bounds {lo hi : UInt64} {ks ls : List UInt64} {c : α} {cs ds : List α}
    (hlen : cs.length = ks.length) (h : Between R lo (ks ++ ls) (cs ++ c :: ds) hi) :
    ∃ a b, R a b c ∧ lo ≤ a ∧ (∀ k ∈ ks, k ≤ a) ∧ ∀ k ∈ ls, b ≤ k := by
  induction ks generalizing lo cs with
  | nil =>
    match cs, hlen with
    | [], _ =>
      cases ls with
      | nil =>
        match ds, h with
        | [], h => exact ⟨lo, hi, h.2, UInt64.le_refl lo, by simp, by simp⟩
      | cons l ls =>
        refine ⟨lo, l, h.2.1, UInt64.le_refl lo, by simp, ?_⟩
        intro k hk
        have hsorted := h.2.2.sorted
        rcases List.mem_cons.1 hk with rfl | hk
        · exact UInt64.le_refl _
        · exact List.rel_of_pairwise_cons hsorted (List.mem_append_left _ hk)
  | cons k ks ih =>
    match cs, hlen with
    | d :: cs, hlen =>
      obtain ⟨hlo, -, hrest⟩ := h
      obtain ⟨a, b, hR, hka, hks, hls⟩ := ih (by simpa using hlen) hrest
      refine ⟨a, b, hR, UInt64.le_trans hlo hka, ?_, hls⟩
      intro x hx
      rcases List.mem_cons.1 hx with rfl | hx
      · exact hka
      · exact hks x hx

theorem bounds_getElem? {lo hi : UInt64} {ks : List UInt64} {cs : List α} (h : Between R lo ks cs hi)
    {i : Nat} {c : α} (hc : cs[i]? = some c) :
    ∃ a b, R a b c ∧ (∀ k ∈ ks.take i, k ≤ a) ∧ ∀ k ∈ ks.drop i, b ≤ k := by
  obtain ⟨as, bs, rfl, rfl⟩ := exists_cut_getElem? hc
  have hlen : as.length = (ks.take as.length).length := by
    have hall := h.length
    rw [List.length_append, List.length_cons] at hall
    rw [List.length_take]
    omega
  rw [← List.take_append_drop as.length ks] at h
  obtain ⟨a, b, hR, -, hleft, hright⟩ := h.bounds hlen
  exact ⟨a, b, hR, hleft, hright⟩

theorem mem {lo hi : UInt64} {ks : List UInt64} {cs : List α} {c : α} (h : Between R lo ks cs hi)
    (hc : c ∈ cs) : ∃ a b, lo ≤ a ∧ b ≤ hi ∧ R a b c := by
  induction ks generalizing lo cs with
  | nil =>
    match cs, h with
    | [d], h =>
      rw [List.mem_singleton.1 hc]
      exact ⟨lo, hi, UInt64.le_refl _, UInt64.le_refl _, h.2⟩
  | cons k ks ih =>
    match cs, h with
    | d :: cs, h =>
      rcases List.mem_cons.1 hc with rfl | hc
      · exact ⟨lo, k, UInt64.le_refl _, h.2.2.le, h.2.1⟩
      · obtain ⟨a, b, ha, hb, hR⟩ := ih h.2.2 hc
        exact ⟨a, b, UInt64.le_trans h.1 ha, hb, hR⟩

/-- Wider bounds do. -/
theorem widen {lo hi lo' hi' : UInt64} {ks : List UInt64} {cs : List α}
    (hR : ∀ c ∈ cs, ∀ {a b a' b' : UInt64}, R a b c → a' ≤ a → b ≤ b' → R a' b' c)
    (h : Between R lo ks cs hi) (hlo : lo' ≤ lo) (hhi : hi ≤ hi') : Between R lo' ks cs hi' := by
  induction ks generalizing lo lo' cs with
  | nil =>
    match cs, h with
    | [c], h =>
      exact ⟨UInt64.le_trans hlo (UInt64.le_trans h.1 hhi), hR c List.mem_cons_self h.2 hlo hhi⟩
  | cons k ks ih =>
    match cs, h with
    | c :: cs, h =>
      exact ⟨UInt64.le_trans hlo h.1, hR c List.mem_cons_self h.2.1 hlo (UInt64.le_refl k),
        ih (fun d hd => hR d (List.mem_cons_of_mem _ hd)) h.2.2 (UInt64.le_refl k)⟩

/-- A row by the numbers of its children. -/
theorem iff_getElem? {lo hi : UInt64} {ks : List UInt64} {cs : List α} :
    Between R lo ks cs hi ↔ cs.length = ks.length + 1 ∧ (lo :: (ks ++ [hi])).Pairwise (· ≤ ·) ∧
      ∀ (i : Nat) (c : α), cs[i]? = some c → R ((lo :: ks).getD i hi) (ks.getD i hi) c := by
  constructor
  · intro h
    refine ⟨h.length, h.sorted, ?_⟩
    induction ks generalizing lo cs with
    | nil =>
      match cs, h with
      | [c], h =>
        intro i d hd
        cases i with
        | zero =>
          cases hd
          exact h.2
        | succ i => simp at hd
    | cons k ks ih =>
      match cs, h with
      | c :: cs, h =>
        intro i d hd
        cases i with
        | zero =>
          cases hd
          exact h.2.1
        | succ i => exact ih h.2.2 i d (by simpa using hd)
  · rintro ⟨hlen, hsorted, hR⟩
    induction ks generalizing lo cs with
    | nil =>
      match cs, hlen with
      | [c], _ => exact ⟨by simpa using hsorted, hR 0 c rfl⟩
    | cons k ks ih =>
      match cs, hlen with
      | c :: cs, hlen =>
        refine ⟨List.rel_of_pairwise_cons hsorted (by simp), hR 0 c rfl, ih (by simpa using hlen) ?_ ?_⟩
        · exact hsorted.of_cons
        · intro i d hd
          exact hR (i + 1) d (by simpa using hd)

end Between

end PagedTree
