import PagedTree.Proofs.Search

/-! # Erasing, as steps from tree to tree

Each write of an erasure leads from one tree to the next: the entry is taken out of its leaf, and
then an empty leaf is dropped from its parent or a branch without separators gives way to its only
child. Every one of these trees stands on the file, and after the first step all have the same
entries.
-/
namespace PagedTree

/-- One write of an erasure. With a key it takes an entry with that key out of a leaf; without one
it tidies up a branch. -/
inductive ErasureStep : Option UInt64 → Shape → PageNo × Node → Shape → Prop where
  | take {key : UInt64} {v : ByteArray} {p : PageNo} {l : Leaf} : l.get? key = some v →
      ErasureStep (some key) (.leaf p l) (p, .leaf (l.erase key)) (.leaf p (l.erase key))
  | unlink {p q : PageNo} {ks ls : List UInt64} {k : UInt64} {cs ds : List Shape} {l : Leaf} :
      cs.length = ks.length → l.entries = [] →
      ErasureStep none (.branch p (ks ++ k :: ls) (cs ++ .leaf q l :: ds))
        (p, .branch ⟨ks ++ ls, (cs ++ ds).map Shape.page⟩) (.branch p (ks ++ ls) (cs ++ ds))
  | unlinkLast {p q : PageNo} {ks : List UInt64} {k : UInt64} {cs : List Shape} {l : Leaf} :
      cs.length = ks.length + 1 → l.entries = [] →
      ErasureStep none (.branch p (ks ++ [k]) (cs ++ [.leaf q l]))
        (p, .branch ⟨ks, cs.map Shape.page⟩) (.branch p ks cs)
  | collapse {p q : PageNo} {ks ls : List UInt64} {cs ds : List Shape} {d : Shape} :
      cs.length = ks.length →
      ErasureStep none (.branch p (ks ++ ls) (cs ++ .branch q [] [d] :: ds))
        (p, .branch ⟨ks ++ ls, (cs ++ d :: ds).map Shape.page⟩)
        (.branch p (ks ++ ls) (cs ++ d :: ds))
  | inside {key : Option UInt64} {p : PageNo} {ks ls : List UInt64} {cs ds : List Shape}
      {c c' : Shape} {w : PageNo × Node} : cs.length = ks.length → ErasureStep key c w c' →
      ErasureStep key (.branch p (ks ++ ls) (cs ++ c :: ds)) w
        (.branch p (ks ++ ls) (cs ++ c' :: ds))

namespace ErasureStep

variable {key : Option UInt64} {s s' : Shape} {w : PageNo × Node} {P : Pages} {lo hi : UInt64}

theorem page (h : ErasureStep key s w s') : s'.page = s.page := by cases h <;> rfl

theorem written (h : ErasureStep key s w s') : w.1 ∈ s.pages := by
  induction h with
  | take => simp
  | unlink => simp
  | unlinkLast => simp
  | collapse => simp
  | inside _ _ ih => simp [ih]

theorem pages (h : ErasureStep key s w s') : s'.pages.Sublist s.pages := by
  induction h with
  | take => simp
  | unlink => simp
  | unlinkLast => simp
  | collapse => simp
  | inside _ _ ih => simp [ih]

theorem on (h : ErasureStep key s w s') (hs : s.On P) (hd : s.pages.Nodup) :
    s'.On (P.set w.1 w.2) := by
  induction h with
  | take => simp
  | @unlink p q ks ls k cs ds l =>
    have hcut := Shape.distinct_kids hd
    refine Shape.on_branch.2 ⟨Pages.set_same .., ?_⟩
    intro c hc
    refine ((Shape.on_branch.1 hs).2 c ?_).set (hcut.1.2 c hc) _
    rcases List.mem_append.1 hc with hc | hc <;> simp [hc]
  | @unlinkLast p q ks k cs l =>
    have hcut := Shape.distinct_kids hd
    refine Shape.on_branch.2 ⟨Pages.set_same .., ?_⟩
    intro c hc
    exact ((Shape.on_branch.1 hs).2 c (by simp [hc])).set (hcut.1.2 c (by simp [hc])) _
  | @collapse p q ks ls cs ds d =>
    have hcut := Shape.distinct_kids hd
    refine Shape.on_branch.2 ⟨Pages.set_same .., ?_⟩
    intro c hc
    have hkids := (Shape.on_branch.1 hs).2
    rcases List.mem_append.1 hc with hc | hc
    · exact (hkids c (by simp [hc])).set (hcut.1.2 c (by simp [hc])) _
    rcases List.mem_cons.1 hc with rfl | hc
    · have hbranch := hkids (.branch q [] [c]) (by simp)
      refine ((Shape.on_branch.1 hbranch).2 c (by simp)).set (fun hmem => hcut.1.1 ?_) _
      simp [hmem]
    · exact (hkids c (by simp [hc])).set (hcut.1.2 c (by simp [hc])) _
  | @inside key p ks ls cs ds c c' w hlen h ih =>
    obtain ⟨⟨hp, hpkids⟩, hbelow, hkids⟩ := Shape.distinct_kids hd
    obtain ⟨htop, hall⟩ := Shape.on_branch.1 hs
    have hw := h.written
    refine Shape.on_branch.2 ⟨?_, ?_⟩
    · rw [Pages.set_other _ fun he => hp (by rw [he]; exact hw), htop]
      simp [h.page]
    intro x hx
    rcases List.mem_append.1 hx with hx | hx
    · exact (hall x (by simp [hx])).set (fun hmem => hkids x (by simp [hx]) _ hmem hw) _
    rcases List.mem_cons.1 hx with rfl | hx
    · exact ih (hall c (by simp)) hbelow
    · exact (hall x (by simp [hx])).set (fun hmem => hkids x (by simp [hx]) _ hmem hw) _

theorem ordered (h : ErasureStep key s w s') (hs : s.Ordered lo hi) : s'.Ordered lo hi := by
  induction h generalizing lo hi with
  | @take key v p l hv =>
    obtain ⟨hsorted, hbound⟩ := Shape.ordered_leaf.1 hs
    have hsub : (l.erase key).keys.Sublist l.keys := (l.erase_sublist key).map Entry.key
    exact Shape.ordered_leaf.2 ⟨hsorted.sublist hsub, fun k hk => hbound k (hsub.subset hk)⟩
  | @unlink p q ks ls k cs ds l hlen =>
    obtain ⟨a, -, -, htail, hnew⟩ := (Shape.ordered_branch.1 hs).tail hlen
    refine Shape.ordered_branch.2 (hnew ?_)
    exact htail.2.2.widen (fun _ _ _ _ _ _ h => h.widen) htail.1 (UInt64.le_refl hi)
  | @unlinkLast p q ks k cs l hlen =>
    obtain ⟨hleft, hlast⟩ := (Between.append hlen).1 (Shape.ordered_branch.1 hs)
    apply Shape.ordered_branch.2
    exact hleft.widen (fun _ _ _ _ _ _ h => h.widen) (UInt64.le_refl lo) hlast.1
  | @collapse p q ks ls cs ds d hlen =>
    obtain ⟨a, b, -, -, -, -, -, hc, hnew⟩ := (Shape.ordered_branch.1 hs).hole hlen
    exact Shape.ordered_branch.2 (hnew (Shape.ordered_branch.1 hc))
  | @inside key p ks ls cs ds c c' w hlen h ih =>
    obtain ⟨a, b, -, -, -, hab, -, hc, hnew⟩ := (Shape.ordered_branch.1 hs).hole hlen
    have hone : Between Shape.Ordered a [] [c'] b := ⟨hab, ih hc⟩
    exact Shape.ordered_branch.2 (hnew hone)

theorem small (h : ErasureStep key s w s') (hs : s.Small) : s'.Small := by
  induction h with
  | @take key v p l hv =>
    obtain ⟨hlen, hsize⟩ := Shape.small_leaf.1 hs
    have hsub := l.erase_sublist key
    exact Shape.small_leaf.2 ⟨Nat.lt_of_le_of_lt hsub.length_le hlen,
      fun e he => hsize e (hsub.subset he)⟩
  | @unlink p q ks ls k cs ds l hlen =>
    obtain ⟨⟨hshape, hkeys⟩, hkids⟩ := Shape.small_branch.1 hs
    simp only [List.length_append, List.length_cons] at hshape hkeys
    refine Shape.small_branch.2 ⟨?_, forall_mem_replace hkids (List.forall_mem_nil _)⟩
    simp only [List.length_append]
    omega
  | @unlinkLast p q ks k cs l hlen =>
    obtain ⟨⟨-, hkeys⟩, hkids⟩ := Shape.small_branch.1 hs
    rw [List.length_append] at hkeys
    exact Shape.small_branch.2 ⟨⟨hlen, by omega⟩, fun c hc => hkids c (by simp [hc])⟩
  | @collapse p q ks ls cs ds d =>
    obtain ⟨⟨hshape, hkeys⟩, hkids⟩ := Shape.small_branch.1 hs
    have honly := (Shape.small_branch.1 (hkids (.branch q [] [d]) (by simp))).2
    exact Shape.small_branch.2 ⟨⟨by simpa using hshape, hkeys⟩, forall_mem_replace hkids honly⟩
  | @inside key p ks ls cs ds c c' w _ h ih =>
    obtain ⟨⟨hshape, hkeys⟩, hkids⟩ := Shape.small_branch.1 hs
    have hnew := List.forall_mem_singleton.2 (ih (hkids c (by simp)))
    exact Shape.small_branch.2 ⟨⟨by simpa using hshape, hkeys⟩, forall_mem_replace hkids hnew⟩

/-- The leaf that the entry is taken from stays in its place. -/
theorem taken {key : UInt64} (h : ErasureStep (some key) s w s') : ∃ as p l v bs,
    s.leaves = as ++ (p, l) :: bs ∧ s'.leaves = as ++ (p, l.erase key) :: bs ∧
      l.get? key = some v ∧ w = (p, .leaf (l.erase key)) := by
  generalize hk : some key = k at h
  induction h with
  | @take key' v p l hv =>
    cases hk
    exact ⟨[], p, l, v, [], by simp, by simp, hv, rfl⟩
  | unlink => cases hk
  | unlinkLast => cases hk
  | collapse => cases hk
  | @inside key' p ks ls cs ds c c' w _ h ih =>
    obtain ⟨as, q, l, v, bs, hleaves, hleaves', hv, hw⟩ := ih hk
    refine ⟨cs.flatMap Shape.leaves ++ as, q, l, v, bs ++ ds.flatMap Shape.leaves, ?_, ?_, hv, hw⟩
    · simp [hleaves]
    · simp [hleaves']

/-- Tidying up drops at most one leaf, which is empty, and writes a branch. -/
theorem tidied (h : ErasureStep none s w s') (hs : s.On P) :
    (∃ b, P w.1 = some (.branch b)) ∧ (s'.leaves = s.leaves ∨ ∃ as x bs, x.2.entries = [] ∧
      s.leaves = as ++ x :: bs ∧ s'.leaves = as ++ bs) := by
  generalize hk : none = k at h
  induction h with
  | take => cases hk
  | @unlink p q ks ls k cs ds l _ hl =>
    refine ⟨⟨_, (Shape.on_branch.1 hs).1⟩, .inr ⟨cs.flatMap Shape.leaves, (q, l),
      ds.flatMap Shape.leaves, hl, by simp, by simp⟩⟩
  | @unlinkLast p q ks k cs l _ hl =>
    exact ⟨⟨_, (Shape.on_branch.1 hs).1⟩, .inr ⟨cs.flatMap Shape.leaves, (q, l), [], hl, by simp,
      by simp⟩⟩
  | collapse => exact ⟨⟨_, (Shape.on_branch.1 hs).1⟩, .inl (by simp)⟩
  | @inside key' p ks ls cs ds c c' w _ h ih =>
    obtain ⟨hbranch, hleaves⟩ := ih ((Shape.on_branch.1 hs).2 c (by simp)) hk
    refine ⟨hbranch, ?_⟩
    rcases hleaves with he | ⟨as, x, bs, hx, hs, hs'⟩
    · exact .inl (by simp [he])
    · refine .inr ⟨cs.flatMap Shape.leaves ++ as, x, bs ++ ds.flatMap Shape.leaves, hx, ?_, ?_⟩
      · simp [hs]
      · simp [hs']

/-- Taking out removes one entry with the key and nothing else. -/
theorem entries_taken {key : UInt64} (h : ErasureStep (some key) s w s') : ∃ pre v post,
    s.entries = pre ++ ⟨key, v⟩ :: post ∧ s'.entries = pre ++ post := by
  obtain ⟨as, p, l, v, bs, hleaves, hleaves', hv, -⟩ := h.taken
  obtain ⟨pre, post, hpre, hpost⟩ := Leaf.get?_eq_some hv
  refine ⟨as.flatMap (·.2.entries) ++ pre, v, post ++ bs.flatMap (·.2.entries), ?_, ?_⟩
  · simp [Shape.entries_eq, hleaves, hpre]
  · simp [Shape.entries_eq, hleaves', hpost]

theorem entries_tidied (h : ErasureStep none s w s') (hs : s.On P) : s'.entries = s.entries := by
  rcases (h.tidied hs).2 with he | ⟨as, x, bs, hx, hleaves, hleaves'⟩
  · rw [Shape.entries_eq, he, Shape.entries_eq]
  · simp [Shape.entries_eq, hleaves, hleaves', hx]

theorem chained (h : ErasureStep key s w s') (hs : s.On P) (hchained : Chained P s.leaves) :
    Chained (P.set w.1 w.2) s'.leaves := by
  cases key with
  | some key =>
    obtain ⟨as, p, l, v, bs, hleaves, hleaves', -, rfl⟩ := h.taken
    rw [hleaves] at hchained
    rw [hleaves']
    refine hchained.change ?_ (Pages.set_same ..) (Leaf.next_erase l key)
    intro q n hq hn
    rw [Pages.set_other _ hq, hn]
  | none =>
    obtain ⟨⟨b, hb⟩, hleaves⟩ := h.tidied hs
    have hkeep : Chained P s'.leaves := by
      rcases hleaves with he | ⟨as, x, bs, hx, hleaves, hleaves'⟩
      · rwa [he]
      · rw [hleaves] at hchained
        rw [hleaves']
        exact hchained.drop hx
    apply hkeep.mono
    intro q l hl
    rw [Pages.set_other, hl]
    rintro rfl
    simp [hb] at hl

/-- Every step leads from a tree that stands on the file to one that does. -/
theorem stands (h : ErasureStep key s w s') (hs : s.Stands P) : s'.Stands (P.set w.1 w.2) :=
  ⟨h.on hs.on hs.distinct, hs.distinct.sublist h.pages, h.ordered hs.ordered, h.small hs.small,
    h.chained hs.on hs.chained⟩

end ErasureStep

/-- An erasure that has found an entry with the key: one step that takes it out, then any number of
steps that tidy up. -/
inductive Erasure (key : UInt64) (s : Shape) : List (PageNo × Node) → Shape → Prop where
  | take {w : PageNo × Node} {s' : Shape} : ErasureStep (some key) s w s' → Erasure key s [w] s'
  | tidy {ws : List (PageNo × Node)} {w : PageNo × Node} {s' s'' : Shape} : Erasure key s ws s' →
      ErasureStep none s' w s'' → Erasure key s (ws ++ [w]) s''

namespace Erasure

variable {key : UInt64} {s s' : Shape} {ws : List (PageNo × Node)} {P : Pages}

theorem inside (h : Erasure key s ws s') {p : PageNo} {ks ls : List UInt64} {cs ds : List Shape}
    (hlen : cs.length = ks.length) :
    Erasure key (.branch p (ks ++ ls) (cs ++ s :: ds)) ws (.branch p (ks ++ ls) (cs ++ s' :: ds)) := by
  induction h with
  | take hstep => exact .take (.inside hlen hstep)
  | tidy _ hstep ih => exact .tidy ih (.inside hlen hstep)

theorem page (h : Erasure key s ws s') : s'.page = s.page := by
  induction h with
  | take hstep => exact hstep.page
  | tidy _ hstep ih => exact hstep.page.trans ih

theorem pages (h : Erasure key s ws s') : s'.pages.Sublist s.pages := by
  induction h with
  | take hstep => exact hstep.pages
  | tidy _ hstep ih => exact hstep.pages.trans ih

theorem written (h : Erasure key s ws s') : ∀ w ∈ ws, w.1 ∈ s.pages := by
  induction h with
  | take hstep =>
    intro w hw
    rw [List.mem_singleton.1 hw]
    exact hstep.written
  | tidy h hstep ih =>
    intro w hw
    rcases List.mem_append.1 hw with hw | hw
    · exact ih w hw
    · rw [List.mem_singleton.1 hw]
      exact h.pages.subset hstep.written

theorem on (h : Erasure key s ws s') (hs : s.On P) (hd : s.pages.Nodup) : s'.On (P.write ws) := by
  induction h with
  | take hstep => exact hstep.on hs hd
  | tidy h hstep ih =>
    rw [Pages.write_append]
    exact hstep.on ih (hd.sublist h.pages)

theorem small (h : Erasure key s ws s') (hs : s.Small) : s'.Small := by
  induction h with
  | take hstep => exact hstep.small hs
  | tidy _ hstep ih => exact hstep.small ih

theorem stands (h : Erasure key s ws s') (hs : s.Stands P) : s'.Stands (P.write ws) := by
  induction h with
  | take hstep => exact hstep.stands hs
  | tidy _ hstep ih =>
    rw [Pages.write_append]
    exact hstep.stands ih

/-- One entry with the key is gone and nothing else. -/
theorem entries (h : Erasure key s ws s') (hs : s.Stands P) : ∃ pre v post,
    s.entries = pre ++ ⟨key, v⟩ :: post ∧ s'.entries = pre ++ post := by
  induction h with
  | take hstep => exact hstep.entries_taken
  | tidy h hstep ih =>
    rw [hstep.entries_tidied (h.stands hs).on]
    exact ih

/-- Wherever the writes of an erasure end, a scan shows the entries of before or of afterwards. -/
theorem scans (h : Erasure key s ws s') (hs : s.Stands P) {pre post : List (PageNo × Node)}
    (hcut : ws = pre ++ post) :
    Scans (P.write pre) s.page s.entries ∨ Scans (P.write pre) s.page s'.entries := by
  have hwhole : ∀ {us : List (PageNo × Node)} {r : Shape}, Erasure key s us r →
      Scans (P.write us) s.page r.entries := by
    intro us r hr
    rw [← hr.page]
    exact (hr.stands hs).scans
  induction h generalizing post with
  | take hstep =>
    rcases List.eq_nil_or_concat post with rfl | ⟨post', v, rfl⟩
    · rw [List.append_nil] at hcut
      exact .inr (hcut ▸ hwhole (.take hstep))
    · rw [List.concat_eq_append, ← List.append_assoc, ← List.nil_append [_]] at hcut
      obtain ⟨hnil, -⟩ := List.append_inj' hcut rfl
      obtain ⟨rfl, -⟩ := List.append_eq_nil_iff.1 hnil.symm
      exact .inl hs.scans
  | tidy h hstep ih =>
    rcases List.eq_nil_or_concat post with rfl | ⟨post', v, rfl⟩
    · rw [List.append_nil] at hcut
      exact .inr (hcut ▸ hwhole (.tidy h hstep))
    · rw [List.concat_eq_append, ← List.append_assoc] at hcut
      rw [hstep.entries_tidied (h.stands hs).on]
      exact ih (List.append_inj_left' hcut rfl)

end Erasure

end PagedTree
