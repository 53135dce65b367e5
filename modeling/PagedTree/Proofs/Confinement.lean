import PagedTree.Proofs.Histories
import PagedTree.Proofs.Territory

/-! # Changes stay within a tree

A call writes only pages of its own tree and pages that it has asked for, and the nodes it writes lead
only to such pages. So what is reachable from the root afterwards was reachable before or is new, and
every other page keeps its bytes.
-/
namespace PagedTree

/-- Writes on pages of the tree, and on all the pages asked for, that lead nowhere else. -/
structure Confined (s : Shape) (fs : List PageNo) (ws : List (PageNo × Node)) : Prop where
  written : ∀ w ∈ ws, w.1 ∈ s.pages ++ fs
  links : ∀ w ∈ ws, ∀ q ∈ w.2.links, q ∈ s.reach ++ fs
  filled : ∀ f ∈ fs, ∃ n, (f, n) ∈ ws

section
variable {e : Entry} {p : PageNo} {ks ls : List UInt64} {cs ds : List Shape} {l : Leaf}
  {s : Shape} {fs gs : List PageNo} {g g' : Growth} {ws vs : List (PageNo × Node)}

theorem LeafInserted.confined (h : LeafInserted e p l fs g ws) : Confined (.leaf p l) fs ws := by
  refine ⟨fun w hw => by simpa using h.written w hw, ?_, ?_⟩
  · cases h with
    | fits => simp +contextual [NodeOf.links, Leaf.insert]
    | splits _ hsplit =>
      obtain ⟨-, hnext, hnext', -⟩ := Leaf.entries_split? hsplit
      simp +contextual [NodeOf.links, hnext, hnext', Leaf.insert]
  · cases h <;> simp

theorem Absorbed.links (h : Absorbed p ks ls cs ds g gs g' vs) :
    ∀ v ∈ vs, ∀ q ∈ v.2.links, ∃ t ∈ cs ++ (g.trees ++ ds), t.page = q := by
  cases h with
  | whole => simp
  | fits =>
    intro v hv q hq
    rw [List.mem_singleton.1 hv] at hq
    exact List.mem_map.1 hq
  | @splits a b q key mid lks rks lcs rcs _ htrees =>
    have hall : ∀ t, t ∈ lcs ∨ t ∈ rcs → t ∈ cs ++ a :: b :: ds := by
      intro t ht
      rw [← htrees]
      exact List.mem_append.2 ht
    intro v hv r hr
    rcases List.mem_cons.1 hv with rfl | hv
    · obtain ⟨t, ht, rfl⟩ := List.mem_map.1 hr
      exact ⟨t, hall t (.inr ht), rfl⟩
    · rw [List.mem_singleton.1 hv] at hr
      obtain ⟨t, ht, rfl⟩ := List.mem_map.1 hr
      exact ⟨t, hall t (.inl ht), rfl⟩
  | full => simp
  | stopped => simp

theorem Absorbed.filled (h : Absorbed p ks ls cs ds g gs g' vs) : ∀ f ∈ gs, ∃ n, (f, n) ∈ vs := by
  cases h <;> simp

/-- Also an insertion that is cut short has written on every page it was given. -/
theorem Inserted.filled (h : Inserted e s fs g ws) : ∀ f ∈ fs, ∃ n, (f, n) ∈ ws := by
  induction h with
  | leaf h => exact h.confined.filled
  | full => simp
  | branch _ _ _ habs ih =>
    intro f hf
    rcases List.mem_append.1 hf with hf | hf
    · obtain ⟨n, hn⟩ := ih f hf
      exact ⟨n, List.mem_append_left _ hn⟩
    · obtain ⟨n, hn⟩ := habs.filled f hf
      exact ⟨n, List.mem_append_right _ hn⟩

/-- All pages that its writes link to are of the tree or new. -/
theorem Inserted.confined (h : Inserted e s fs g ws) : Confined s fs ws := by
  refine ⟨h.written, ?_, h.filled⟩
  induction h with
  | leaf h => exact h.confined.links
  | full => simp
  | @branch p ks ls cs ds c fs gs g g' ws vs _ _ hchild habs ih =>
    intro w hw q hq
    have hbelow : q ∈ c.reach ++ fs → q ∈ (Shape.branch p (ks ++ ls) (cs ++ c :: ds)).reach ++
        (fs ++ gs) := by
      rw [List.mem_append, List.mem_append, List.mem_append, Shape.mem_reach_branch]
      rintro (hmem | hmem)
      · exact .inl (.inr ⟨c, by simp, hmem⟩)
      · exact .inr (.inl hmem)
    rcases List.mem_append.1 hw with hw | hw
    · exact hbelow (ih w hw q hq)
    · obtain ⟨t, ht, rfl⟩ := habs.links w hw q hq
      have hkid : t ∈ cs ++ ds → t.page ∈ (Shape.branch p (ks ++ ls) (cs ++ c :: ds)).reach := by
        intro ht
        refine Shape.mem_reach_branch.2 (.inr ⟨t, ?_, Shape.pages_subset_reach t.page_mem_pages⟩)
        rcases List.mem_append.1 ht with ht | ht <;> simp [ht]
      rcases List.mem_append.1 ht with ht | ht
      · exact List.mem_append_left _ (hkid (List.mem_append_left _ ht))
      rcases List.mem_append.1 ht with ht | ht
      · have hg : g.Going := by cases g <;> simp [Growth.trees] at ht ⊢
        have hmem := (hchild.pages hg).subset (List.mem_flatMap.2 ⟨t, ht, t.page_mem_pages⟩)
        apply hbelow
        rcases List.mem_append.1 hmem with hmem | hmem
        · exact List.mem_append_left _ (Shape.pages_subset_reach hmem)
        · exact List.mem_append_right _ hmem
      · exact List.mem_append_left _ (hkid (List.mem_append_right _ ht))

/-- The left half of a tree that splits has been written as it is. -/
theorem Inserted.left_written {a b : Shape} {key : UInt64}
    (h : Inserted e s fs (.halves a key b) ws) : (a.page, a.node) ∈ ws := by
  cases h with
  | leaf h =>
    cases h
    simp [Shape.node]
  | branch _ _ _ habs =>
    cases habs
    simp [Shape.node]

theorem Insertion.confined (h : Insertion e s fs g ws) : Confined s fs ws := by
  cases h with
  | whole h | stopped h | full h => exact h.confined
  | @raised fs a b key m ws h =>
    obtain ⟨hwritten, hlinks, hfilled⟩ := h.confined
    have hpages := h.pages (by simp)
    simp only [Growth.trees, List.flatMap_cons, List.flatMap_nil, List.append_nil] at hpages
    have hb : b.page ∈ s.reach ++ fs := by
      have hmem := hpages.subset (List.mem_append_right _ b.page_mem_pages)
      rcases List.mem_append.1 hmem with hmem | hmem
      · exact List.mem_append_left _ (Shape.pages_subset_reach hmem)
      · exact List.mem_append_right _ hmem
    have hmore : ∀ q, q ∈ s.reach ++ fs → q ∈ s.reach ++ (fs ++ [m]) := by
      intro q hq
      rw [← List.append_assoc]
      exact List.mem_append_left _ hq
    refine ⟨?_, ?_, ?_⟩
    · intro w hw
      rw [← List.append_assoc]
      simp only [List.mem_append, List.mem_cons, List.not_mem_nil, or_false] at hw
      rcases hw with hw | rfl | rfl
      · exact List.mem_append_left _ (hwritten w hw)
      · simp
      · simp [s.page_mem_pages]
    · intro w hw q hq
      simp only [List.mem_append, List.mem_cons, List.not_mem_nil, or_false] at hw
      rcases hw with hw | rfl | rfl
      · exact hmore q (hlinks w hw q hq)
      · exact hmore q (hlinks _ h.left_written q hq)
      · simp only [NodeOf.links, List.mem_cons, List.not_mem_nil, or_false] at hq
        rcases hq with rfl | rfl
        · simp
        · exact hmore _ hb
    · intro f hf
      rcases List.mem_append.1 hf with hf | hf
      · obtain ⟨n, hn⟩ := hfilled f hf
        exact ⟨n, List.mem_append_left _ hn⟩
      · rw [List.mem_singleton.1 hf]
        exact ⟨a.node, by simp⟩

end

section
variable {key : UInt64} {s s' : Shape} {w : PageNo × Node} {ws : List (PageNo × Node)} {q : PageNo}

theorem ErasureStep.links {key : Option UInt64} (h : ErasureStep key s w s') :
    ∀ q ∈ w.2.links, q ∈ s.reach := by
  induction h with
  | take => simp +contextual [NodeOf.links, Leaf.erase]
  | @unlink p q ks ls k cs ds l =>
    intro r hr
    obtain ⟨c, hc, rfl⟩ := List.mem_map.1 hr
    refine Shape.mem_reach_branch.2 (.inr ⟨c, ?_, Shape.pages_subset_reach c.page_mem_pages⟩)
    rcases List.mem_append.1 hc with hc | hc <;> simp [hc]
  | unlinkLast =>
    intro r hr
    obtain ⟨c, hc, rfl⟩ := List.mem_map.1 hr
    exact Shape.mem_reach_branch.2
      (.inr ⟨c, by simp [hc], Shape.pages_subset_reach c.page_mem_pages⟩)
  | @collapse p q ks ls cs ds d =>
    intro r hr
    obtain ⟨c, hc, rfl⟩ := List.mem_map.1 hr
    have hreach := Shape.pages_subset_reach c.page_mem_pages
    rcases List.mem_append.1 hc with hc | hc
    · exact Shape.mem_reach_branch.2 (.inr ⟨c, by simp [hc], hreach⟩)
    rcases List.mem_cons.1 hc with rfl | hc
    · refine Shape.mem_reach_branch.2 (.inr ⟨.branch q [] [c], by simp, ?_⟩)
      exact Shape.mem_reach_branch.2 (.inr ⟨c, by simp, hreach⟩)
    · exact Shape.mem_reach_branch.2 (.inr ⟨c, by simp [hc], hreach⟩)
  | @inside key p ks ls cs ds c c' w _ _ ih =>
    exact fun q hq => Shape.mem_reach_branch.2 (.inr ⟨c, by simp, ih q hq⟩)

theorem ErasureStep.reach {key : Option UInt64} (h : ErasureStep key s w s') (hq : q ∈ s'.reach) :
    q ∈ s.reach := by
  induction h with
  | take => simpa [Leaf.erase] using hq
  | unlink =>
    simp only [Shape.mem_reach_branch, List.mem_append, List.mem_cons] at hq ⊢
    exact hq.imp_right fun ⟨c, hc, hmem⟩ => ⟨c, hc.imp_right .inr, hmem⟩
  | unlinkLast =>
    simp only [Shape.mem_reach_branch, List.mem_append] at hq ⊢
    exact hq.imp_right fun ⟨c, hc, hmem⟩ => ⟨c, .inl hc, hmem⟩
  | @collapse p r ks ls cs ds d =>
    simp only [Shape.mem_reach_branch, List.mem_append, List.mem_cons] at hq ⊢
    refine hq.imp_right fun ⟨c, hc, hmem⟩ => ?_
    rcases hc with hc | rfl | hc
    · exact ⟨c, .inl hc, hmem⟩
    · refine ⟨.branch r [] [c], .inr (.inl rfl), ?_⟩
      exact Shape.mem_reach_branch.2 (.inr ⟨c, by simp, hmem⟩)
    · exact ⟨c, .inr (.inr hc), hmem⟩
  | @inside key p ks ls cs ds c c' w _ _ ih =>
    simp only [Shape.mem_reach_branch, List.mem_append, List.mem_cons] at hq ⊢
    refine hq.imp_right fun ⟨d, hd, hmem⟩ => ?_
    rcases hd with hd | rfl | hd
    · exact ⟨d, .inl hd, hmem⟩
    · exact ⟨c, .inr (.inl rfl), ih hmem⟩
    · exact ⟨d, .inr (.inr hd), hmem⟩

theorem Erasure.reach (h : Erasure key s ws s') (hq : q ∈ s'.reach) : q ∈ s.reach := by
  induction h with
  | take hstep => exact hstep.reach hq
  | tidy _ hstep ih => exact ih (hstep.reach hq)

theorem Erasure.confined (h : Erasure key s ws s') : Confined s [] ws := by
  refine ⟨fun w hw => by simpa using h.written w hw, ?_, by simp⟩
  simp only [List.append_nil]
  induction h with
  | take hstep =>
    intro w hw
    rw [List.mem_singleton.1 hw]
    exact hstep.links
  | tidy h hstep ih =>
    intro w hw q hq
    rcases List.mem_append.1 hw with hw | hw
    · exact ih w hw q hq
    · rw [List.mem_singleton.1 hw] at hq
      exact h.reach (hstep.links q hq)

theorem Tree.Changed.confined {fs : List PageNo} (h : Changed s fs ws s') : Confined s fs ws := by
  cases h with
  | nothing => exact ⟨by simp, by simp, by simp⟩
  | insertion _ hins => exact hins.confined
  | erasure herased => exact herased.confined

end

/-- Pages are asked for to be written. -/
theorem Insertion.eq_of_unwritten {e : Entry} {s : Shape} {fs : List PageNo} {g : Growth}
    {store store' : PageStore} (h : Insertion e s fs g []) (hwrote : store.Wrote fs [] store') :
    store' = store := by
  have hfilled := h.confined.filled
  obtain rfl : fs = [] := List.eq_nil_iff_forall_not_mem.2 fun f hf => by simpa using hfilled f hf
  exact hwrote.eq_of_nil

/-- The node on a page that has been written is one of those written there. -/
theorem Pages.exists_written {P : Pages} {ws : List (PageNo × Node)} {q : PageNo}
    (h : ∃ w ∈ ws, w.1 = q) : ∃ n, (q, n) ∈ ws ∧ P.write ws q = some n := by
  induction ws generalizing P with
  | nil => simp at h
  | cons w ws ih =>
    by_cases hlater : ∃ v ∈ ws, v.1 = q
    · obtain ⟨n, hn, hq⟩ := ih (P := P.set w.1 w.2) hlater
      exact ⟨n, List.mem_cons_of_mem _ hn, hq⟩
    · obtain ⟨v, hv, rfl⟩ := h
      rcases List.mem_cons.1 hv with rfl | hv
      · refine ⟨v.2, List.mem_cons_self, ?_⟩
        rw [write_cons, write_other fun u hu he => hlater ⟨u, hu, he⟩, set_same]
      · exact absurd ⟨v, hv, rfl⟩ hlater

namespace PageStore

/-- From one store to a later one by changes to the tree on page `root`: what is not reachable from
there keeps its bytes, and what becomes reachable is new. -/
structure Tended (root : PageNo) (s t : PageStore) : Prop where
  sound : t.header.Sound
  grows : s.pageCount ≤ t.pageCount
  spares : ∀ p : PageNo, p.toNat < s.pageCount → ¬s.view.Reachable root p →
    t.file.read p.offset pageSize = s.file.read p.offset pageSize
  reaches : ∀ p : PageNo, t.view.Reachable root p →
    s.view.Reachable root p ∨ s.pageCount ≤ p.toNat

namespace Tended

variable {root : PageNo} {s t u : PageStore}

theorem refl (h : s.header.Sound) : s.Tended root s :=
  ⟨h, Nat.le_refl _, fun _ _ _ => rfl, fun _ => .inl⟩

theorem trans (h : s.Tended root t) (h' : t.Tended root u) : s.Tended root u := by
  refine ⟨h'.sound, Nat.le_trans h.grows h'.grows, ?_, ?_⟩
  · intro p hp hfar
    rw [h'.spares p (Nat.lt_of_lt_of_le hp h.grows), h.spares p hp hfar]
    intro hreach
    exact (h.reaches p hreach).elim hfar (Nat.not_le.2 hp)
  · intro p hreach
    rcases h'.reaches p hreach with hreach | hnew
    · exact h.reaches p hreach
    · exact .inr (Nat.le_trans h.grows hnew)

end Tended

theorem view_congr {s t : PageStore} {p : PageNo} {n : Node} (hp : p.toNat < t.pageCount)
    (h : t.file.read p.offset pageSize = s.file.read p.offset pageSize) (hn : s.view p = some n) :
    t.view p = some n := by
  rw [view, if_pos (lt_of_view hn)] at hn
  rw [view, if_pos hp, SparseFile.nodeAt, h]
  exact hn

end PageStore

theorem Confined.tended {s : Shape} {fs : List PageNo} {ws : List (PageNo × Node)}
    {store store' : PageStore} (h : Confined s fs ws) (hs : s.Stands store.view)
    (hsound : store.header.Sound) (hwrote : store.Wrote fs ws store') :
    store.Tended s.page store' := by
  have hfresh := hwrote.fresh hsound
  have hview := hwrote.view hsound
  have hcount := hwrote.pageCount_eq hsound
  refine ⟨hwrote.sound hsound, by omega, ?_, ?_⟩
  · intro p hp hfar
    apply hwrote.read
    rintro w hw rfl
    rcases List.mem_append.1 (h.written w hw) with hmem | hmem
    · exact hfar (hs.on.reachable (Shape.pages_subset_reach hmem))
    · exact absurd hp (Nat.not_lt.2 (hfresh.2 _ hmem).1)
  · intro p hreach
    have hreached : ∀ q ∈ s.reach ++ fs, store.view.Reachable s.page q ∨ store.pageCount ≤ q.toNat := by
      intro q hq
      rcases List.mem_append.1 hq with hq | hq
      · exact .inl (hs.on.reachable hq)
      · exact .inr (hfresh.2 q hq).1
    induction hreach with
    | root => exact .inl .root
    | @link q r n hfrom hn hlink ih =>
      by_cases hwritten : ∃ w ∈ ws, w.1 = q
      · obtain ⟨m, hmem, hm⟩ := Pages.exists_written (P := store.view) hwritten
        obtain rfl := Option.some.inj ((hview q m hm).symm.trans hn)
        exact hreached r (h.links _ hmem r hlink)
      · -- every new page has been written, so this one was there before
        rcases ih with hreach | hnew
        · obtain ⟨m, hm⟩ := hs.reachable_node hreach
          have hkept := hview q m
            (by rw [Pages.write_other fun w hw he => hwritten ⟨w, hw, he⟩, hm])
          obtain rfl := Option.some.inj (hkept.symm.trans hn)
          exact .inl (.link hreach hm hlink)
        · obtain ⟨m, hm⟩ := h.filled q (hwrote.mem_of_new hsound hnew (PageStore.lt_of_view hn))
          exact absurd ⟨_, hm, rfl⟩ hwritten

end PagedTree
