import PagedTree.Proofs.Confinement
import PagedTree.Proofs.Rightmost

/-! # Insertions that find no page

A leaf that has to split and finds no page leaves the file as it was. A branch that has to take in the
halves of a child and finds no page leaves a file on which the right half is missing, with its entries;
so does a root that has split. The handle that made the call goes on with both halves, but for those of
the root.
-/
namespace PagedTree

section
variable {e : Entry} {s kept held : Shape} {fs : List PageNo} {ws : List (PageNo × Node)} {P : Pages}
  {key lo hi : UInt64}

/-- The children behind the one that a key is routed to have larger keys only. -/
theorem Shape.lt_of_routed {ks ls : List UInt64} {cs ds : List Shape} {c : Shape}
    (hlen : cs.length = ks.length) (hroute : Routed key ks ls)
    (h : Between Shape.Ordered lo (ks ++ ls) (cs ++ c :: ds) hi) :
    ∀ x ∈ ds.flatMap Shape.entries, key < x.key := by
  intro x hx
  obtain ⟨d, hd, hx⟩ := List.mem_flatMap.1 hx
  obtain ⟨a, b, ha, hR⟩ := h.right_of hlen hd
  have hle := (hR.bound x hx).1
  have hsorted := (List.pairwise_append.1 (List.pairwise_append.1 h.sorted.of_cons).1).2.1
  cases ls with
  | nil => simp at ha
  | cons k ls =>
    have hk := hroute.2 k rfl
    rcases List.mem_cons.1 ha with rfl | ha
    · exact UInt64.lt_of_lt_of_le hk hle
    · exact UInt64.lt_of_lt_of_le hk
        (UInt64.le_trans (List.rel_of_pairwise_cons hsorted ha) hle)

/-- A branch stays as it is when only the pages of a child and new ones are written. -/
theorem Shape.On.with_kid {p : PageNo} {keys : List UInt64} {cs ds : List Shape} {c c' : Shape}
    (h : (Shape.branch p keys (cs ++ c :: ds)).On P)
    (hd : ((Shape.branch p keys (cs ++ c :: ds)).pages ++ fs).Nodup)
    (hws : ∀ w ∈ ws, w.1 ∈ c.pages ++ fs) (hpage : c'.page = c.page) (hc : c'.On (P.write ws)) :
    (Shape.branch p keys (cs ++ c' :: ds)).On (P.write ws) := by
  obtain ⟨htop, hkids⟩ := Shape.on_branch.1 h
  obtain ⟨⟨hp, -⟩, -, hother⟩ := Shape.distinct_cut hd
  refine Shape.on_branch.2 ⟨?_, ?_⟩
  · rw [Pages.write_other fun w hw he => hp (by rw [← he]; exact hws w hw), htop]
    simp [hpage]
  · intro x hx
    have hold : x ∈ cs ++ ds → x.On (P.write ws) := by
      intro hmem
      refine (hkids x ?_).write fun w hw hq => hother x hmem _ hq (hws w hw)
      rcases List.mem_append.1 hmem with hmem | hmem <;> simp [hmem]
    rcases List.mem_append.1 hx with hx | hx
    · exact hold (List.mem_append_left _ hx)
    rcases List.mem_cons.1 hx with rfl | hx
    · exact hc
    · exact hold (List.mem_append_right _ hx)

namespace Stopped

theorem written (h : Stopped e s fs kept held ws) : ∀ w ∈ ws, w.1 ∈ s.pages ++ fs := by
  have hkid : ∀ {p : PageNo} {keys : List UInt64} {cs ds : List Shape} {c : Shape}
      {fs : List PageNo} {w : PageNo × Node}, w.1 ∈ c.pages ++ fs →
      w.1 ∈ (Shape.branch p keys (cs ++ c :: ds)).pages ++ fs := by
    intro p keys cs ds c fs w hw
    rcases List.mem_append.1 hw with hw | hw <;> simp [hw]
  induction h with
  | leaf => simp
  | branch _ _ hchild => exact fun w hw => hkid (hchild.written w hw)
  | inside _ _ _ ih => exact fun w hw => hkid (ih w hw)

/-- The root is not written: the call has stopped below it, or has written nothing. -/
theorem root_unwritten (h : Stopped e s fs kept held ws) (hd : (s.pages ++ fs).Nodup) :
    ∀ w ∈ ws, w.1 ≠ s.page := by
  intro w hw he
  cases h with
  | leaf => simp at hw
  | branch _ _ hchild =>
    rw [Shape.page_branch] at he
    exact (Shape.distinct_cut hd).1.1 (he ▸ hchild.written w hw)
  | inside _ _ hchild =>
    rw [Shape.page_branch] at he
    exact (Shape.distinct_cut hd).1.1 (he ▸ hchild.written w hw)

/-- The handle has the entries that the tree would have had. -/
theorem entries (h : Stopped e s fs kept held ws) (hs : s.On P) :
    held.entries = s.entriesWith e := by
  induction h with
  | leaf => simp
  | branch hlen hroute hchild =>
    have hhalves := hchild.entries (by simp) ((Shape.on_branch.1 hs).2 _ (by simp))
    simp only [Growth.trees, List.flatMap_cons, List.flatMap_nil, List.append_nil] at hhalves
    rw [Shape.entriesWith_branch hlen hroute, ← hhalves]
    simp
  | inside hlen hroute _ ih =>
    rw [Shape.entriesWith_branch hlen hroute, ← ih ((Shape.on_branch.1 hs).2 _ (by simp))]
    simp

theorem lastFound (h : Stopped e s fs kept held ws) (hs : s.On P) (hordered : s.Ordered lo hi)
    (hkey : key ≠ e.key) : lastFound key held.leaves = lastFound key s.leaves := by
  induction h generalizing lo hi with
  | leaf => simp [Leaf.get?_insert_of_ne _ hkey]
  | @branch p ks ls cs ds a b c mid fs ws hlen hroute hchild =>
    obtain ⟨x, y, -, -, hc⟩ := (Shape.ordered_branch.1 hordered).mem (c := c) (by simp)
    have hhalves := hchild.lastFound (by simp) ((Shape.on_branch.1 hs).2 c (by simp)) hc hkey
    simp only [Growth.trees, List.flatMap_cons, List.flatMap_nil, List.append_nil,
      lastFound_append] at hhalves
    simp [← hhalves, Option.or_assoc]
  | @inside p ks ls cs ds c kept held fs ws hlen hroute _ ih =>
    obtain ⟨x, y, -, -, hc⟩ := (Shape.ordered_branch.1 hordered).mem (c := c) (by simp)
    simp [ih ((Shape.on_branch.1 hs).2 c (by simp)) hc]

theorem kept_pages (h : Stopped e s fs kept held ws) : kept.pages.Sublist held.pages := by
  induction h with
  | leaf => simp
  | branch => simp
  | inside _ _ _ ih => simpa using ih

theorem kept_on (h : Stopped e s fs kept held ws) (hs : s.On P) (hd : (s.pages ++ fs).Nodup) :
    kept.On (P.write ws) := by
  induction h with
  | leaf => exact hs
  | @branch p ks ls cs ds a b c mid fs ws _ _ hchild =>
    have hc := (Shape.distinct_cut hd).2.1
    have ha := hchild.on ((Shape.on_branch.1 hs).2 c (by simp)) hc a (by simp [Growth.trees])
    exact hs.with_kid hd hchild.written (hchild.page a rfl) ha
  | @inside p ks ls cs ds c kept held fs ws _ _ hchild ih =>
    have hc := (Shape.distinct_cut hd).2.1
    have hkept := ih ((Shape.on_branch.1 hs).2 c (by simp)) hc
    exact hs.with_kid hd hchild.written hchild.page.1 hkept

/-- Either nothing has been written, or the leaves of a right half are missing. -/
theorem cut (h : Stopped e s fs kept held ws) (hordered : s.Ordered lo hi) :
    (ws = [] ∧ kept = s ∧ PagedTree.lastFound e.key held.leaves = some e.value) ∨
      (ws ≠ [] ∧ ∃ xs gone ys, held.leaves = xs ++ (gone ++ ys) ∧ kept.leaves = xs ++ ys) := by
  induction h generalizing lo hi with
  | leaf => exact .inl ⟨rfl, rfl, by simp [Leaf.get?_insert_self]⟩
  | @branch p ks ls cs ds a b c mid fs ws _ _ hchild =>
    exact .inr ⟨List.ne_nil_of_mem hchild.left_written,
      cs.flatMap Shape.leaves ++ a.leaves, b.leaves, ds.flatMap Shape.leaves, by simp, by simp⟩
  | @inside p ks ls cs ds c kept held fs ws hlen hroute _ ih =>
    have hbetween := Shape.ordered_branch.1 hordered
    obtain ⟨x, y, -, -, hc⟩ := hbetween.mem (c := c) (by simp)
    rcases ih hc with ⟨rfl, rfl, hfound⟩ | ⟨hne, xs, gone, ys, hheld, hkept⟩
    · refine .inl ⟨rfl, rfl, ?_⟩
      have hbehind : PagedTree.lastFound e.key (ds.flatMap Shape.leaves) = none := by
        rw [lastFound_eq_none]
        intro x hx he
        have hassoc : (ds.flatMap Shape.leaves).flatMap (·.2.entries) = ds.flatMap Shape.entries :=
          List.flatMap_assoc
        have hlt := Shape.lt_of_routed hlen hroute hbetween x (hassoc ▸ hx)
        rw [he] at hlt
        exact UInt64.lt_irrefl _ hlt
      simp [hfound, hbehind]
    · exact .inr ⟨hne, cs.flatMap Shape.leaves ++ xs, gone, ys ++ ds.flatMap Shape.leaves,
        by simp [hheld], by simp [hkept]⟩

end Stopped

/-- A root that has split has its left half on its page: a leaf that leads to the new one, or a branch
with fewer keys. -/
theorem Inserted.left_ne {a b : Shape} {mid : UInt64} (h : Inserted e s fs (.halves a mid b) ws)
    (hs : s.Stands P) (hfs : ∀ f ∈ fs, P f = none) : a.node ≠ s.node := by
  intro hnode
  cases h with
  | @leaf p l fs _ ws hleaf =>
    cases hleaf with
    | @splits q a b _ _ hsplit =>
      simp only [Shape.node, NodeOf.leaf.injEq] at hnode
      have hnext : l.next = some q := hnode ▸ (Leaf.entries_split? hsplit).2.1
      obtain ⟨n, hn⟩ := hs.reachable_node (hs.on.reachable (Shape.mem_reach_leaf.2 (.inr hnext)))
      rw [hfs q List.mem_cons_self] at hn
      cases hn
  | @branch p ks ls cs ds c fs gs g _ ws vs _ _ _ habs =>
    cases habs with
    | @splits x y q key _ lks rks lcs rcs hkeys _ _ _ _ _ hrks =>
      simp only [Shape.node, NodeOf.branch.injEq, Branch.mk.injEq] at hnode
      have hlen := congrArg List.length hkeys
      have hrpos := List.length_pos_iff.2 hrks
      rw [hnode.1] at hlen
      simp only [List.length_append, List.length_cons] at hlen
      omega

/-- The tree that the file keeps is on the root page, without its chain. -/
structure Left (s : Shape) (P : Pages) (kept : Shape) : Prop where
  page : kept.page = s.page
  on : kept.On P
  distinct : kept.pages.Nodup
  ordered : ∃ lo hi, kept.Ordered lo hi

theorem Insertion.left (h : Insertion e s fs (.stopped kept held) ws) (hs : s.Stands P)
    (hfs : ∀ f ∈ fs, P f = none) (hd : fs.Nodup) : Left s (P.write ws) kept := by
  have hall := hs.distinct_append hfs hd
  cases h with
  | stopped h =>
    have hst := h.stopped
    exact ⟨hst.page.1, hst.kept_on hs.on hall, (hst.pages.symm.nodup hall).sublist hst.kept_pages,
      0, topKey, (hst.ordered hs.ordered UInt64.zero_le (le_topKey e.key)).1⟩
  | @full fs _ b mid ws h =>
    have hhalves := h.ordered (by simp) hs.ordered UInt64.zero_le (le_topKey e.key)
    have hpages := h.pages (by simp)
    simp only [Growth.trees, List.flatMap_cons, List.flatMap_nil, List.append_nil] at hpages
    exact ⟨h.page kept rfl, h.on hs.on hall kept (by simp [Growth.trees]),
      (List.nodup_append.1 (hpages.symm.nodup hall)).1, 0, mid, hhalves.2.1⟩

end

end PagedTree
