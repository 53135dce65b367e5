import PagedTree.Proofs.Occupancy
import PagedTree.Proofs.Stranding

/-! # Entries that are added at the end

A tree that only takes in entries at its end has no empty leaf, unless it is a leaf itself. When such an
insertion finds no page after a leaf has been split on the file, the file keeps a tree without its last
entries, while the links still lead to all of them.
-/
namespace PagedTree

namespace Shape

/-- Only a tree that is a leaf may be empty. -/
def Dense (s : Shape) : Prop := (∃ p l, s = .leaf p l) ∨ ∀ x ∈ s.leaves, x.2.entries ≠ []

variable {s c : Shape} {p m : PageNo} {keys : List UInt64} {kids : List Shape} {lo hi : UInt64}

theorem Dense.leaf (p : PageNo) (l : Leaf) : (Shape.leaf p l).Dense := .inl ⟨p, l, rfl⟩

theorem Dense.kid (h : (branch p keys kids).Dense) (hc : c ∈ kids) :
    ∀ x ∈ c.leaves, x.2.entries ≠ [] := by
  rcases h with ⟨q, l, he⟩ | hall
  · cases he
  · intro x hx
    apply hall
    rw [leaves_branch]
    exact List.mem_flatMap.2 ⟨c, hc, hx⟩

theorem Ordered.entries_ne_nil (h : s.Ordered lo hi) (hs : ∀ x ∈ s.leaves, x.2.entries ≠ []) :
    s.entries ≠ [] := by
  induction s using induct generalizing lo hi with
  | leaf p l =>
    rw [entries_leaf]
    exact hs (p, l) (by simp)
  | branch p keys kids ih =>
    have hlen := h.separated.1
    cases kids with
    | nil => simp at hlen
    | cons c cs =>
      obtain ⟨a, b, -, -, hc⟩ := (ordered_branch.1 h).mem (c := c) List.mem_cons_self
      have hne := ih c List.mem_cons_self hc fun x hx => hs x (by simp [hx])
      simp [hne]

theorem exists_of_mem_moveTo {x : PageNo × Leaf} (h : x ∈ (s.moveTo m).leaves) :
    ∃ y ∈ s.leaves, y.2 = x.2 := by
  cases s with
  | leaf p l =>
    obtain rfl : x = (m, l) := by simpa [moveTo] using h
    exact ⟨(p, l), by simp, rfl⟩
  | branch p keys kids => exact ⟨x, by simpa [moveTo] using h, rfl⟩

end Shape

variable {e : Entry} {s s' kept held : Shape} {fs : List PageNo} {g : Growth}
  {ws : List (PageNo × Node)} {P : Pages} {lo hi : UInt64}

theorem LeafInserted.nonempty {p : PageNo} {l : Leaf} (h : LeafInserted e p l fs g ws) :
    ∀ x ∈ g.trees.flatMap Shape.leaves, x.2.entries ≠ [] := by
  intro x hx
  obtain ⟨t, ht, hx⟩ := List.mem_flatMap.1 hx
  exact h.solid t ht _ (Shape.mem_parts_of_mem_leaves hx)

theorem Inserted.nonempty (h : Inserted e s fs g ws) (hs : s.Dense) :
    ∀ x ∈ g.trees.flatMap Shape.leaves, x.2.entries ≠ [] := by
  induction h with
  | leaf h => exact h.nonempty
  | full => simp [Growth.trees]
  | @branch p ks ls cs ds c fs gs g g' ws vs _ _ _ habs ih =>
    rcases g'.going_or_stopped with hg | ⟨kept, held, rfl⟩
    case inr => simp [Growth.trees]
    rw [habs.leaves hg]
    intro x hx
    obtain ⟨t, ht, hx⟩ := List.mem_flatMap.1 hx
    rcases List.mem_append.1 ht with ht | ht
    · exact hs.kid (by simp [ht]) x hx
    rcases List.mem_append.1 ht with ht | ht
    · exact ih (.inr (hs.kid (by simp))) x (List.mem_flatMap.2 ⟨t, ht, hx⟩)
    · exact hs.kid (by simp [ht]) x hx

theorem Insertion.dense (h : Insertion e s fs (.whole s') ws) (hs : s.Dense) : s'.Dense := by
  cases h with
  | whole h => exact .inr (by simpa [Growth.trees] using h.nonempty hs)
  | @raised fs a b key m ws h =>
    have hhalves := h.nonempty hs
    simp only [Growth.trees, List.flatMap_cons, List.flatMap_nil, List.append_nil] at hhalves
    refine .inr fun x hx => ?_
    simp only [Shape.leaves_branch, List.flatMap_cons, List.flatMap_nil, List.append_nil] at hx
    rcases List.mem_append.1 hx with hx | hx
    · obtain ⟨y, hy, he⟩ := Shape.exists_of_mem_moveTo hx
      exact he ▸ hhalves y (List.mem_append_left _ hy)
    · exact hhalves x (List.mem_append_right _ hx)

/-- The tree that the file keeps ends early. -/
structure CutOff (e : Entry) (s kept : Shape) : Prop where
  nonempty : ∀ x ∈ kept.leaves, x.2.entries ≠ []
  lost : ∃ es, es ≠ [] ∧ s.entriesWith e = kept.entries ++ es

theorem CutOff.getLast?_ne_none (h : CutOff e s kept) (hordered : kept.Ordered lo hi) :
    kept.leaves.getLast?.bind (·.2.keys.getLast?) ≠ none := by
  intro hnone
  rcases List.eq_nil_or_concat kept.leaves with hnil | ⟨ls, x, hlast⟩
  · apply hordered.entries_ne_nil h.nonempty
    rw [Shape.entries_eq, hnil, List.flatMap_nil]
  · rw [List.concat_eq_append] at hlast
    rw [hlast, List.getLast?_concat, Option.bind_some, Leaf.keys, List.getLast?_map,
      Option.map_eq_none_iff, List.getLast?_eq_none_iff] at hnone
    exact h.nonempty x (by simp [hlast]) hnone

theorem Inserted.cutOff {a b : Shape} {key : UInt64} (h : Inserted e s fs (.halves a key b) ws)
    (hs : s.On P) (hordered : s.Ordered lo hi) (hlo : lo ≤ e.key) (hhi : e.key ≤ hi)
    (hdense : s.Dense) : CutOff e s a := by
  have hhalves := h.ordered (by simp) hordered hlo hhi
  have hnonempty := h.nonempty hdense
  have hentries := h.entries (by simp) hs
  simp only [Growth.trees, List.flatMap_cons, List.flatMap_nil, List.append_nil] at hnonempty hentries
  refine ⟨fun x hx => hnonempty x (List.mem_append_left _ hx), b.entries, ?_, hentries.symm⟩
  exact hhalves.2.2.2.entries_ne_nil fun x hx => hnonempty x (List.mem_append_right _ hx)

/-- Where a last entry goes, nothing stands behind the child that it is routed to. -/
theorem CutOff.kid {p : PageNo} {ks ls : List UInt64} {cs ds : List Shape} {c : Shape}
    (h : CutOff e c kept) (hlen : cs.length = ks.length) (hroute : Routed e.key ks ls)
    (hordered : Shape.Ordered lo hi (.branch p (ks ++ ls) (cs ++ c :: ds)))
    (hdense : (Shape.branch p (ks ++ ls) (cs ++ c :: ds)).Dense)
    (hlast : ∀ x ∈ (Shape.branch p (ks ++ ls) (cs ++ c :: ds)).entries, x.key < e.key) :
    CutOff e (.branch p (ks ++ ls) (cs ++ c :: ds)) (.branch p (ks ++ ls) (cs ++ kept :: ds)) := by
  have hbehind : ds.flatMap Shape.entries = [] := by
    rw [List.eq_nil_iff_forall_not_mem]
    intro x hx
    have hlt := Shape.lt_of_routed hlen hroute (Shape.ordered_branch.1 hordered) x hx
    have hgt := hlast x (by simp only [Shape.entries_branch, List.flatMap_append, List.flatMap_cons,
      List.mem_append, hx, or_true])
    exact UInt64.lt_irrefl _ (UInt64.lt_trans hlt hgt)
  obtain ⟨es, hne, hes⟩ := h.lost
  refine ⟨?_, es, hne, ?_⟩
  · intro x hx
    rw [Shape.leaves_branch] at hx
    obtain ⟨t, ht, hxt⟩ := List.mem_flatMap.1 hx
    rcases List.mem_append.1 ht with ht | ht
    · exact hdense.kid (by simp [ht]) x hxt
    rcases List.mem_cons.1 ht with rfl | ht
    · exact h.nonempty x hxt
    · exact hdense.kid (by simp [ht]) x hxt
  · rw [Shape.entriesWith_branch hlen hroute, hes, hbehind]
    simp [hbehind]

theorem Stopped.cutOff (h : Stopped e s fs kept held ws) (hs : s.On P) (hordered : s.Ordered lo hi)
    (hlo : lo ≤ e.key) (hhi : e.key ≤ hi) (hdense : s.Dense)
    (hlast : ∀ x ∈ s.entries, x.key < e.key) (hws : ws ≠ []) : CutOff e s kept := by
  induction h generalizing lo hi with
  | leaf => exact absurd rfl hws
  | @branch p ks ls cs ds a b c mid fs ws hlen hroute hchild =>
    obtain ⟨x, y, hx, hy, hc, -⟩ :=
      Shape.between_routed hlen hroute (Shape.ordered_branch.1 hordered) hlo hhi
    have hcut := hchild.cutOff ((Shape.on_branch.1 hs).2 c (by simp)) hc hx hy
      (.inr (hdense.kid (by simp)))
    exact hcut.kid hlen hroute hordered hdense hlast
  | @inside p ks ls cs ds c kept held fs ws hlen hroute _ ih =>
    obtain ⟨x, y, hx, hy, hc, -⟩ :=
      Shape.between_routed hlen hroute (Shape.ordered_branch.1 hordered) hlo hhi
    have hcut := ih ((Shape.on_branch.1 hs).2 c (by simp)) hc hx hy (.inr (hdense.kid (by simp)))
      (fun z hz => hlast z (by simp [hz])) hws
    exact hcut.kid hlen hroute hordered hdense hlast

/-- If something has been written the file keeps less than there was. -/
theorem Insertion.cutOff (h : Insertion e s fs (.stopped kept held) ws) (hs : s.Stands P)
    (hdense : s.Dense) (hlast : ∀ x ∈ s.entries, x.key < e.key) (hws : ws ≠ []) :
    CutOff e s kept := by
  cases h with
  | stopped h =>
    exact h.stopped.cutOff hs.on hs.ordered UInt64.zero_le (le_topKey e.key) hdense hlast hws
  | full h => exact h.cutOff hs.on hs.ordered UInt64.zero_le (le_topKey e.key) hdense

/-- The links lead to all entries by then. -/
theorem Insertion.scans_all (h : Insertion e s fs (.stopped kept held) ws) (hs : s.Stands P)
    (hfs : ∀ f ∈ fs, P f = none) (hd : fs.Nodup) (hws : ws ≠ []) :
    Scans (P.write ws) s.page (s.entriesWith e) := by
  have hbelow : ∀ {g : Growth}, Inserted e s fs g ws →
      Scans (P.write ws) s.page (s.entriesWith e) := by
    intro g hins
    obtain ⟨as, p, l, bs, hleaves, hentries, hreach⟩ := hins.reaches hs.on
    rw [hentries]
    exact hreach.scans_all hs hleaves hfs hd hws
  cases h with
  | stopped hins | full hins => exact hbelow hins

end PagedTree
