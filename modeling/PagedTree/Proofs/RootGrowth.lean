import PagedTree.Proofs.InsertionChain

/-! # Insertions with the growth of the root

When the root splits, its left half is copied to a page that nothing leads to yet, and the root page
is then written over with a branch. So the tree stays on its root page, and the scan is right at
every moment. A tree that has taken an entry in stands as it did before.
-/
namespace PagedTree

namespace Shape

/-- The same tree with its top on page `m`. -/
def moveTo (m : PageNo) : Shape → Shape
  | leaf _ l => leaf m l
  | branch _ keys kids => branch m keys kids

variable {m : PageNo} {s : Shape}

@[simp] theorem page_moveTo : (s.moveTo m).page = m := by cases s <;> rfl

@[simp] theorem entries_moveTo : (s.moveTo m).entries = s.entries := by
  cases s <;> simp [moveTo]

@[simp] theorem pages_moveTo : (s.moveTo m).pages = m :: s.pages.tail := by
  cases s <;> simp [moveTo]

theorem Ordered.moveTo {lo hi : UInt64} (h : s.Ordered lo hi) : (s.moveTo m).Ordered lo hi := by
  cases s with
  | leaf p l => exact ordered_leaf.2 (ordered_leaf.1 h)
  | branch p keys kids => exact ordered_branch.2 (ordered_branch.1 h)

theorem Small.moveTo (h : s.Small) : (s.moveTo m).Small := by
  cases s with
  | leaf p l => exact small_leaf.2 (small_leaf.1 h)
  | branch p keys kids => exact small_branch.2 (small_branch.1 h)

theorem On.moveTo {P Q : Pages} (h : s.On P) (hm : Q m = some s.node)
    (hPQ : ∀ q ∈ s.pages.tail, Q q = P q) : (s.moveTo m).On Q := by
  cases s with
  | leaf p l => exact on_leaf.2 hm
  | branch p keys kids =>
    refine on_branch.2 ⟨hm, ?_⟩
    intro c hc
    refine ((on_branch.1 h).2 c hc).congr fun q hq => hPQ q ?_
    rw [pages_branch, List.tail_cons]
    exact List.mem_flatMap.2 ⟨c, hc, hq⟩

end Shape

/-- What inserting an entry makes of the tree on a root page. A root that has split and finds no page
for its left half is left without its right half. -/
inductive Insertion (e : Entry) (s : Shape) :
    List PageNo → Growth → List (PageNo × Node) → Prop where
  | whole {fs : List PageNo} {s' : Shape} {ws : List (PageNo × Node)} :
      Inserted e s fs (.whole s') ws → Insertion e s fs (.whole s') ws
  | raised {fs : List PageNo} {a b : Shape} {key : UInt64} {m : PageNo}
      {ws : List (PageNo × Node)} : Inserted e s fs (.halves a key b) ws →
      Insertion e s (fs ++ [m]) (.whole (.branch s.page [key] [a.moveTo m, b]))
        (ws ++ [(m, a.node), (s.page, .branch ⟨[key], [m, b.page]⟩)])
  | stopped {fs : List PageNo} {kept held : Shape} {ws : List (PageNo × Node)} :
      Inserted e s fs (.stopped kept held) ws → Insertion e s fs (.stopped kept held) ws
  | full {fs : List PageNo} {a b : Shape} {key : UInt64} {ws : List (PageNo × Node)} :
      Inserted e s fs (.halves a key b) ws → Insertion e s fs (.stopped a a) ws

section
variable {e : Entry} {s s' : Shape} {fs : List PageNo} {g : Growth} {ws : List (PageNo × Node)}
  {P : Pages}

theorem Insertion.page (h : Insertion e s fs (.whole s') ws) : s'.page = s.page := by
  cases h with
  | whole h => exact h.page s' rfl
  | raised h => rfl

/-- A leaf that stays below the order takes the entry in without another page. -/
theorem Insertion.roomy {p : PageNo} {l : Leaf} (h : Insertion e (.leaf p l) fs g ws)
    (hroom : l.entries.length + 1 < order) : g = .whole (.leaf p (l.insert e)) ∧ fs = [] := by
  have hfit : ¬(l.insert e).isFull = true := by
    rw [Leaf.isFull, decide_eq_true_eq, Leaf.length_insert]
    exact Nat.not_le.2 hroom
  cases h with
  | whole h =>
    cases h with
    | leaf h =>
      cases h
      exact ⟨rfl, rfl⟩
  | raised h | full h =>
    cases h with
    | leaf h =>
      cases h with
      | splits hfull => exact absurd hfull hfit
  | stopped h =>
    cases h with
    | leaf h => cases h
    | full hfull => exact absurd hfull hfit

/-- A root leaf that has to split asks for two pages. With one to be had it is split on the file, and with
none it stays as it was. -/
theorem Insertion.of_full_leaf {p : PageNo} {l : Leaf} (h : Insertion e (.leaf p l) fs g ws)
    (hfull : (l.insert e).isFull = true) : (∃ s', g = .whole s' ∧ fs.length = 2) ∨
      (∃ q a mid b, (l.insert e).split? q = some (a, mid, b) ∧
        g = .stopped (.leaf p a) (.leaf p a) ∧ fs.length = 1 ∧ ws ≠ []) ∨
      g = .stopped (.leaf p l) (.leaf p (l.insert e)) ∧ fs = [] ∧ ws = [] := by
  cases h with
  | whole h =>
    cases h with
    | leaf h =>
      cases h with
      | fits hfits => exact absurd hfull (by simp [hfits])
  | raised h =>
    cases h with
    | leaf h =>
      cases h
      exact .inl ⟨_, rfl, rfl⟩
  | stopped h =>
    cases h with
    | leaf h => cases h
    | full => exact .inr (.inr ⟨rfl, rfl, rfl⟩)
  | full h =>
    cases h with
    | leaf h =>
      cases h with
      | splits _ hsplit => exact .inr (.inl ⟨_, _, _, _, hsplit, rfl, rfl, List.cons_ne_nil _ _⟩)

theorem Reaches.entries {p : PageNo} {l : Leaf} {as bs : List (PageNo × Leaf)}
    (h : Reaches P e p l as bs fs g ws) (hg : g.Going) :
    g.trees.flatMap Shape.entries =
      as.flatMap (·.2.entries) ++ ((l.insert e).entries ++ bs.flatMap (·.2.entries)) := by
  cases h with
  | nothing => simp at hg
  | leaf hleaf _ hrow =>
    have hassoc : (g.trees.flatMap Shape.leaves).flatMap (·.2.entries) =
        g.trees.flatMap Shape.entries := List.flatMap_assoc
    rw [← hassoc, hrow hg, List.flatMap_append, List.flatMap_append, hleaf.entries]

theorem Inserted.entries (h : Inserted e s fs g ws) (hg : g.Going) (hs : s.On P) :
    g.trees.flatMap Shape.entries = s.entriesWith e := by
  obtain ⟨as, p, l, bs, -, hentries, hreach⟩ := h.reaches hs
  rw [hreach.entries hg, hentries]

theorem Insertion.entries (h : Insertion e s fs (.whole s') ws) (hs : s.On P) :
    s'.entries = s.entriesWith e := by
  cases h with
  | whole h => simpa [Growth.trees] using h.entries (by simp) hs
  | raised h => simpa [Growth.trees] using h.entries (by simp) hs

/-- What is left after an insertion below the root, before a new root joins it. -/
theorem Inserted.parts (h : Inserted e s fs g ws) (hg : g.Going) (hs : s.Stands P)
    (hfs : ∀ f ∈ fs, P f = none) (hd : fs.Nodup) (he : e.value.size ≤ Tree.maxValueSize) :
    (∀ t ∈ g.trees, t.On (P.write ws)) ∧ (g.trees.flatMap Shape.pages).Nodup ∧
      Between Shape.Ordered 0 g.keys g.trees topKey ∧ (∀ t ∈ g.trees, t.Small) ∧
      Chained (P.write ws) (g.trees.flatMap Shape.leaves) ∧
      g.trees.flatMap Shape.entries = s.entriesWith e := by
  have hall := hs.distinct_append hfs hd
  obtain ⟨as, p, l, bs, hleaves, -, hreach⟩ := h.reaches hs.on
  have hp : P p = some (.leaf l) := hs.on.leaf (x := (p, l)) (by simp [hleaves])
  refine ⟨h.on hs.on hall, (h.pages hg).symm.nodup hall, ?_, h.small hs.small he, ?_,
    h.entries hg hs.on⟩
  · exact h.ordered hg hs.ordered (UInt64.zero_le) (le_topKey e.key)
  · exact hreach.chained hg (hleaves ▸ hs.chained) hp hfs hd

/-- Only a root that is a leaf is on the chain, and then its copy takes its place there. -/
theorem Chained.raised {Q R : Pages} {a : Shape} {m : PageNo} {xs : List (PageNo × Leaf)}
    (h : Chained Q (a.leaves ++ xs)) (ha : a.On Q) (hm : Q m = none) (hcopy : R m = some a.node)
    (hkeep : ∀ q, q ≠ m → q ≠ a.page → R q = Q q) : Chained R ((a.moveTo m).leaves ++ xs) := by
  cases a with
  | leaf p l =>
    have hleaves : ((Shape.leaf p l).moveTo m).leaves = [(m, l)] := by simp [Shape.moveTo]
    rw [hleaves]
    apply Chained.move (by simpa using h) hcopy
    intro q k hq hk
    exact (hkeep q (fun he => by simp [he, hm] at hk) hq).trans hk
  | branch p keys kids =>
    have hp := (Shape.on_branch.1 ha).1
    have hleaves : ((Shape.branch p keys kids).moveTo m).leaves =
        (Shape.branch p keys kids).leaves := by simp [Shape.moveTo]
    rw [hleaves]
    apply h.mono
    intro q k hk
    rw [← hk]
    apply hkeep q
    · rintro rfl
      simp [hm] at hk
    · rintro rfl
      simp [hp] at hk

/-- Two halves of a tree under a new root, the left one copied to a page of its own. -/
theorem stands_raised {Q : Pages} {a b : Shape} {key : UInt64} {m : PageNo} (ha : a.On Q)
    (hb : b.On Q) (hd : (m :: (a.pages ++ b.pages)).Nodup) (hm : Q m = none)
    (hrow : Between Shape.Ordered 0 [key] [a, b] topKey) (hasmall : a.Small) (hbsmall : b.Small)
    (hchained : Chained Q (a.leaves ++ b.leaves)) :
    (Shape.branch a.page [key] [a.moveTo m, b]).Stands
      ((Q.set m a.node).set a.page (.branch ⟨[key], [m, b.page]⟩)) := by
  obtain ⟨hmnew, hab⟩ := List.nodup_cons.1 hd
  have hroot : a.page ∉ a.pages.tail ++ b.pages := by
    rw [Shape.pages_eq, List.cons_append] at hab
    exact (List.nodup_cons.1 hab).1
  have hne : m ≠ a.page := fun he => hmnew (List.mem_append_left _ (he ▸ a.page_mem_pages))
  have hcopy : ((Q.set m a.node).set a.page (.branch ⟨[key], [m, b.page]⟩)) m = some a.node := by
    rw [Pages.set_other _ hne, Pages.set_same]
  have hkeep : ∀ q, q ≠ m → q ≠ a.page →
      ((Q.set m a.node).set a.page (.branch ⟨[key], [m, b.page]⟩)) q = Q q := by
    intro q hqm hqa
    rw [Pages.set_other _ hqa, Pages.set_other _ hqm]
  have hrest : ∀ q ∈ a.pages.tail ++ b.pages,
      ((Q.set m a.node).set a.page (.branch ⟨[key], [m, b.page]⟩)) q = Q q := by
    intro q hq
    refine hkeep q (fun he => hmnew ?_) fun he => hroot (he ▸ hq)
    rw [Shape.pages_eq, List.cons_append, ← he]
    exact List.mem_cons_of_mem _ hq
  refine ⟨?_, ?_, ?_, ?_, ?_⟩
  · refine Shape.on_branch.2 ⟨by simp, ?_⟩
    simp only [List.mem_cons, List.not_mem_nil, or_false, forall_eq_or_imp, forall_eq]
    exact ⟨ha.moveTo hcopy fun q hq => hrest q (List.mem_append_left _ hq),
      hb.congr fun q hq => hrest q (List.mem_append_right _ hq)⟩
  · rw [Shape.pages_eq a, List.cons_append] at hd
    simpa using (List.Perm.swap a.page m (a.pages.tail ++ b.pages)).nodup hd
  · exact Shape.ordered_branch.2 ⟨hrow.1, hrow.2.1.moveTo, hrow.2.2⟩
  · simp [hasmall.moveTo, hbsmall, order]
  · have hleaves : (Shape.branch a.page [key] [a.moveTo m, b]).leaves =
        (a.moveTo m).leaves ++ b.leaves := by simp
    rw [hleaves]
    exact hchained.raised ha hm hcopy hkeep

/-- The tree is on its root page again, with the new entry in it. -/
theorem Insertion.stands (h : Insertion e s fs (.whole s') ws) (hs : s.Stands P)
    (hfs : ∀ f ∈ fs, P f = none) (hd : fs.Nodup) (he : e.value.size ≤ Tree.maxValueSize) :
    s'.Stands (P.write ws) ∧ s'.page = s.page ∧ s'.entries = s.entriesWith e := by
  cases h with
  | whole h =>
    obtain ⟨hon, hpages, hordered, hsmall, hchained, hentries⟩ :=
      h.parts (by simp) hs hfs hd he
    simp only [Growth.trees, Growth.keys, List.mem_singleton, forall_eq, List.flatMap_cons,
      List.flatMap_nil, List.append_nil, Between.singleton] at *
    exact ⟨⟨hon, hpages, hordered.2, hsmall, hchained⟩, h.page s' rfl, hentries⟩
  | @raised fs a b key m ws h =>
    have hfs' : ∀ f ∈ fs, P f = none := fun f hf => hfs f (List.mem_append_left _ hf)
    obtain ⟨hdfs, -, hnew⟩ := List.nodup_append.1 hd
    obtain ⟨hon, hpages, hordered, hsmall, hchained, hentries⟩ :=
      h.parts (by simp) hs hfs' hdfs he
    have hapage : a.page = s.page := h.page a rfl
    have hperm := h.pages (by simp)
    simp only [Growth.trees, Growth.keys, List.mem_cons, List.not_mem_nil, or_false,
      forall_eq_or_imp, forall_eq, List.flatMap_cons, List.flatMap_nil, List.append_nil] at *
    have hm : P.write ws m = none := by
      rw [Pages.write_other, hfs m (by simp)]
      rintro w hw rfl
      rcases List.mem_append.1 (h.written w hw) with hmem | hmem
      · obtain ⟨t, ht, he⟩ := List.mem_map.1 hmem
        have hfresh := hfs w.1 (by simp)
        rw [← he, hs.on t ht] at hfresh
        cases hfresh
      · exact hnew _ hmem rfl
    have hmnew : m ∉ a.pages ++ b.pages := by
      intro hmem
      rcases List.mem_append.1 hmem with hmem | hmem
      · obtain ⟨t, ht, rfl⟩ := List.mem_map.1 hmem
        simp [hon.1 t ht] at hm
      · obtain ⟨t, ht, rfl⟩ := List.mem_map.1 hmem
        simp [hon.2 t ht] at hm
    have hstands := stands_raised hon.1 hon.2 (List.nodup_cons.2 ⟨hmnew, hpages⟩) hm hordered
      hsmall.1 hsmall.2 hchained
    rw [hapage] at hstands
    rw [Pages.write_append]
    exact ⟨hstands, rfl, by simpa using hentries⟩

theorem Reaches.more {p : PageNo} {l : Leaf} {as bs : List (PageNo × Leaf)}
    (h : Reaches P e p l as bs fs g ws) (hg : g.Going) (m : PageNo) (n : Node)
    (kept held : Shape) :
    Reaches P e p l as bs (fs ++ [m]) (.stopped kept held) (ws ++ [(m, n)]) := by
  cases h with
  | nothing => simp at hg
  | leaf hleaf hkeeps hrow =>
    rw [List.append_assoc, List.append_assoc]
    refine .leaf hleaf ?_ (by simp)
    intro v hv
    rcases List.mem_append.1 hv with hv | hv
    · exact (hkeeps v hv).imp_left (List.mem_append_left _)
    · rw [List.mem_singleton.1 hv]
      exact .inl (by simp)

/-- Wherever the writes of an insertion end, a scan shows the entries as they were or with the new
one. -/
theorem Insertion.scans (h : Insertion e s fs g ws) (hs : s.Stands P)
    (hfs : ∀ f ∈ fs, P f = none) (hd : fs.Nodup) (he : e.value.size ≤ Tree.maxValueSize)
    {pre post : List (PageNo × Node)} (hcut : ws = pre ++ post) :
    Scans (P.write pre) s.page s.entries ∨ Scans (P.write pre) s.page (s.entriesWith e) := by
  have hbelow : ∀ {g : Growth}, Inserted e s fs g ws →
      Scans (P.write pre) s.page s.entries ∨ Scans (P.write pre) s.page (s.entriesWith e) := by
    intro g hins
    obtain ⟨as, p, l, bs, hleaves, hentries, hreach⟩ := hins.reaches hs.on
    rw [hentries]
    exact hreach.scans hs hleaves hfs hd hcut
  cases h with
  | whole hins => exact hbelow hins
  | stopped hins => exact hbelow hins
  | full hins => exact hbelow hins
  | @raised fs a b key m ws hins =>
    obtain ⟨as, p, l, bs, hleaves, hentries, hreach⟩ := hins.reaches hs.on
    rcases List.eq_nil_or_concat post with rfl | ⟨post', w, rfl⟩
    · rw [List.append_nil] at hcut
      obtain ⟨hstands, hpage, hes⟩ := (Insertion.raised hins).stands hs hfs hd he
      have hscans := hstands.scans
      rw [hpage, hes, hcut] at hscans
      exact .inr hscans
    · -- the copy of the left half lies on a page that nothing leads to yet
      have hcut' : ws ++ [(m, a.node)] = pre ++ post' := by
        have hinit := congrArg List.dropLast hcut
        rw [List.concat_eq_append, ← List.append_assoc pre, List.dropLast_concat] at hinit
        simpa [List.dropLast_append_of_ne_nil] using hinit
      rw [hentries]
      exact (hreach.more (by simp) m a.node a a).scans hs hleaves hfs hd hcut'

end

end PagedTree
