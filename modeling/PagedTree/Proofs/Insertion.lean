import PagedTree.Proofs.Search

/-! # Inserting, as a relation between trees

What an insertion makes of a tree, with the pages it asks for and the nodes it writes, each in the
order in which it does so. A split writes the right half before the left one, which leads to it, so
at every moment the links show the entries of the tree as it was or as it will be.
-/
namespace PagedTree

/-- What an insertion leaves of a tree: the tree changed, two trees with a key between them, or, where
there was no page to be had, the tree that is left on the file and the one that the handle has. -/
inductive Growth where
  | whole (s : Shape)
  | halves (l : Shape) (key : UInt64) (r : Shape)
  | stopped (kept held : Shape)

namespace Growth

/-- There have been pages enough so far. -/
def Going : Growth → Prop
  | whole _ | halves .. => True
  | stopped .. => False

@[simp] theorem going_whole (s : Shape) : (whole s).Going := trivial

@[simp] theorem going_halves (l : Shape) (key : UInt64) (r : Shape) : (halves l key r).Going := trivial

@[simp] theorem not_going_stopped (kept held : Shape) : ¬(stopped kept held).Going := id

theorem going_or_stopped : ∀ g : Growth, g.Going ∨ ∃ kept held, g = stopped kept held
  | whole _ | halves .. => .inl trivial
  | stopped kept held => .inr ⟨kept, held, rfl⟩

def keys : Growth → List UInt64
  | halves _ key _ => [key]
  | whole _ | stopped .. => []

def trees : Growth → List Shape
  | whole s => [s]
  | halves l _ r => [l, r]
  | stopped .. => []

@[simp] theorem forall_mem_whole {Q : Shape → Prop} {s : Shape} :
    (∀ t ∈ (whole s).trees, Q t) ↔ Q s := List.forall_mem_singleton

@[simp] theorem forall_mem_halves {Q : Shape → Prop} {l r : Shape} {key : UInt64} :
    (∀ t ∈ (halves l key r).trees, Q t) ↔ Q l ∧ Q r := by simp [trees]

theorem forall_mem_stopped {Q : Shape → Prop} {kept held : Shape} :
    ∀ t ∈ (stopped kept held).trees, Q t := List.forall_mem_nil Q

end Growth

/-- How a leaf takes in an entry: the pages asked for, the leaves in its place and the writes. -/
inductive LeafInserted (e : Entry) (p : PageNo) (l : Leaf) :
    List PageNo → Growth → List (PageNo × Node) → Prop where
  | fits : (l.insert e).isFull = false →
      LeafInserted e p l [] (.whole (.leaf p (l.insert e))) [(p, .leaf (l.insert e))]
  | splits {q : PageNo} {a b : Leaf} {key : UInt64} : (l.insert e).isFull = true →
      (l.insert e).split? q = some (a, key, b) →
      LeafInserted e p l [q] (.halves (.leaf p a) key (.leaf q b)) [(q, .leaf b), (p, .leaf a)]

/-- What a branch on page `p` does when the child between `cs` and `ds` has grown. -/
inductive Absorbed (p : PageNo) (ks ls : List UInt64) (cs ds : List Shape) :
    Growth → List PageNo → Growth → List (PageNo × Node) → Prop where
  | whole (c : Shape) : Absorbed p ks ls cs ds (.whole c) []
      (.whole (.branch p (ks ++ ls) (cs ++ c :: ds))) []
  | fits {a b : Shape} {key : UInt64} : ks.length + ls.length + 1 < order →
      Absorbed p ks ls cs ds (.halves a key b) []
        (.whole (.branch p (ks ++ key :: ls) (cs ++ a :: b :: ds)))
        [(p, .branch ⟨ks ++ key :: ls, (cs ++ a :: b :: ds).map Shape.page⟩)]
  | splits {a b : Shape} {q : PageNo} {key mid : UInt64} {lks rks : List UInt64}
      {lcs rcs : List Shape} : lks ++ mid :: rks = ks ++ key :: ls →
      lcs ++ rcs = cs ++ a :: b :: ds → lcs.length = lks.length + 1 → lks.length < order →
      rks.length < order → lks ≠ [] → rks ≠ [] → Absorbed p ks ls cs ds (.halves a key b) [q]
        (.halves (.branch p lks lcs) mid (.branch q rks rcs))
        [(q, .branch ⟨rks, rcs.map Shape.page⟩), (p, .branch ⟨lks, lcs.map Shape.page⟩)]
  | full {a b : Shape} {key : UInt64} : order ≤ ks.length + ls.length + 1 →
      Absorbed p ks ls cs ds (.halves a key b) [] (.stopped (.branch p (ks ++ ls) (cs ++ a :: ds))
        (.branch p (ks ++ key :: ls) (cs ++ a :: b :: ds))) []
  | stopped (kept held : Shape) : Absorbed p ks ls cs ds (.stopped kept held) []
      (.stopped (.branch p (ks ++ ls) (cs ++ kept :: ds)) (.branch p (ks ++ ls) (cs ++ held :: ds))) []

inductive Inserted (e : Entry) : Shape → List PageNo → Growth → List (PageNo × Node) → Prop where
  | leaf {p : PageNo} {l : Leaf} {fs : List PageNo} {g : Growth} {ws : List (PageNo × Node)} :
      LeafInserted e p l fs g ws → Inserted e (.leaf p l) fs g ws
  | full {p : PageNo} {l : Leaf} : (l.insert e).isFull = true →
      Inserted e (.leaf p l) [] (.stopped (.leaf p l) (.leaf p (l.insert e))) []
  | branch {p : PageNo} {ks ls : List UInt64} {cs ds : List Shape} {c : Shape}
      {fs gs : List PageNo} {g g' : Growth} {ws vs : List (PageNo × Node)} :
      cs.length = ks.length → Routed e.key ks ls → Inserted e c fs g ws →
      Absorbed p ks ls cs ds g gs g' vs →
      Inserted e (.branch p (ks ++ ls) (cs ++ c :: ds)) (fs ++ gs) g' (ws ++ vs)

/-- Where an insertion has come to that finds no page: to a leaf that had to split, to a branch that
had to split for the halves of a child, or further down. The file keeps the left half of that child,
the handle both. -/
inductive Stopped (e : Entry) :
    Shape → List PageNo → Shape → Shape → List (PageNo × Node) → Prop where
  | leaf {p : PageNo} {l : Leaf} : (l.insert e).isFull = true →
      Stopped e (.leaf p l) [] (.leaf p l) (.leaf p (l.insert e)) []
  | branch {p : PageNo} {ks ls : List UInt64} {cs ds : List Shape} {a b c : Shape} {key : UInt64}
      {fs : List PageNo} {ws : List (PageNo × Node)} : cs.length = ks.length →
      Routed e.key ks ls → Inserted e c fs (.halves a key b) ws →
      Stopped e (.branch p (ks ++ ls) (cs ++ c :: ds)) fs (.branch p (ks ++ ls) (cs ++ a :: ds))
        (.branch p (ks ++ key :: ls) (cs ++ a :: b :: ds)) ws
  | inside {p : PageNo} {ks ls : List UInt64} {cs ds : List Shape} {c kept held : Shape}
      {fs : List PageNo} {ws : List (PageNo × Node)} : cs.length = ks.length →
      Routed e.key ks ls → Stopped e c fs kept held ws →
      Stopped e (.branch p (ks ++ ls) (cs ++ c :: ds)) fs (.branch p (ks ++ ls) (cs ++ kept :: ds))
        (.branch p (ks ++ ls) (cs ++ held :: ds)) ws

theorem Inserted.stopped {e : Entry} {s kept held : Shape} {fs : List PageNo}
    {ws : List (PageNo × Node)} (h : Inserted e s fs (.stopped kept held) ws) :
    Stopped e s fs kept held ws := by
  generalize hg : Growth.stopped kept held = g at h
  induction h generalizing kept held with
  | leaf h => cases h <;> cases hg
  | full hfull =>
    cases hg
    exact .leaf hfull
  | branch hlen hroute hchild habs ih =>
    cases habs with
    | whole | fits | splits => cases hg
    | full =>
      cases hg
      simpa using Stopped.branch hlen hroute hchild
    | stopped =>
      cases hg
      simpa using Stopped.inside hlen hroute (ih rfl)

/-! ## Pages -/

theorem Inserted.page {e : Entry} {s : Shape} {fs : List PageNo} {g : Growth}
    {ws : List (PageNo × Node)} (h : Inserted e s fs g ws) : ∀ t ∈ g.trees.head?, t.page = s.page := by
  cases h with
  | leaf h => cases h <;> simp [Growth.trees]
  | full => simp [Growth.trees]
  | branch _ _ _ h => cases h <;> simp [Growth.trees]

section
variable {p : PageNo} {ks ls : List UInt64} {cs ds : List Shape} {fs gs : List PageNo}
  {g g' : Growth} {ws vs : List (PageNo × Node)} {P : Pages} {lo hi : UInt64}

theorem Growth.pages_row {keys : List UInt64} {c : Shape}
    (h : (g.trees.flatMap Shape.pages).Perm (c.pages ++ fs)) :
    (p :: (cs ++ (g.trees ++ ds)).flatMap Shape.pages ++ gs).Perm
      ((Shape.branch p keys (cs ++ c :: ds)).pages ++ (fs ++ gs)) := by
  rw [List.perm_iff_count] at h ⊢
  intro x
  have hx := h x
  simp only [Shape.pages_branch, List.cons_append, List.flatMap_append, List.flatMap_cons,
    List.count_cons, List.count_append] at hx ⊢
  omega

theorem Absorbed.going (h : Absorbed p ks ls cs ds g gs g' vs) (hg : g'.Going) :
    g.Going := by
  cases h <;> simp at hg ⊢

theorem Absorbed.pages (h : Absorbed p ks ls cs ds g gs g' vs) (hg : g'.Going) :
    (g'.trees.flatMap Shape.pages).Perm
      (p :: (cs ++ (g.trees ++ ds)).flatMap Shape.pages ++ gs) := by
  cases h with
  | whole c => simp [Growth.trees]
  | fits => simp [Growth.trees]
  | @splits a b q key mid lks rks lcs rcs hkeys htrees =>
    have hmoved : (p :: lcs.flatMap Shape.pages ++ q :: rcs.flatMap Shape.pages).Perm
        (p :: (lcs ++ rcs).flatMap Shape.pages ++ [q]) := by
      rw [List.perm_iff_count]
      intro x
      simp only [List.cons_append, List.count_cons, List.count_append, List.flatMap_append,
        List.count_nil]
      omega
    simpa [Growth.trees, htrees] using hmoved
  | full => simp at hg
  | stopped => simp at hg

theorem Absorbed.written (h : Absorbed p ks ls cs ds g gs g' vs) : ∀ w ∈ vs, w.1 ∈ p :: gs := by
  cases h <;> simp

theorem Absorbed.on {c : Shape} (h : Absorbed p ks ls cs ds g gs g' vs)
    (hp : P p = some (.branch ⟨ks ++ ls, (cs ++ c :: ds).map Shape.page⟩))
    (hc : ∀ t ∈ g.trees.head?, t.page = c.page) (hkids : ∀ t ∈ cs ++ (g.trees ++ ds), t.On P)
    (hd : (p :: (cs ++ (g.trees ++ ds)).flatMap Shape.pages ++ gs).Nodup) :
    ∀ t ∈ g'.trees, t.On (P.write vs) := by
  obtain ⟨hpnew, hrest⟩ := List.nodup_cons.1 hd
  have hnew : ∀ t ∈ cs ++ (g.trees ++ ds), ∀ q ∈ t.pages, q ∉ p :: gs := by
    intro t ht q hq hmem
    have hq' := List.mem_flatMap.2 ⟨t, ht, hq⟩
    rcases List.mem_cons.1 hmem with rfl | hmem
    · exact hpnew (List.mem_append_left _ hq')
    · exact (List.nodup_append.1 hrest).2.2 q hq' q hmem rfl
  cases h with
  | whole c' =>
    have hpage : c'.page = c.page := hc c' rfl
    rw [Growth.forall_mem_whole, Shape.on_branch, Pages.write_nil]
    refine ⟨?_, hkids⟩
    simpa [hpage] using hp
  | fits =>
    rw [Growth.forall_mem_whole, Shape.on_branch, Pages.write_cons, Pages.write_nil]
    refine ⟨Pages.set_same .., ?_⟩
    exact fun t ht => (hkids t ht).set (fun hmem => hnew t ht p hmem List.mem_cons_self) _
  | @splits a b q key mid lks rks lcs rcs hkeys htrees =>
    have hq : q ≠ p := fun he => hpnew (by simp [he])
    have hset : ∀ t ∈ lcs ++ rcs, ∀ n m, t.On ((P.set q n).set p m) := by
      intro t ht n m
      rw [htrees] at ht
      refine ((hkids t ht).set ?_ n).set ?_ m
      · intro hmem
        exact hnew t ht q hmem (by simp)
      · intro hmem
        exact hnew t ht p hmem (by simp)
    simp only [Growth.forall_mem_halves, Shape.on_branch, Pages.write_cons, Pages.write_nil]
    refine ⟨⟨Pages.set_same .., fun t ht => hset t (List.mem_append_left _ ht) _ _⟩, ?_,
      fun t ht => hset t (List.mem_append_right _ ht) _ _⟩
    rw [Pages.set_other _ hq, Pages.set_same]
  | full => simp [Growth.trees]
  | stopped => simp [Growth.trees]

theorem LeafInserted.on {e : Entry} {p : PageNo} {l : Leaf} (h : LeafInserted e p l fs g ws)
    (hfs : p ∉ fs) : ∀ t ∈ g.trees, t.On (P.write ws) := by
  cases h with
  | fits => simp [Growth.trees]
  | @splits q =>
    have hq : q ≠ p := fun he => hfs (he ▸ List.mem_singleton.2 rfl)
    simp [Growth.trees, Pages.set_other _ hq]

theorem Absorbed.ordered (h : Absorbed p ks ls cs ds g gs g' vs) (hg : g'.Going)
    (hrow : Between Shape.Ordered lo (ks ++ (g.keys ++ ls)) (cs ++ (g.trees ++ ds)) hi) :
    Between Shape.Ordered lo g'.keys g'.trees hi := by
  cases h with
  | whole c => exact ⟨hrow.le, Shape.ordered_branch.2 hrow⟩
  | fits => exact ⟨hrow.le, Shape.ordered_branch.2 hrow⟩
  | @splits a b q key mid lks rks lcs rcs hkeys htrees hlen =>
    have hcut : Between Shape.Ordered lo (lks ++ mid :: rks) (lcs ++ rcs) hi := by
      rw [hkeys, htrees]
      exact hrow
    obtain ⟨hleft, hright⟩ := (Between.append hlen).1 hcut
    exact ⟨hleft.le, Shape.ordered_branch.2 hleft, hright.le, Shape.ordered_branch.2 hright⟩
  | full => simp at hg
  | stopped => simp at hg

theorem Absorbed.small (h : Absorbed p ks ls cs ds g gs g' vs) (hcs : cs.length = ks.length)
    (hds : ds.length = ls.length) (hlen : ks.length + ls.length < order)
    (hrow : ∀ t ∈ cs ++ (g.trees ++ ds), t.Small) : ∀ t ∈ g'.trees, t.Small := by
  cases h with
  | whole c =>
    rw [Growth.forall_mem_whole, Shape.small_branch]
    refine ⟨?_, hrow⟩
    simp only [List.length_append, List.length_cons]
    omega
  | fits hfits =>
    rw [Growth.forall_mem_whole, Shape.small_branch]
    refine ⟨?_, hrow⟩
    simp only [List.length_append, List.length_cons]
    omega
  | @splits a b q key mid lks rks lcs rcs hkeys htrees hlcs hlks hrks =>
    have hkeysLen := congrArg List.length hkeys
    have htreesLen := congrArg List.length htrees
    have hall : ∀ t ∈ lcs ++ rcs, t.Small := by
      rw [htrees]
      exact hrow
    simp only [List.length_append, List.length_cons] at hkeysLen htreesLen
    obtain ⟨hleft, hright⟩ := List.forall_mem_append.1 hall
    rw [Growth.forall_mem_halves, Shape.small_branch, Shape.small_branch]
    exact ⟨⟨by omega, hleft⟩, by omega, hright⟩
  | full => simp [Growth.trees]
  | stopped => simp [Growth.trees]

theorem Shape.ordered_insert {e : Entry} {l : Leaf} (hs : Shape.Ordered lo hi (.leaf p l))
    (hlo : lo ≤ e.key) (hhi : e.key ≤ hi) : Shape.Ordered lo hi (.leaf p (l.insert e)) := by
  obtain ⟨hsorted, hbound⟩ := Shape.ordered_leaf.1 hs
  refine Shape.ordered_leaf.2 ⟨Leaf.sorted_insert hsorted e, ?_⟩
  intro k hk
  obtain ⟨x, hx, rfl⟩ := List.mem_map.1 hk
  rcases Leaf.mem_insert.1 hx with rfl | hx
  · exact ⟨hlo, hhi⟩
  · exact hbound x.key (List.mem_map_of_mem hx)

/-- The child that a key is routed to has bounds that admit the key. -/
theorem Shape.between_routed {k : UInt64} {c : Shape} (hlen : cs.length = ks.length)
    (hroute : Routed k ks ls) (h : Between Shape.Ordered lo (ks ++ ls) (cs ++ c :: ds) hi)
    (hlo : lo ≤ k) (hhi : k ≤ hi) : ∃ a b, a ≤ k ∧ k ≤ b ∧ Shape.Ordered a b c ∧
      ∀ {ms : List UInt64} {es : List Shape}, Between Shape.Ordered a ms es b →
        Between Shape.Ordered lo (ks ++ (ms ++ ls)) (cs ++ (es ++ ds)) hi := by
  obtain ⟨a, b, ha, rfl, -, -, -, hc, hrow⟩ := h.hole hlen
  refine ⟨a, _, ?_, ?_, hc, hrow⟩
  · rcases List.mem_cons.1 ha with rfl | ha
    · exact hlo
    · exact hroute.1 a ha
  · cases ls with
    | nil => exact hhi
    | cons l ls => exact UInt64.le_of_lt (hroute.2 l rfl)

theorem LeafInserted.ordered {e : Entry} {p : PageNo} {l : Leaf} (h : LeafInserted e p l fs g ws)
    (hs : Shape.Ordered lo hi (.leaf p l)) (hlo : lo ≤ e.key) (hhi : e.key ≤ hi) :
    Between Shape.Ordered lo g.keys g.trees hi := by
  have hgrown := Shape.ordered_insert hs hlo hhi
  obtain ⟨hsorted', hbound'⟩ := Shape.ordered_leaf.1 hgrown
  cases h with
  | fits => exact ⟨UInt64.le_trans hlo hhi, hgrown⟩
  | @splits q a b key hfull hsplit =>
    obtain ⟨ha, hb, hale, hbge, hkey⟩ := Leaf.sorted_split hsplit hsorted'
    obtain ⟨hentries, -, -, -⟩ := Leaf.entries_split? hsplit
    have hmem : ∀ k, k ∈ a.keys ∨ k ∈ b.keys → k ∈ (l.insert e).keys := by
      intro k hk
      rw [Leaf.keys, ← hentries, List.map_append]
      exact List.mem_append.2 hk
    refine ⟨(hbound' key hkey).1, Shape.ordered_leaf.2 ⟨ha, ?_⟩, (hbound' key hkey).2,
      Shape.ordered_leaf.2 ⟨hb, ?_⟩⟩
    · intro k hk
      exact ⟨(hbound' k (hmem k (.inl hk))).1, hale k hk⟩
    · intro k hk
      exact ⟨hbge k hk, (hbound' k (hmem k (.inr hk))).2⟩

theorem LeafInserted.small {e : Entry} {p : PageNo} {l : Leaf} (h : LeafInserted e p l fs g ws)
    (hs : (Shape.leaf p l).Small) (he : e.value.size ≤ Tree.maxValueSize) :
    ∀ t ∈ g.trees, t.Small := by
  obtain ⟨hlen, hsize⟩ := Shape.small_leaf.1 hs
  have hlen' := Leaf.length_insert l e
  have hsize' : ∀ x ∈ (l.insert e).entries, x.value.size ≤ Tree.maxValueSize := by
    intro x hx
    rcases Leaf.mem_insert.1 hx with rfl | hx
    · exact he
    · exact hsize x hx
  cases h with
  | fits hfits =>
    have hroom : ¬order ≤ (l.insert e).entries.length := of_decide_eq_false hfits
    rw [Growth.forall_mem_whole, Shape.small_leaf]
    exact ⟨Nat.not_le.1 hroom, hsize'⟩
  | @splits q a b key hfull hsplit =>
    obtain ⟨hentries, -, -, -⟩ := Leaf.entries_split? hsplit
    have hfull' : order ≤ (l.insert e).entries.length := of_decide_eq_true hfull
    obtain ⟨ha, hb⟩ := Leaf.nonempty_split hsplit (Nat.le_trans (by decide) hfull')
    have hapos := List.length_pos_iff.2 ha
    have hbpos := List.length_pos_iff.2 hb
    have hsum := congrArg List.length hentries
    rw [List.length_append] at hsum
    rw [Growth.forall_mem_halves, Shape.small_leaf, Shape.small_leaf]
    refine ⟨⟨by omega, fun x hx => hsize' x ?_⟩, by omega, fun x hx => hsize' x ?_⟩
    · exact hentries ▸ List.mem_append_left _ hx
    · exact hentries ▸ List.mem_append_right _ hx

theorem LeafInserted.pages {e : Entry} {p : PageNo} {l : Leaf} (h : LeafInserted e p l fs g ws) :
    g.trees.flatMap Shape.pages = p :: fs := by
  cases h <;> simp [Growth.trees]

theorem LeafInserted.written {e : Entry} {p : PageNo} {l : Leaf} (h : LeafInserted e p l fs g ws) :
    ∀ w ∈ ws, w.1 ∈ p :: fs := by
  cases h <;> simp

end

namespace Inserted

variable {e : Entry} {s : Shape} {fs : List PageNo} {g : Growth} {ws : List (PageNo × Node)}
  {P : Pages} {lo hi : UInt64}

/-- The pages of the tree and those asked for are the pages of what is left. -/
theorem pages (h : Inserted e s fs g ws) (hg : g.Going) :
    (g.trees.flatMap Shape.pages).Perm (s.pages ++ fs) := by
  induction h with
  | leaf h => simp [h.pages]
  | full => simp at hg
  | branch _ _ _ habs ih =>
    exact (habs.pages hg).trans (Growth.pages_row (ih (habs.going hg)))

theorem written (h : Inserted e s fs g ws) : ∀ w ∈ ws, w.1 ∈ s.pages ++ fs := by
  induction h with
  | leaf h => simpa using h.written
  | full => simp
  | branch _ _ _ habs ih =>
    intro w hw
    rcases List.mem_append.1 hw with hw | hw
    · have hmem := ih w hw
      simp only [Shape.pages_branch, List.flatMap_append, List.flatMap_cons, List.mem_append,
        List.mem_cons] at hmem ⊢
      tauto
    · have hmem := habs.written w hw
      simp only [Shape.pages_branch, List.mem_append, List.mem_cons] at hmem ⊢
      tauto

theorem on (h : Inserted e s fs g ws) (hs : s.On P) (hd : (s.pages ++ fs).Nodup) :
    ∀ t ∈ g.trees, t.On (P.write ws) := by
  induction h with
  | leaf h =>
    rw [Shape.pages_leaf, List.singleton_append] at hd
    exact h.on (List.nodup_cons.1 hd).1
  | full => simp [Growth.trees]
  | @branch p ks ls cs ds c fs gs g g' ws vs hlen _ hchild habs ih =>
    rcases g'.going_or_stopped with hg | ⟨kept, held, rfl⟩
    case inr => exact Growth.forall_mem_stopped
    -- only the pages of the child and those asked for below have been written so far
    have hfirst : ((Shape.branch p (ks ++ ls) (cs ++ c :: ds)).pages ++ fs).Nodup :=
      hd.sublist (by simp)
    obtain ⟨⟨hp, hpkids⟩, hbelow, hkids⟩ := Shape.distinct_cut hfirst
    obtain ⟨htop, hall⟩ := Shape.on_branch.1 hs
    have hpages := hchild.pages (habs.going hg)
    rw [Pages.write_append]
    have hkidsOn : ∀ t ∈ cs ++ (g.trees ++ ds), t.On (P.write ws) := by
      intro t ht
      rcases List.mem_append.1 ht with ht | ht
      · exact (hall t (by simp [ht])).write fun w hw hmem =>
          hkids t (by simp [ht]) _ hmem (hchild.written w hw)
      rcases List.mem_append.1 ht with ht | ht
      · exact ih (hall c (by simp)) hbelow t ht
      · exact (hall t (by simp [ht])).write fun w hw hmem =>
          hkids t (by simp [ht]) _ hmem (hchild.written w hw)
    refine habs.on ?_ hchild.page hkidsOn ((Growth.pages_row hpages).symm.nodup hd)
    rw [Pages.write_other fun w hw he => hp (by rw [← he]; exact hchild.written w hw), htop]

theorem ordered (h : Inserted e s fs g ws) (hg : g.Going) (hs : s.Ordered lo hi)
    (hlo : lo ≤ e.key) (hhi : e.key ≤ hi) : Between Shape.Ordered lo g.keys g.trees hi := by
  induction h generalizing lo hi with
  | leaf h => exact h.ordered hs hlo hhi
  | full => simp at hg
  | @branch p ks ls cs ds c fs gs g g' ws vs hlen hroute _ habs ih =>
    obtain ⟨a, b, hak, hkb, hc, hrow⟩ :=
      Shape.between_routed hlen hroute (Shape.ordered_branch.1 hs) hlo hhi
    exact habs.ordered hg (hrow (ih (habs.going hg) hc hak hkb))

theorem small (h : Inserted e s fs g ws) (hs : s.Small) (he : e.value.size ≤ Tree.maxValueSize) :
    ∀ t ∈ g.trees, t.Small := by
  induction h with
  | leaf h => exact h.small hs he
  | full => simp [Growth.trees]
  | @branch p ks ls cs ds c fs gs g g' ws vs hlen _ _ habs ih =>
    obtain ⟨⟨hshape, hkeys⟩, hkids⟩ := Shape.small_branch.1 hs
    simp only [List.length_append, List.length_cons] at hshape hkeys
    exact habs.small hlen (by omega) (by omega) (forall_mem_replace hkids (ih (hkids c (by simp))))

end Inserted

namespace Stopped

variable {e : Entry} {s kept held : Shape} {fs : List PageNo} {ws : List (PageNo × Node)}

theorem page (h : Stopped e s fs kept held ws) : kept.page = s.page ∧ held.page = s.page := by
  cases h <;> exact ⟨rfl, rfl⟩

/-- The handle has every page that was asked for in its tree. -/
theorem pages (h : Stopped e s fs kept held ws) : held.pages.Perm (s.pages ++ fs) := by
  induction h with
  | leaf => simp
  | @branch p ks ls cs ds a b c key fs ws _ _ hchild =>
    have hrow : (p :: (cs ++ ([a, b] ++ ds)).flatMap Shape.pages ++ []).Perm
        ((Shape.branch p (ks ++ ls) (cs ++ c :: ds)).pages ++ (fs ++ [])) :=
      Growth.pages_row (hchild.pages (by simp))
    simpa using hrow
  | @inside p ks ls cs ds c kept held fs ws _ _ _ ih =>
    have hrow : (p :: (cs ++ ([held] ++ ds)).flatMap Shape.pages ++ []).Perm
        ((Shape.branch p (ks ++ ls) (cs ++ c :: ds)).pages ++ (fs ++ [])) :=
      Growth.pages_row (g := .whole held) (by simpa [Growth.trees] using ih)
    simpa using hrow

/-- The keys stay in order, on the file and in mind. -/
theorem ordered {lo hi : UInt64} (h : Stopped e s fs kept held ws) (hs : s.Ordered lo hi)
    (hlo : lo ≤ e.key) (hhi : e.key ≤ hi) : kept.Ordered lo hi ∧ held.Ordered lo hi := by
  induction h generalizing lo hi with
  | leaf => exact ⟨hs, Shape.ordered_insert hs hlo hhi⟩
  | branch hlen hroute hchild =>
    obtain ⟨a, b, hak, hkb, hc, hrow⟩ :=
      Shape.between_routed hlen hroute (Shape.ordered_branch.1 hs) hlo hhi
    have hhalves := hchild.ordered (by simp) hc hak hkb
    have hleft := hhalves.2.1.widen (UInt64.le_refl a) hhalves.2.2.1
    exact ⟨Shape.ordered_branch.2 (hrow (Between.singleton.2 ⟨hhalves.le, hleft⟩)),
      Shape.ordered_branch.2 (hrow hhalves)⟩
  | inside hlen hroute _ ih =>
    obtain ⟨a, b, hak, hkb, hc, hrow⟩ :=
      Shape.between_routed hlen hroute (Shape.ordered_branch.1 hs) hlo hhi
    obtain ⟨hkept, hheld⟩ := ih hc hak hkb
    have hle := UInt64.le_trans hak hkb
    exact ⟨Shape.ordered_branch.2 (hrow (Between.singleton.2 ⟨hle, hkept⟩)),
      Shape.ordered_branch.2 (hrow (Between.singleton.2 ⟨hle, hheld⟩))⟩

end Stopped

end PagedTree
