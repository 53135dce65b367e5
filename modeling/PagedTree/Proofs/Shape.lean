import PagedTree.Proofs.Pages
import PagedTree.Proofs.Separators

/-! # Trees as values

A shape is the tree below a page as a value: the nodes with their pages, without the file. A shape
stands on the pages of a file if each of its nodes does; what the keys, the leaves and the entries
of a tree are is then said of its shape.
-/
namespace PagedTree

inductive Shape where
  | leaf (p : PageNo) (l : Leaf)
  | branch (p : PageNo) (keys : List UInt64) (kids : List Shape)

namespace Shape

def page : Shape → PageNo
  | leaf p _ => p
  | branch p _ _ => p

/-- The topmost node. -/
def node : Shape → Node
  | leaf _ l => .leaf l
  | branch _ keys kids => .branch ⟨keys, kids.map page⟩

/-- The shapes at and below the top, parents before children and left before right. -/
def parts : Shape → List Shape
  | leaf p l => [leaf p l]
  | branch p keys kids => branch p keys kids :: kids.flatMap parts

def leaf? : Shape → Option (PageNo × Leaf)
  | leaf p l => some (p, l)
  | branch .. => none

def pages (s : Shape) : List PageNo := s.parts.map page

/-- The leaves from left to right. -/
def leaves (s : Shape) : List (PageNo × Leaf) := s.parts.filterMap leaf?

def entries (s : Shape) : List Entry := s.leaves.flatMap (·.2.entries)

@[elab_as_elim]
theorem induct {motive : Shape → Prop} (leaf : ∀ p l, motive (leaf p l))
    (branch : ∀ p keys kids, (∀ c ∈ kids, motive c) → motive (branch p keys kids)) : ∀ s, motive s
  | .leaf p l => leaf p l
  | .branch p keys kids => branch p keys kids fun c _ => induct leaf branch c

section
variable {p : PageNo} {l : Leaf} {keys : List UInt64} {kids : List Shape}

@[simp] theorem page_leaf : (leaf p l).page = p := rfl

@[simp] theorem page_branch : (branch p keys kids).page = p := rfl

@[simp] theorem parts_leaf : (leaf p l).parts = [leaf p l] := by simp [parts]

@[simp] theorem parts_branch :
    (branch p keys kids).parts = branch p keys kids :: kids.flatMap parts := by simp [parts]

/-- What holds at and below a branch holds of the branch and at and below each child. -/
theorem forall_mem_parts_branch {Q : Shape → Prop} : (∀ t ∈ (branch p keys kids).parts, Q t) ↔
    Q (branch p keys kids) ∧ ∀ c ∈ kids, ∀ t ∈ c.parts, Q t := by
  rw [parts_branch, List.forall_mem_cons, List.forall_mem_flatMap]

@[simp] theorem pages_leaf : (leaf p l).pages = [p] := by simp [pages]

@[simp] theorem pages_branch : (branch p keys kids).pages = p :: kids.flatMap pages := by
  simp [pages, List.map_flatMap]
  rfl

@[simp] theorem leaves_leaf : (leaf p l).leaves = [(p, l)] := by simp [leaves, leaf?]

@[simp] theorem leaves_branch : (branch p keys kids).leaves = kids.flatMap leaves := by
  simp only [leaves, parts_branch, List.filterMap_cons, leaf?, List.filterMap_flatMap]
  rfl

@[simp] theorem entries_leaf : (leaf p l).entries = l.entries := by simp [entries]

@[simp] theorem entries_branch : (branch p keys kids).entries = kids.flatMap entries := by
  simp [entries, List.flatMap_assoc]
  rfl

end

theorem self_mem_parts (s : Shape) : s ∈ s.parts := by cases s <;> simp

theorem page_mem_pages (s : Shape) : s.page ∈ s.pages := List.mem_map_of_mem s.self_mem_parts

theorem mem_parts_of_mem_leaves {s : Shape} {x : PageNo × Leaf} (h : x ∈ s.leaves) :
    leaf x.1 x.2 ∈ s.parts := by
  obtain ⟨t, ht, hleaf⟩ := List.mem_filterMap.1 h
  cases t with
  | leaf q k =>
    cases hleaf
    exact ht
  | branch => cases hleaf

theorem pages_eq (s : Shape) : s.pages = s.page :: s.pages.tail := by cases s <;> simp

/-- A branch whose pages are distinct, and distinct from some others, cut at one of its children. -/
theorem distinct_cut {p : PageNo} {keys : List UInt64} {cs ds : List Shape} {c : Shape}
    {fs : List PageNo} (h : ((branch p keys (cs ++ c :: ds)).pages ++ fs).Nodup) :
    (p ∉ c.pages ++ fs ∧ ∀ x ∈ cs ++ ds, p ∉ x.pages) ∧ (c.pages ++ fs).Nodup ∧
      ∀ x ∈ cs ++ ds, ∀ q ∈ x.pages, q ∉ c.pages ++ fs := by
  have hperm : ((branch p keys (cs ++ c :: ds)).pages ++ fs).Perm
      (p :: (c.pages ++ fs ++ (cs ++ ds).flatMap pages)) := by
    rw [List.perm_iff_count]
    intro x
    simp only [pages_branch, List.cons_append, List.flatMap_append, List.flatMap_cons,
      List.count_cons, List.count_append]
    omega
  obtain ⟨hp, hrest⟩ := List.nodup_cons.1 (hperm.nodup h)
  obtain ⟨hc, -, hdisjoint⟩ := List.nodup_append.1 hrest
  refine ⟨⟨fun hmem => hp (List.mem_append_left _ hmem), ?_⟩, hc, ?_⟩
  · intro x hx hmem
    exact hp (List.mem_append_right _ (List.mem_flatMap.2 ⟨x, hx, hmem⟩))
  · exact fun x hx q hq hmem => hdisjoint q hmem q (List.mem_flatMap.2 ⟨x, hx, hq⟩) rfl

theorem distinct_kids {p : PageNo} {keys : List UInt64} {cs ds : List Shape} {c : Shape}
    (h : (branch p keys (cs ++ c :: ds)).pages.Nodup) :
    (p ∉ c.pages ∧ ∀ x ∈ cs ++ ds, p ∉ x.pages) ∧ c.pages.Nodup ∧
      ∀ x ∈ cs ++ ds, ∀ q ∈ x.pages, q ∉ c.pages := by
  have hcut : ((branch p keys (cs ++ c :: ds)).pages ++ []).Nodup := by rwa [List.append_nil]
  simpa using distinct_cut hcut

theorem length_pages (s : Shape) : s.pages.length = s.parts.length := List.length_map _

theorem length_parts_lt {p : PageNo} {keys : List UInt64} {kids : List Shape} {c : Shape}
    (h : c ∈ kids) : c.parts.length < (branch p keys kids).parts.length := by
  obtain ⟨cs, ds, rfl⟩ := List.append_of_mem h
  simp
  omega

/-- A walk down a tree takes no more steps than there are nodes. -/
theorem exists_limit {s : Shape} {limit : Nat} (h : s.parts.length ≤ limit) : ∃ n, limit = n + 1 :=
  Nat.exists_eq_add_one.2 (Nat.lt_of_lt_of_le (List.length_pos_of_mem s.self_mem_parts) h)

theorem length_parts_kid {p : PageNo} {keys : List UInt64} {kids : List Shape} {c : Shape} {n : Nat}
    (hlim : (branch p keys kids).parts.length ≤ n + 1) (h : c ∈ kids) : c.parts.length ≤ n :=
  Nat.le_of_lt_succ (Nat.lt_of_lt_of_le (length_parts_lt h) hlim)

/-! ## On a file -/

/-- Each node of the shape stands on its page. -/
def On (s : Shape) (P : Pages) : Prop := ∀ t ∈ s.parts, P t.page = some t.node

section
variable {P Q : Pages} {p : PageNo} {l : Leaf} {keys : List UInt64} {kids : List Shape}

@[simp] theorem on_leaf : (leaf p l).On P ↔ P p = some (.leaf l) := by simp [On, node]

@[simp] theorem on_branch : (branch p keys kids).On P ↔
    P p = some (.branch ⟨keys, kids.map page⟩) ∧ ∀ c ∈ kids, c.On P :=
  forall_mem_parts_branch

theorem On.top {s : Shape} (h : s.On P) : P s.page = some s.node := h s s.self_mem_parts

theorem On.mono {s : Shape} (h : s.On P) (hPQ : ∀ q ∈ s.pages, ∀ n, P q = some n → Q q = some n) :
    s.On Q := fun t ht => hPQ _ (List.mem_map_of_mem ht) _ (h t ht)

/-- A shape does not see the pages that are not its own. -/
theorem On.congr {s : Shape} (h : s.On P) (hPQ : ∀ q ∈ s.pages, Q q = P q) : s.On Q :=
  h.mono fun q hq n hn => by rw [hPQ q hq, hn]

theorem On.set {s : Shape} (h : s.On P) {q : PageNo} (hq : q ∉ s.pages) (n : Node) :
    s.On (P.set q n) := h.congr fun _ hr => Pages.set_other _ fun he => hq (he ▸ hr)

theorem On.write {s : Shape} (h : s.On P) {ws : List (PageNo × Node)}
    (hws : ∀ w ∈ ws, w.1 ∉ s.pages) : s.On (P.write ws) :=
  h.congr fun _ hq => Pages.write_other fun w hw he => hws w hw (he ▸ hq)

theorem On.lt_pageCount {s : Shape} {store : PageStore} (h : s.On store.view) :
    ∀ q ∈ s.pages, q.toNat < store.pageCount := by
  intro q hq
  obtain ⟨t, ht, rfl⟩ := List.mem_map.1 hq
  exact PageStore.lt_of_view (h t ht)

/-- A page has one tree on it. -/
theorem On.unique {s t : Shape} (h : s.On P) (h' : t.On P) (hp : s.page = t.page) : s = t := by
  induction s using induct generalizing t with
  | leaf p l =>
    have htop := h.top
    rw [hp, h'.top] at htop
    cases t with
    | leaf q m =>
      cases hp
      cases htop
      rfl
    | branch => cases htop
  | branch p keys kids ih =>
    have htop := h.top
    rw [hp, h'.top] at htop
    cases t with
    | leaf => cases htop
    | branch q keys' kids' =>
      cases hp
      simp only [node, Option.some.injEq, NodeOf.branch.injEq, Branch.mk.injEq] at htop
      obtain ⟨rfl, hpages⟩ := htop
      have hkids : kids = kids' := by
        apply List.ext_getElem?
        intro i
        have hi := congrArg (·[i]?) hpages
        simp only [List.getElem?_map] at hi
        cases hc : kids[i]? with
        | none =>
          rw [hc, Option.map_none, Option.map_eq_none_iff] at hi
          exact hi.symm
        | some c =>
          rw [hc, Option.map_some, Option.map_eq_some_iff] at hi
          obtain ⟨c', hc', hsame⟩ := hi
          have hmem := List.mem_of_getElem? hc
          rw [hc', ih c hmem ((on_branch.1 h).2 c hmem)
            ((on_branch.1 h').2 c' (List.mem_of_getElem? hc')) hsame.symm]
      rw [hkids]

theorem On.leaf {s : Shape} (h : s.On P) {x : PageNo × Leaf} (hx : x ∈ s.leaves) :
    P x.1 = some (.leaf x.2) := h _ (mem_parts_of_mem_leaves hx)

end

/-! ## Order -/

/-- The keys of a leaf do not decrease and stay within the bounds. A branch has one more child than
separators, its separators do not decrease, and the child in each slot lies between the separators
on its two sides, both included; the bounds of the branch stand where there is no separator. -/
inductive Ordered : UInt64 → UInt64 → Shape → Prop where
  | leaf {lo hi : UInt64} {p : PageNo} {l : Leaf} :
      l.keys.Pairwise (· ≤ ·) → (∀ k ∈ l.keys, lo ≤ k ∧ k ≤ hi) → Ordered lo hi (leaf p l)
  | branch {lo hi : UInt64} {p : PageNo} {keys : List UInt64} {kids : List Shape} :
      kids.length = keys.length + 1 → (lo :: (keys ++ [hi])).Pairwise (· ≤ ·) →
      (∀ (i : Nat) (c : Shape), kids[i]? = some c →
        Ordered ((lo :: keys).getD i hi) (keys.getD i hi) c) →
      Ordered lo hi (branch p keys kids)

theorem ordered_leaf {lo hi : UInt64} {p : PageNo} {l : Leaf} : Ordered lo hi (.leaf p l) ↔
    l.keys.Pairwise (· ≤ ·) ∧ ∀ k ∈ l.keys, lo ≤ k ∧ k ≤ hi := by
  constructor
  · intro h
    cases h with
    | leaf hsorted hbound => exact ⟨hsorted, hbound⟩
  · exact fun h => .leaf h.1 h.2

theorem ordered_branch {lo hi : UInt64} {p : PageNo} {keys : List UInt64} {kids : List Shape} :
    Ordered lo hi (.branch p keys kids) ↔ Between Ordered lo keys kids hi := by
  rw [Between.iff_getElem?]
  constructor
  · intro h
    cases h with
    | branch hlen hsorted hkids => exact ⟨hlen, hsorted, hkids⟩
  · exact fun h => .branch h.1 h.2.1 h.2.2

theorem Ordered.widen {s : Shape} {lo hi lo' hi' : UInt64} (h : Ordered lo hi s) (hlo : lo' ≤ lo)
    (hhi : hi ≤ hi') : Ordered lo' hi' s := by
  induction s using induct generalizing lo hi lo' hi' with
  | leaf p l =>
    rw [ordered_leaf] at h ⊢
    refine ⟨h.1, ?_⟩
    intro k hk
    exact ⟨UInt64.le_trans hlo (h.2 k hk).1, UInt64.le_trans (h.2 k hk).2 hhi⟩
  | branch p keys kids ih =>
    rw [ordered_branch] at h ⊢
    exact h.widen (fun c hc _ _ _ _ hR ha hb => ih c hc hR ha hb) hlo hhi

theorem Ordered.bound {s : Shape} {lo hi : UInt64} (h : Ordered lo hi s) :
    ∀ e ∈ s.entries, lo ≤ e.key ∧ e.key ≤ hi := by
  induction s using induct generalizing lo hi with
  | leaf p l =>
    intro e he
    rw [ordered_leaf] at h
    exact h.2 e.key (List.mem_map_of_mem (by simpa using he))
  | branch p keys kids ih =>
    intro e he
    rw [ordered_branch] at h
    rw [entries_branch] at he
    obtain ⟨c, hc, hec⟩ := List.mem_flatMap.1 he
    obtain ⟨a, b, ha, hb, hR⟩ := h.mem hc
    have hbound := ih c hc hR e hec
    exact ⟨UInt64.le_trans ha hbound.1, UInt64.le_trans hbound.2 hb⟩

/-- Every part of an ordered tree is ordered, between bounds of its own. -/
theorem Ordered.part {s c : Shape} {lo hi : UInt64} (h : Ordered lo hi s) (hc : c ∈ s.parts) :
    ∃ a b, Ordered a b c := by
  induction s using induct generalizing lo hi with
  | leaf p l =>
    rw [parts_leaf, List.mem_singleton] at hc
    exact ⟨lo, hi, hc ▸ h⟩
  | branch p keys kids ih =>
    rcases List.mem_cons.1 (parts_branch ▸ hc) with rfl | hc
    · exact ⟨lo, hi, h⟩
    · obtain ⟨d, hd, hc⟩ := List.mem_flatMap.1 hc
      obtain ⟨a, b, -, -, hR⟩ := (ordered_branch.1 h).mem hd
      exact ih d hd hR hc

/-- What the order says of one branch: the entries below a child lie between the separators before it
and those behind it. -/
theorem Ordered.separated {lo hi : UInt64} {p : PageNo} {keys : List UInt64} {kids : List Shape}
    (h : Ordered lo hi (.branch p keys kids)) : kids.length = keys.length + 1 ∧
      keys.Pairwise (· ≤ ·) ∧ ∀ (i : Nat) (c : Shape), kids[i]? = some c → ∀ e ∈ c.entries,
        (∀ k ∈ keys.take i, k ≤ e.key) ∧ ∀ k ∈ keys.drop i, e.key ≤ k := by
  rw [ordered_branch] at h
  refine ⟨h.length, (List.pairwise_append.1 h.sorted.of_cons).1, ?_⟩
  intro i c hc e he
  obtain ⟨a, b, hR, hleft, hright⟩ := h.bounds_getElem? hc
  have hbound := hR.bound e he
  exact ⟨fun k hk => UInt64.le_trans (hleft k hk) hbound.1,
    fun k hk => UInt64.le_trans hbound.2 (hright k hk)⟩

/-- The entries of a row of children come in the order of their keys. -/
theorem sorted_of_between {kids : List Shape} {keys : List UInt64} {lo hi : UInt64}
    (h : Between Ordered lo keys kids hi)
    (hkids : ∀ c ∈ kids, ∀ {a b : UInt64}, Ordered a b c →
      c.entries.Pairwise fun x y => x.key ≤ y.key) :
    (kids.flatMap entries).Pairwise fun x y => x.key ≤ y.key := by
  induction keys generalizing lo kids with
  | nil =>
    match kids, h with
    | [c], h => simpa using hkids c List.mem_cons_self h.2
  | cons k keys ih =>
    match kids, h with
    | c :: kids, h =>
      rw [List.flatMap_cons, List.pairwise_append]
      refine ⟨hkids c List.mem_cons_self h.2.1,
        ih h.2.2 fun d hd => hkids d (List.mem_cons_of_mem _ hd), ?_⟩
      intro x hx y hy
      obtain ⟨d, hd, hyd⟩ := List.mem_flatMap.1 hy
      obtain ⟨a, b, ha, -, hR⟩ := h.2.2.mem hd
      exact UInt64.le_trans (h.2.1.bound x hx).2 (UInt64.le_trans ha (hR.bound y hyd).1)

theorem Ordered.sorted {s : Shape} {lo hi : UInt64} (h : Ordered lo hi s) :
    s.entries.Pairwise fun x y => x.key ≤ y.key := by
  induction s using induct generalizing lo hi with
  | leaf p l =>
    rw [ordered_leaf] at h
    simpa [Leaf.keys, List.pairwise_map] using h.1
  | branch p keys kids ih =>
    rw [ordered_branch] at h
    rw [entries_branch]
    exact sorted_of_between h fun c hc _ _ hR => ih c hc hR

end Shape

end PagedTree
