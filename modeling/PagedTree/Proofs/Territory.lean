import PagedTree.Proofs.Standing

/-! # What a root leads to

A page is reachable from a root if child pointers and links lead there. From the root of a tree that
stands on a file these are the pages of the tree and those of its chain, also of the leaves that it has
dropped. Each of them holds a node, so nothing that lies on other pages matters to the tree.
-/
namespace PagedTree

/-- The pages that a node leads to: its children, or the next leaf. -/
def NodeOf.links : Node → List PageNo
  | .leaf l => l.next.toList
  | .branch b => b.children

namespace Pages

inductive Reachable (P : Pages) (root : PageNo) : PageNo → Prop where
  | root : Reachable P root root
  | link {p q : PageNo} {n : Node} : Reachable P root p → P p = some n → q ∈ n.links →
      Reachable P root q

namespace Reachable

variable {P Q : Pages} {root p q : PageNo}

theorem trans (h : P.Reachable root p) (h' : P.Reachable p q) : P.Reachable root q := by
  induction h' with
  | root => exact h
  | link _ hn hq ih => exact .link ih hn hq

/-- A page without a node leads nowhere, and neither does a node without links. -/
theorem eq_root (h : P.Reachable root p) (hroot : ∀ n, P root = some n → n.links = []) :
    p = root := by
  induction h with
  | root => rfl
  | link _ hn hq ih =>
    rw [hroot _ (ih ▸ hn)] at hq
    simp at hq

theorem carry (h : P.Reachable root p)
    (hPQ : ∀ q n, P.Reachable root q → P q = some n → Q q = some n) : Q.Reachable root p := by
  induction h with
  | root => exact .root
  | link hreach hn hq ih => exact .link ih (hPQ _ _ hreach hn) hq

/-- Where every reachable page keeps its node, no other page becomes reachable. -/
theorem carry_back (h : Q.Reachable root p) (hP : ∀ q, P.Reachable root q → ∃ n, P q = some n)
    (hPQ : ∀ q n, P.Reachable root q → P q = some n → Q q = some n) : P.Reachable root p := by
  induction h with
  | root => exact .root
  | link _ hn hq ih =>
    obtain ⟨m, hm⟩ := hP _ ih
    obtain rfl := Option.some.inj ((hPQ _ m ih hm).symm.trans hn)
    exact .link ih hm hq

end Reachable

end Pages

namespace Linked

variable {P : Pages} {start : Option PageNo} {xs : List (PageNo × Leaf)} {root : PageNo}

theorem next_mem (h : Linked P start xs none) {x : PageNo × Leaf} (hx : x ∈ xs) {q : PageNo}
    (hq : x.2.next = some q) : ∃ y ∈ xs, y.1 = q := by
  obtain ⟨as, bs, rfl⟩ := List.append_of_mem hx
  obtain ⟨mid, -, hfrom⟩ := append.1 h
  have hlinks := hfrom.2.2
  rw [hq] at hlinks
  cases bs with
  | nil => exact absurd hlinks (Option.some_ne_none q)
  | cons y ys => exact ⟨y, by simp, (Option.some.inj hlinks.1).symm⟩

theorem reachable (h : Linked P start xs none)
    (hstart : ∀ p, start = some p → P.Reachable root p) : ∀ x ∈ xs, P.Reachable root x.1 := by
  induction xs generalizing start with
  | nil => simp
  | cons x xs ih =>
    obtain ⟨hx, hl, hlinks⟩ := h
    have hreach := hstart x.1 hx
    intro y hy
    rcases List.mem_cons.1 hy with rfl | hy
    · exact hreach
    · refine ih hlinks (fun p hp => .link hreach hl ?_) y hy
      simp [NodeOf.links, hp]

end Linked

namespace Shape

/-- The pages that the tree is on, and those that its nodes lead to. -/
def reach (s : Shape) : List PageNo := s.parts.flatMap fun c => c.page :: c.node.links

section
variable {s c : Shape} {p q : PageNo} {l : Leaf} {keys : List UInt64} {kids : List Shape} {P Q : Pages}

theorem pages_subset_reach (h : q ∈ s.pages) : q ∈ s.reach := by
  obtain ⟨c, hc, rfl⟩ := List.mem_map.1 h
  exact List.mem_flatMap.2 ⟨c, hc, List.mem_cons_self⟩

@[simp] theorem mem_reach_leaf : q ∈ (leaf p l).reach ↔ q = p ∨ l.next = some q := by
  simp [reach, node, NodeOf.links]

@[simp] theorem mem_reach_branch :
    q ∈ (branch p keys kids).reach ↔ q = p ∨ ∃ c ∈ kids, q ∈ c.reach := by
  have htop : (∃ c ∈ kids, c.page = q) → ∃ c ∈ kids, q ∈ c.reach := by
    rintro ⟨c, hc, rfl⟩
    exact ⟨c, hc, pages_subset_reach c.page_mem_pages⟩
  have hbelow : q ∈ kids.flatMap reach ↔ ∃ c ∈ kids, q ∈ c.reach := List.mem_flatMap
  have hreach : (branch p keys kids).reach =
      p :: (kids.map page ++ kids.flatMap reach) := by
    rw [reach, parts_branch, List.flatMap_cons, List.flatMap_assoc]
    rfl
  rw [hreach, List.mem_cons, List.mem_append, List.mem_map, hbelow]
  exact or_congr_right (or_iff_right_of_imp htop)

theorem kid_mem_parts (h : branch p keys kids ∈ s.parts) (hc : c ∈ kids) : c ∈ s.parts := by
  induction s using induct with
  | leaf => simp at h
  | branch q keys' kids' ih =>
    rw [parts_branch, List.mem_cons, List.mem_flatMap] at h ⊢
    rcases h with heq | ⟨d, hd, hpart⟩
    · cases heq
      exact .inr ⟨c, hc, c.self_mem_parts⟩
    · exact .inr ⟨d, hd, ih d hd hpart⟩

theorem On.reachable (h : s.On P) (hq : q ∈ s.reach) : P.Reachable s.page q := by
  induction s using induct with
  | leaf p l =>
    rcases mem_reach_leaf.1 hq with rfl | hnext
    · exact .root
    · exact .link .root (on_leaf.1 h) (by simp [NodeOf.links, hnext])
  | branch p keys kids ih =>
    obtain ⟨htop, hkids⟩ := on_branch.1 h
    rcases mem_reach_branch.1 hq with rfl | ⟨c, hc, hq⟩
    · exact .root
    · exact .trans (.link .root htop (List.mem_map_of_mem hc)) (ih c hc (hkids c hc) hq)

/-- Whatever is reachable is a page of the tree or on its chain. -/
theorem Stands.reachable_node (h : s.Stands P) (hq : P.Reachable s.page q) :
    ∃ n, P q = some n := by
  obtain ⟨chain, hpadded, hlinked⟩ := h.chained
  suffices hplace : q ∈ s.pages ∨ ∃ x ∈ chain, x.1 = q by
    rcases hplace with hmem | ⟨x, hx, rfl⟩
    · obtain ⟨c, hc, rfl⟩ := List.mem_map.1 hmem
      exact ⟨_, h.on c hc⟩
    · exact ⟨_, hlinked.leaf hx⟩
  induction hq with
  | root => exact .inl s.page_mem_pages
  | @link p q n _ hn hlink ih =>
    rcases ih with hmem | ⟨x, hx, rfl⟩
    · obtain ⟨c, hc, rfl⟩ := List.mem_map.1 hmem
      obtain rfl := Option.some.inj ((h.on c hc).symm.trans hn)
      cases c with
      | leaf p l =>
        have hleaf : (p, l) ∈ s.leaves := List.mem_filterMap.2 ⟨_, hc, rfl⟩
        exact .inr (hlinked.next_mem (hpadded.sublist.subset hleaf) (Option.mem_toList.1 hlink))
      | branch p keys kids =>
        obtain ⟨d, hd, rfl⟩ := List.mem_map.1 hlink
        exact .inl (List.mem_map_of_mem (kid_mem_parts hc hd))
    · obtain rfl := Option.some.inj ((hlinked.leaf hx).symm.trans hn)
      exact .inr (hlinked.next_mem hx (Option.mem_toList.1 hlink))

/-- A tree does not see the pages that are not reachable from its root. -/
theorem Stands.carry (h : s.Stands P)
    (hPQ : ∀ q n, P.Reachable s.page q → P q = some n → Q q = some n) : s.Stands Q := by
  obtain ⟨chain, hpadded, hlinked⟩ := h.chained
  have hstart : ∀ p, s.leaves.head?.map Prod.fst = some p → P.Reachable s.page p := by
    intro p hp
    obtain ⟨x, hx, rfl⟩ := Option.map_eq_some_iff.1 hp
    obtain ⟨c, hc, hx⟩ := List.mem_filterMap.1 (List.mem_of_mem_head? hx)
    cases c with
    | leaf p l =>
      cases hx
      exact h.on.reachable (pages_subset_reach (List.mem_map_of_mem hc))
    | branch => cases hx
  have hchain := hlinked.reachable hstart
  refine ⟨h.on.mono fun q hq n => hPQ q n (h.on.reachable (pages_subset_reach hq)), h.distinct,
    h.ordered, h.small, chain, hpadded, hlinked.mono fun x hx => hPQ x.1 _ (hchain x hx)⟩

end

end Shape

end PagedTree
