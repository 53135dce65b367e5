import PagedTree.Proofs.Room

/-! # What the file says of a tree

The nodes on the file are those of an ordered tree, whose leaves are linked from left to right. A handle
holds these nodes and no others, so it answers as a fresh one does.
-/
namespace PagedTree.Tree

variable {t u : Tree} {s : Shape} {root : PageNo} {chain : List (PageNo × Leaf)}

/-- The tree on the root page, as it stands on the file and as a walk through its child slots shows it,
and the chain of links from its leftmost leaf, as a scan shows it. -/
structure OrderedAndChained (root : PageNo) (t : Tree) (s : Shape)
    (chain : List (PageNo × Leaf)) : Prop where
  page : s.page = root
  on : s.On t.store.view
  dumped : ∃ t', dump.result t = (.ok (s.render 0), t')
  ordered : s.Ordered 0 topKey
  separated : ∀ p keys kids, .branch p keys kids ∈ s.parts → kids.length = keys.length + 1 ∧
    keys.Pairwise (· ≤ ·) ∧ ∀ (i : Nat) (c : Shape), kids[i]? = some c → ∀ e ∈ c.entries,
      (∀ k ∈ keys.take i, k ≤ e.key) ∧ ∀ k ∈ keys.drop i, e.key ≤ k
  linked : ∃ d f, Leftmost t.store.view d root f ∧ Linked t.store.view (some f) chain none
  scanned : t.Shows (chain.flatMap (·.2.entries))
  entries : chain.flatMap (·.2.entries) = s.entries
  distinct : (chain.map Prod.fst).Nodup
  leaves : s.leaves.Sublist chain
  others : ∀ x ∈ chain, x ∈ s.leaves ∨ x.2.entries = []

theorem Represents.orderedAndChained (h : t.Represents s) :
    ∃ chain, OrderedAndChained t.root t s chain := by
  obtain ⟨t', hdump, -⟩ := h.dump_ok
  obtain ⟨chain, hpadded, hlinked⟩ := h.stands.chained
  obtain ⟨d, x, ls, hleaves, hdown⟩ := h.stands.ordered.leftmost h.stands.on
  rw [h.page] at hdown
  have hfirst : s.leaves.head?.map Prod.fst = some x.1 := by rw [hleaves]; rfl
  refine ⟨chain, h.page, h.stands.on, ⟨t', hdump⟩, h.stands.ordered, ?_,
    ⟨d, x.1, hdown, hfirst ▸ hlinked⟩, ?_, hpadded.entries, hlinked.nodup, hpadded.sublist,
    hpadded.mem_or_empty⟩
  · intro p keys kids hpart
    obtain ⟨a, b, hordered⟩ := h.stands.ordered.part hpart
    exact hordered.separated
  · rw [hpadded.entries]
    exact h.shows

/-- Child slots and links stay in step throughout the life of a tree. -/
theorem ordering_and_chain (h : Reached root t) : ∃ s chain, OrderedAndChained root t s chain := by
  obtain ⟨rfl, s, hrep⟩ := h.represents
  exact ⟨s, hrep.orderedAndChained⟩

/-- Thirteen keys, six of them equal, take more leaves than one branch has, also when others have been
erased. -/
theorem ordering_and_chain_of_thirteen : ∃ t s chain, Reached 0 t ∧
    s.entries = ([1, 2, 3, 5, 5, 5, 5, 5, 5, 7, 8, 9, 10].map fun key => ⟨key, .empty⟩) ∧
    order < s.leaves.length ∧ OrderedAndChained 0 t s chain := by
  obtain ⟨t, s, hreached, hrep, hentries, hleaves⟩ :=
    @exists_keys [4, 6] [1, 2, 3, 5, 5, 5, 5, 5, 5, 7, 8, 9, 10] (by decide) (by decide)
  obtain ⟨s', chain, hordered⟩ := ordering_and_chain hreached
  obtain rfl := hreached.eq_of_on hrep hordered.on hordered.page
  exact ⟨t, s', chain, hreached, hentries, hleaves order (by decide), hordered⟩

/-! ## Handles and the file -/

/-- A call ends well on both handles and answers the same. -/
def Alike {α : Type} (t u : Tree) (c : Call Tree α) : Prop :=
  ∃ a t' u', c.result t = (.ok a, t') ∧ c.result u = (.ok a, u')

/-- Every node that the handle holds reads back from its page with its keys and values and its link,
or with its keys and the pages of its children. A fresh handle on the root page answers alike. -/
structure WrittenThrough (root : PageNo) (t : Tree) : Prop where
  root_eq : t.root = root
  agrees : ∀ (id : NodeId) (r : Resident), t.resident.nodes[id]? = some r → ∃ n,
    t.resident.onPage? r.node = some n ∧ (readNode r.page).result t.store = (.ok n, t.store)
  fresh : ∃ u, (load root).result t.store = (.ok u, t.store) ∧ (∀ key, t.Alike u (get? key)) ∧
    t.Alike u scan ∧ t.Alike u dump ∧ t.Alike u lastLeafSize ∧ t.Alike u greatestKey

theorem Represents.alike {α : Type} {c : Call Tree α} {a : α} (h : t.Represents s)
    (h' : u.Represents s) (hc : ∀ {v : Tree}, v.Represents s →
      ∃ v', c.result v = (.ok a, v') ∧ v.Advanced [] [] v') : t.Alike u c := by
  obtain ⟨t', ht, -⟩ := hc h
  obtain ⟨u', hu, -⟩ := hc h'
  exact ⟨a, t', u', ht, hu⟩

theorem Represents.writtenThrough (h : t.Represents s) : WrittenThrough t.root t := by
  refine ⟨rfl, ?_, ?_⟩
  · intro id r hr
    obtain ⟨n, hn, hview⟩ := h.coherent.agrees id r hr
    exact ⟨n, hn, readNode_ok hview⟩
  · obtain ⟨u, hrun, -, -, hrep⟩ := h.refetch
    exact ⟨u, hrun, fun key => h.alike hrep fun hv => hv.get?_ok key, h.alike hrep Represents.scan_ok,
      h.alike hrep Represents.dump_ok, h.alike hrep Represents.lastLeafSize_ok,
      h.alike hrep Represents.greatestKey_ok⟩

/-- Throughout the life of a tree every node in memory, also one that the tree has dropped, agrees
with its page, and the root page stays. -/
theorem write_through (h : Reached root t) : WrittenThrough root t := by
  obtain ⟨rfl, s, hrep⟩ := h.represents
  exact hrep.writtenThrough

/-- A tree of several levels, the first and the last keys of which have been erased. -/
theorem write_through_of_erased : ∃ t s, Reached 0 t ∧ Displays 0 t s ∧
    s.entries = ([2, 3, 4, 5, 6, 7, 8, 9, 10, 11, 12, 13, 14].map fun key => ⟨key, .empty⟩) ∧
    order < s.leaves.length ∧ WrittenThrough 0 t := by
  obtain ⟨t, s, hreached, hrep, hentries, hleaves⟩ :=
    @exists_keys [1, 15] [2, 3, 4, 5, 6, 7, 8, 9, 10, 11, 12, 13, 14] (by decide) (by decide)
  have hdisplays := hreached.represents.1 ▸ hrep.displays
  exact ⟨t, s, hreached, hdisplays, hentries, hleaves order (by decide), write_through hreached⟩

end PagedTree.Tree
