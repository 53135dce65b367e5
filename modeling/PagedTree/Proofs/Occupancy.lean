import PagedTree.Proofs.Room

/-! # Which nodes may be empty

Erasing never merges nodes: a leaf gives way once it is empty, and a branch once it has no separator.
What an erasure hands back to the branch above may still be one of the two, and the branch repairs it.
Nobody repairs the root, so it may be an empty leaf or a branch without separators, over one child.
-/
namespace PagedTree

namespace Shape

/-- No leaf of the tree is empty and no branch is without separators. -/
def Solid (s : Shape) : Prop := ∀ t ∈ s.parts, t.node.Stocked

/-- A solid tree, or a leaf that may be empty. -/
def Firm (s : Shape) : Prop := s.Solid ∨ ∃ p l, s = .leaf p l

/-- What an erasure may leave of a firm tree. -/
inductive Worn : Shape → Prop where
  | firm {s : Shape} : s.Firm → Worn s
  | lone {p : PageNo} {c : Shape} : c.Solid → Worn (.branch p [] [c])

/-- The tree on a root page between two calls. -/
inductive Trim : Shape → Prop where
  | firm {s : Shape} : s.Firm → Trim s
  | lone {p : PageNo} {c : Shape} : c.Firm → Trim (.branch p [] [c])

section
variable {p m : PageNo} {l : Leaf} {keys : List UInt64} {kids : List Shape} {s c : Shape}

@[simp] theorem solid_leaf : (leaf p l).Solid ↔ l.entries ≠ [] := by
  simp [Solid, node, NodeOf.Stocked]

@[simp] theorem solid_branch : (branch p keys kids).Solid ↔ keys ≠ [] ∧ ∀ c ∈ kids, c.Solid :=
  forall_mem_parts_branch

theorem Solid.moveTo (h : s.Solid) : (s.moveTo m).Solid := by
  cases s with
  | leaf p l => exact solid_leaf.2 (solid_leaf.1 h)
  | branch p keys kids => exact solid_branch.2 (solid_branch.1 h)

theorem Firm.leaf (p : PageNo) (l : Leaf) : (Shape.leaf p l).Firm := .inr ⟨p, l, rfl⟩

theorem Firm.branch (h : (Shape.branch p keys kids).Firm) : keys ≠ [] ∧ ∀ c ∈ kids, c.Solid := by
  rcases h with h | ⟨q, l, h⟩
  · exact solid_branch.1 h
  · cases h

theorem Firm.part {t : Shape} (h : s.Firm) (ht : t ∈ s.parts) :
    t.node.Stocked ∨ t = s ∧ ∃ p l, s = .leaf p l := by
  rcases h with h | ⟨p, l, rfl⟩
  · exact .inl (h t ht)
  · exact .inr ⟨by simpa using ht, p, l, rfl⟩

theorem Worn.trim (h : s.Worn) : s.Trim := by
  cases h with
  | firm h => exact .firm h
  | lone h => exact .lone (.inl h)

/-- A branch over solid children may lack its last separator. -/
theorem Worn.of_kids (hlen : kids.length = keys.length + 1) (h : ∀ c ∈ kids, c.Solid) :
    (branch p keys kids).Worn := by
  by_cases hkeys : keys = []
  · subst hkeys
    obtain ⟨c, rfl⟩ := List.length_eq_one_iff.1 hlen
    exact .lone (h c List.mem_cons_self)
  · exact .firm (.inl (solid_branch.2 ⟨hkeys, h⟩))

theorem Worn.solid (h : s.Worn) (hs : s.node.Stocked) : s.Solid := by
  cases h with
  | firm h =>
    rcases h with h | ⟨p, l, rfl⟩
    · exact h
    · exact solid_leaf.2 hs
  | lone => exact absurd rfl hs

theorem Worn.only (h : (branch p [] [c]).Worn) : c.Solid := by
  cases h with
  | firm h => exact absurd rfl h.branch.1
  | lone h => exact h

/-- Only the root may be without separators. -/
theorem Trim.keys_ne_nil (h : s.Trim) (hpart : branch p keys kids ∈ s.parts) (hp : p ≠ s.page) :
    keys ≠ [] := by
  have hfirm : ∀ {r : Shape}, r.Firm → branch p keys kids ∈ r.parts → keys ≠ [] := by
    intro r hr ht
    rcases hr.part ht with hstocked | ⟨rfl, q, l, he⟩
    · exact hstocked
    · cases he
  cases h with
  | firm h => exact hfirm h hpart
  | @lone q c h =>
    rw [parts_branch, List.flatMap_singleton, List.mem_cons] at hpart
    rcases hpart with he | hpart
    · cases he
      exact absurd rfl hp
    · exact hfirm h hpart

/-- An empty leaf has no other beside it. -/
theorem Trim.empty_leaf (h : s.Trim) (hpart : leaf p l ∈ s.parts) (hl : l.entries = []) :
    s = leaf p l ∨ s = branch s.page [] [leaf p l] := by
  have hfirm : ∀ {r : Shape}, r.Firm → leaf p l ∈ r.parts → r = leaf p l := by
    intro r hr ht
    rcases hr.part ht with hstocked | ⟨he, -⟩
    · exact absurd hl hstocked
    · exact he.symm
  cases h with
  | firm h => exact .inl (hfirm h hpart)
  | @lone q c h =>
    rw [parts_branch, List.flatMap_singleton, List.mem_cons] at hpart
    rcases hpart with he | hpart
    · cases he
    · exact .inr (by rw [hfirm h hpart, page_branch])

/-- The rightmost leaf is empty only if the whole tree is. -/
theorem Trim.entries_eq_nil (h : s.Trim) (hlast : s.lastLeafSize = 0) : s.entries = [] := by
  rcases List.eq_nil_or_concat s.leaves with hleaves | ⟨ls, x, hleaves⟩
  · rw [entries_eq, hleaves, List.flatMap_nil]
  · rw [List.concat_eq_append] at hleaves
    have hempty : x.2.entries = [] := by
      simpa [lastLeafSize, hleaves] using hlast
    rcases h.empty_leaf (mem_parts_of_mem_leaves (x := x) (by simp [hleaves])) hempty with
      he | he <;> rw [he] <;> simp [hempty]

end

end Shape

/-! ## Inserting -/

section
variable {e : Entry} {s s' : Shape} {fs gs : List PageNo} {g g' : Growth}
  {ws vs : List (PageNo × Node)} {p : PageNo} {ks ls : List UInt64} {cs ds : List Shape}

theorem LeafInserted.solid {l : Leaf} (h : LeafInserted e p l fs g ws) : ∀ t ∈ g.trees, t.Solid := by
  cases h with
  | fits =>
    have hne : (l.insert e).entries ≠ [] := List.ne_nil_of_mem (Leaf.mem_insert.2 (.inl rfl))
    simpa [Growth.trees] using hne
  | splits hfull hsplit =>
    have hfull' : order ≤ (l.insert e).entries.length := of_decide_eq_true hfull
    have hne := Leaf.nonempty_split hsplit (Nat.le_trans (by decide) hfull')
    simpa [Growth.trees] using hne

/-- A branch has a separator again when it takes one up. -/
theorem Absorbed.solid (h : Absorbed p ks ls cs ds g gs g' vs)
    (hrow : ∀ t ∈ cs ++ (g.trees ++ ds), t.Solid) : (∀ t ∈ g'.trees, t.Solid) ∨
      ks ++ ls = [] ∧ ∃ c, g = .whole c ∧ g' = .whole (.branch p (ks ++ ls) (cs ++ c :: ds)) := by
  cases h with
  | whole c =>
    by_cases hkeys : ks ++ ls = []
    · exact .inr ⟨hkeys, c, rfl, rfl⟩
    · exact .inl (Growth.forall_mem_whole.2 (Shape.solid_branch.2 ⟨hkeys, hrow⟩))
  | fits => exact .inl (Growth.forall_mem_whole.2 (Shape.solid_branch.2 ⟨by simp, hrow⟩))
  | @splits a b q key mid lks rks lcs rcs _ htrees _ _ _ hlks hrks =>
    have hall : ∀ t ∈ lcs ++ rcs, t.Solid := by
      rw [htrees]
      exact hrow
    obtain ⟨hleft, hright⟩ := List.forall_mem_append.1 hall
    exact .inl (Growth.forall_mem_halves.2
      ⟨Shape.solid_branch.2 ⟨hlks, hleft⟩, Shape.solid_branch.2 ⟨hrks, hright⟩⟩)
  | full => exact .inl Growth.forall_mem_stopped
  | stopped => exact .inl Growth.forall_mem_stopped

/-- A firm tree grows into solid ones. -/
theorem Inserted.solid (h : Inserted e s fs g ws) (hs : s.Firm) : ∀ t ∈ g.trees, t.Solid := by
  induction h with
  | leaf h => exact h.solid
  | full => exact Growth.forall_mem_stopped
  | @branch p ks ls cs ds c fs gs g g' ws vs _ _ _ habs ih =>
    obtain ⟨hkeys, hkids⟩ := hs.branch
    have hrow := forall_mem_replace hkids (ih (.inl (hkids c (by simp))))
    exact (habs.solid hrow).resolve_right fun hnone => hkeys hnone.1

/-- A branch without separators takes up the halves of its child, or the child stays the only one. -/
theorem Inserted.trim (h : Inserted e s fs g ws) (hs : s.Trim) :
    (∀ t ∈ g.trees, t.Solid) ∨ ∃ s', g = .whole s' ∧ s'.Trim := by
  cases hs with
  | firm hs => exact .inl (h.solid hs)
  | @lone p c hc =>
    generalize hkeys : ([] : List UInt64) = keys at h
    generalize hkids : [c] = kids at h
    cases h with
    | @branch _ ks ls cs ds c' fs gs g₀ _ ws vs hlen _ hchild habs =>
      obtain ⟨rfl, rfl⟩ := List.append_eq_nil_iff.1 hkeys.symm
      obtain rfl : cs = [] := List.length_eq_zero_iff.1 hlen
      obtain ⟨rfl, rfl⟩ : c = c' ∧ ds = [] := by simpa using hkids
      have hsolid := hchild.solid hc
      rcases habs.solid (by simpa using hsolid) with hall | ⟨-, d, rfl, rfl⟩
      · exact .inl hall
      · exact .inr ⟨_, rfl, .lone (.inl (Growth.forall_mem_whole.1 hsolid))⟩

theorem Growth.solid_raised {a b : Shape} {key : UInt64} {m : PageNo}
    (h : ∀ t ∈ (Growth.halves a key b).trees, t.Solid) :
    (Shape.branch p [key] [a.moveTo m, b]).Solid := by
  obtain ⟨ha, hb⟩ := Growth.forall_mem_halves.1 h
  exact Shape.solid_branch.2 ⟨by simp, by simpa using And.intro ha.moveTo hb⟩

theorem Insertion.trim (h : Insertion e s fs (.whole s') ws) (hs : s.Trim) : s'.Trim := by
  cases h with
  | whole h =>
    rcases h.trim hs with hsolid | ⟨s₁, he, htrim⟩
    · exact .firm (.inl (Growth.forall_mem_whole.1 hsolid))
    · cases he
      exact htrim
  | @raised fs a b key m ws h =>
    rcases h.trim hs with hsolid | ⟨s₁, he, -⟩
    · exact .firm (.inl (Growth.solid_raised hsolid))
    · cases he

theorem Insertion.solid (h : Insertion e s fs (.whole s') ws) (hs : s.Firm) : s'.Solid := by
  cases h with
  | whole h => exact Growth.forall_mem_whole.1 (h.solid hs)
  | raised h => exact Growth.solid_raised (h.solid hs)

end

/-! ## Erasing -/

section
variable {p : PageNo} {ks ls : List UInt64} {cs ds : List Shape} {c s s' : Shape} {key : UInt64}
  {v : ByteArray} {ws vs : List (PageNo × Node)}

/-- A branch repairs the child that comes back to it. -/
theorem Tidied.worn {c₀ : Shape} (h : Tidied p cs ks ls ds c vs s') (hcs : cs.length = ks.length)
    (hds : ds.length = ls.length) (hkeys : ks ++ ls ≠ []) (hc : c.Worn)
    (hkids : ∀ t ∈ cs ++ c₀ :: ds, t.Solid) : s'.Worn := by
  have hreplaced : ∀ d : Shape, d.Solid → (Shape.branch p (ks ++ ls) (cs ++ d :: ds)).Worn := by
    intro d hd
    refine .of_kids ?_ (forall_mem_replace hkids (List.forall_mem_singleton.2 hd))
    simp only [List.length_append, List.length_cons]
    omega
  cases h with
  | kept hstocked => exact hreplaced c (hc.solid hstocked)
  | only => exact absurd rfl hkeys
  | unlink =>
    refine .of_kids ?_ (forall_mem_replace hkids (List.forall_mem_nil _))
    simp only [List.length_append, List.length_cons] at hds ⊢
    omega
  | unlinkLast =>
    exact .of_kids (by simpa using hcs) fun t ht => hkids t (List.mem_append_left _ ht)
  | @collapse q _ _ _ d => exact hreplaced d hc.only

theorem Erased.worn (h : Erased key v s ws s') (hs : s.Firm) (hsmall : s.Small) : s'.Worn := by
  induction h with
  | @leaf p l => exact .firm (.leaf p _)
  | @branch p ks ls cs ds c c' s' ws vs hcs _ _ htidied ih =>
    obtain ⟨hkeys, hkids⟩ := hs.branch
    obtain ⟨⟨hlen, -⟩, hsmallKids⟩ := Shape.small_branch.1 hsmall
    simp only [List.length_append, List.length_cons] at hlen
    have hworn := ih (.inl (hkids c (by simp))) (hsmallKids c (by simp))
    exact htidied.worn hcs (by omega) hkeys hworn hkids

theorem Tidied.of_keyless (h : Tidied p cs ks ls ds c vs s') (hkeys : ks ++ ls = []) :
    ∃ d, s' = .branch p [] (cs ++ d :: ds) ∧ (c.Worn → d.Firm) := by
  cases h with
  | kept hstocked => exact ⟨c, by rw [hkeys], fun hc => .inl (hc.solid hstocked)⟩
  | only => exact ⟨_, rfl, fun _ => .leaf _ _⟩
  | unlink | unlinkLast => simp at hkeys
  | @collapse q _ _ _ d => exact ⟨d, by rw [hkeys], fun hc => .inl hc.only⟩

/-- A root without separators keeps its child, even as an empty leaf. -/
theorem Erased.trim (h : Erased key v s ws s') (hs : s.Trim) (hsmall : s.Small) : s'.Trim := by
  cases hs with
  | firm hs => exact (h.worn hs hsmall).trim
  | @lone p c hc =>
    generalize hkeys : ([] : List UInt64) = keys at h
    generalize hkids : [c] = kids at h
    cases h with
    | @branch _ ks ls cs ds c₁ c' _ ws vs hcs _ hchild htidied =>
      obtain ⟨d, rfl, hd⟩ := htidied.of_keyless hkeys.symm
      obtain rfl : cs = [] := by
        rw [(List.append_eq_nil_iff.1 hkeys.symm).1] at hcs
        exact List.length_eq_zero_iff.1 hcs
      obtain ⟨rfl, rfl⟩ : c = c₁ ∧ ds = [] := by simpa using hkids
      exact .lone (hd (hchild.worn hc ((Shape.small_branch.1 hsmall).2 c (by simp))))

end

/-! ## Roots that have split -/

/-- The root is not a leaf. -/
def Shape.Forked (s : Shape) : Prop := ∃ p keys kids, s = .branch p keys kids

section
variable {s s' : Shape} {fs : List PageNo} {ws : List (PageNo × Node)}

/-- There are more entries than a leaf has. -/
theorem Shape.Small.forked (h : s.Small) (hmany : order ≤ s.entries.length) : s.Forked := by
  cases s with
  | leaf p l =>
    rw [Shape.entries_leaf] at hmany
    exact absurd (Shape.small_leaf.1 h).1 (Nat.not_lt.2 hmany)
  | branch p keys kids => exact ⟨p, keys, kids, rfl⟩

theorem Insertion.forked {e : Entry} (h : Insertion e s fs (.whole s') ws) (hs : s.Forked) :
    s'.Forked := by
  obtain ⟨p, keys, kids, rfl⟩ := hs
  cases h with
  | whole h =>
    cases h with
    | branch _ _ _ habs => cases habs <;> exact ⟨_, _, _, rfl⟩
  | raised => exact ⟨_, _, _, rfl⟩

theorem ErasureStep.forked {key : Option UInt64} {w : PageNo × Node} (h : ErasureStep key s w s')
    (hs : s.Forked) : s'.Forked := by
  obtain ⟨p, keys, kids, rfl⟩ := hs
  cases h <;> exact ⟨_, _, _, rfl⟩

theorem Erasure.forked {key : UInt64} (h : Erasure key s ws s') (hs : s.Forked) : s'.Forked := by
  induction h with
  | take hstep => exact hstep.forked hs
  | tidy _ hstep ih => exact hstep.forked ih

/-- No request makes a root that has split a leaf again. -/
theorem Tree.Changed.forked (h : Changed s fs ws s') (hs : s.Forked) : s'.Forked := by
  cases h with
  | nothing => exact hs
  | insertion _ hins => exact hins.forked hs
  | erasure herased => exact herased.forked hs

end

/-! ## Throughout a life -/

namespace Tree

variable {t t' : Tree} {s : Shape} {root : PageNo}

theorem Runs.forked {rs : List Request} (hruns : t.Runs rs t') (h : t.Represents s)
    (hs : s.Forked) : ∃ s', t'.Represents s' ∧ s'.Forked := by
  induction hruns generalizing s with
  | nil => exact ⟨s, h, hs⟩
  | cons hrun _ ih =>
    obtain ⟨fs, ws, s', hchanged, -, hrep⟩ := h.request hrun
    exact ih hrep (hchanged.forked hs)

/-- How many separators and entries the nodes of a tree have. -/
structure Occupied (root : PageNo) (t : Tree) (s : Shape) : Prop extends Displays root t s where
  branches : ∀ p keys kids, .branch p keys kids ∈ s.parts → kids.length = keys.length + 1 ∧
    keys.length ≤ order - 1 ∧ (p ≠ root → 1 ≤ keys.length)
  leaves : ∀ p l, .leaf p l ∈ s.parts → l.entries.length ≤ order - 1 ∧ (l.entries = [] →
    s = .leaf p l ∨ s = .branch root [] [.leaf p l])
  rightmost : ∃ n t', lastLeafSize.result t = (.ok n, t') ∧ (n = 0 → t.Shows [])

theorem Represents.occupied (h : t.Represents s) (htrim : s.Trim) : Occupied t.root t s := by
  obtain ⟨t', hlast, -⟩ := h.lastLeafSize_ok
  refine ⟨h.displays, ?_, ?_, s.lastLeafSize, t', hlast, ?_⟩
  · intro p keys kids hpart
    obtain ⟨hlen, hmost⟩ := h.stands.small.branch_part hpart
    exact ⟨hlen, hmost, fun hp => List.length_pos_iff.2 (htrim.keys_ne_nil hpart (h.page ▸ hp))⟩
  · intro p l hpart
    exact ⟨h.stands.small.leaf_part hpart, fun hl => h.page ▸ htrim.empty_leaf hpart hl⟩
  · intro hzero
    exact htrim.entries_eq_nil hzero ▸ h.shows

/-- No request leaves a node empty but the root and its only child. -/
theorem occupancy (h : Reached root t) : ∃ s, Occupied root t s := by
  obtain ⟨rs, hrs⟩ := h.governed
  obtain ⟨rfl, s, hrep, htrim⟩ := hrs.represents (I := fun _ s => s.Trim)
    (.firm (.leaf root _)) fun htrim hrep _ _ hmakes => by
      cases hmakes with
      | inserted _ hins => exact hins.trim htrim
      | erased herased => exact herased.trim htrim hrep.stands.small
      | missed | read => exact htrim
  exact ⟨s, hrep.occupied htrim⟩

/-- Entries that have come and gone leave the root with one empty leaf if it had split. -/
theorem exists_emptied {es : List Entry} (hmany : order ≤ es.length) (hlen : es.length ≤ 15)
    (hv : ∀ e ∈ es, e.value.size ≤ maxValueSize) : ∃ t s, Reached 0 t ∧ t.Represents s ∧
      s.Forked ∧ s.entries = [] := by
  obtain ⟨rs, t, s, hrs, hrep, hperm⟩ :=
    @exists_filled (fun _ _ => True) es hlen hv fun _ _ _ => trivial
  have hforked := hrep.stands.small.forked (hperm.length_eq ▸ hmany)
  have hkeys : (s.entries.map Entry.key).Perm (s.entries.map Entry.key ++ []) := by simp
  obtain ⟨t', s', hruns, hrep', -, hrest⟩ := hrep.erase_all hkeys
  obtain ⟨s'', hrep'', hforked'⟩ := hruns.forked hrep hforked
  have hreached := hruns.reached hrs.reached
  have hsame : s'' = s' :=
    hreached.eq_of_on hrep' hrep''.stands.on (hrep''.page.trans hreached.represents.1)
  exact ⟨t', s', hreached, hrep', hsame ▸ hforked', by simpa using hrest⟩

/-- A tree of several levels after some erasures, and one from which everything has been erased. -/
theorem occupancy_of_erased : (∃ t s, Reached 0 t ∧
      s.entries = ([1, 2, 3, 4, 5, 6, 7, 8, 9, 10, 11, 12, 13].map fun key => ⟨key, .empty⟩) ∧
      order < s.leaves.length ∧ Occupied 0 t s) ∧
    ∃ t p l, Reached 0 t ∧ l.entries = [] ∧ Occupied 0 t (.branch 0 [] [.leaf p l]) := by
  constructor
  · obtain ⟨t, s, hreached, hrep, hentries, hleaves⟩ :=
      @exists_keys [0, 14] [1, 2, 3, 4, 5, 6, 7, 8, 9, 10, 11, 12, 13] (by decide) (by decide)
    obtain ⟨s', hoccupied⟩ := occupancy hreached
    obtain rfl := hreached.eq_of_on hrep hoccupied.on hoccupied.page
    exact ⟨t, s', hreached, hentries, hleaves order (by decide), hoccupied⟩
  · obtain ⟨t, s, hreached, hrep, ⟨q, keys, kids, hbranch⟩, hempty⟩ :=
      @exists_emptied ([1, 2, 3, 4, 5, 6, 7, 8].map fun key => ⟨key, .empty⟩) (by decide)
        (by decide) (by simp)
    obtain ⟨s', hoccupied⟩ := occupancy hreached
    obtain rfl := hreached.eq_of_on hrep hoccupied.on hoccupied.page
    obtain ⟨d, x, xs, hleaves, -⟩ := hrep.stands.ordered.leftmost hrep.stands.on
    have hx : x.2.entries = [] := by
      rw [Shape.entries_eq, hleaves] at hempty
      simpa using (List.append_eq_nil_iff.1 hempty).1
    have hpart := Shape.mem_parts_of_mem_leaves (s := s') (x := x) (by simp [hleaves])
    rcases (hoccupied.leaves x.1 x.2 hpart).2 hx with hleaf | hlone
    · cases hleaf.symm.trans hbranch
    · exact ⟨t, x.1, x.2, hreached, hx, hlone ▸ hoccupied⟩

end Tree

end PagedTree
