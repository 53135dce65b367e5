import PagedTree.Proofs.Answers
import PagedTree.Proofs.Branches
import PagedTree.Proofs.RootGrowth
import PagedTree.Tree.Insert

/-! # What an insertion does to a handle and its file

An insertion runs as the relation between trees says: it asks for the pages and writes the nodes that
are listed there, and leaves a coherent handle. Where no page is left it ends with an error, and has
then done a first part of it.
-/
namespace PagedTree.Tree

variable {t t' : Tree} {id : NodeId} {p : PageNo} {s : Shape}

/-- What a call leaves that ends for want of a page. The handle has a tree in mind that the file has
not, and elsewhere what is on the file. -/
structure Stranded (t : Tree) (fs : List PageNo) (ws : List (PageNo × Node)) (held : Shape)
    (t' : Tree) : Prop where
  wrote : t.store.Wrote fs ws t'.store
  full : ¬t'.store.HasRoom
  pages : ∀ id p, t.resident.pageOf? id = some p → t'.resident.pageOf? id = some p
  rootId : t'.rootId = t.rootId
  mind : ∃ P, t'.Mirrors P ∧ held.On P ∧
    ∀ q ∉ held.pages, ∀ n, t'.store.view q = some n → P q = some n

theorem Stranded.after {u : Tree} {fs gs : List PageNo} {ws vs : List (PageNo × Node)} {held : Shape}
    (hadv : t.Advanced fs ws u) (h : u.Stranded gs vs held t') :
    t.Stranded (fs ++ gs) (ws ++ vs) held t' :=
  ⟨hadv.wrote.trans h.wrote, h.full, fun id p hp => h.pages id p (hadv.pages id p hp),
    h.rootId.trans hadv.rootId, h.mind⟩

theorem Stranded.root {fs : List PageNo} {ws : List (PageNo × Node)} {held : Shape}
    (h : t.Stranded fs ws held t') (ht : t.Coherent) : t'.root = t.root := by
  have hp := h.pages _ _ ht.rooted
  rw [Tree.root, h.rootId, hp]
  rfl

/-- A node that has been changed in memory and not been written. -/
theorem Coherent.strand (ht : t.Coherent) (hroom : ¬t.store.HasRoom)
    (hid : t.resident.pageOf? id = some s.page) {rn : NodeOf Slot}
    (hn : t.resident.onPage? rn = some s.node) (hfree : t.RootFree rn)
    (hon : s.On (t.store.view.set s.page s.node)) :
    t.Stranded [] [] s { t with resident := t.resident.put id rn } := by
  refine ⟨.refl _, hroom, ?_, rfl, _, ht.mirrors.put hid hn hfree, hon, ?_⟩
  · intro j q hj
    rwa [Arena.pageOf?_put]
  · intro q hq n hn
    rwa [Pages.set_other]
    rintro rfl
    exact hq s.page_mem_pages

/-- How a call ends that inserts below node `id`. -/
def Grew (t : Tree) (id : NodeId) (fs : List PageNo) (ws : List (PageNo × Node))
    (r : Except Interrupt (Option Split) × Tree) : Growth → Prop
  | .whole _ => ∃ t', r = (.ok none, t') ∧ t.Advanced fs ws t'
  | .halves _ key b => ∃ new t', r = (.ok (some ⟨key, id, new⟩), t') ∧ t.Advanced fs ws t' ∧
      t'.resident.pageOf? new = some b.page ∧ new ≠ t.rootId
  | .stopped _ held => ∃ t', r = (.error (.error .full), t') ∧ t.Stranded fs ws held t'

theorem Grew.trans {u : Tree} {fs gs : List PageNo} {ws vs : List (PageNo × Node)}
    {r : Except Interrupt (Option Split) × Tree} {g : Growth} (hadv : t.Advanced fs ws u)
    (h : u.Grew id gs vs r g) : t.Grew id (fs ++ gs) (ws ++ vs) r g := by
  cases g with
  | whole =>
    obtain ⟨t', hr, hadv'⟩ := h
    exact ⟨t', hr, hadv.trans hadv'⟩
  | halves =>
    obtain ⟨new, t', hr, hadv', hnew, hroot⟩ := h
    exact ⟨new, t', hr, hadv.trans hadv', hnew, hadv.rootId ▸ hroot⟩
  | stopped =>
    obtain ⟨t', hr, hstrand⟩ := h
    exact ⟨t', hr, hstrand.after hadv⟩

/-- A page more, with a node on it that the handle takes in. -/
theorem coherent_allocated (ht : t.Coherent) (hroom : t.store.HasRoom) {rn : NodeOf Slot} {n : Node}
    (hn : t.resident.onPage? rn = some n) (hfree : t.RootFree rn) {b : ByteArray}
    (hsize : b.size = pageSize) (hdecode : Node.decode (.ofNat t.store.pageCount) b = .ok n) :
    t.Advanced [.ofNat t.store.pageCount] [(.ofNat t.store.pageCount, n)]
      { t with
        resident := t.resident.add ⟨.ofNat t.store.pageCount, rn⟩
        store := t.store.grown.putPage (.ofNat t.store.pageCount) b } := by
  have hlt := PageStore.allocated_lt ht.sound hroom
  have hsound := PageStore.sound_grown ht.sound hroom
  obtain ⟨hwithin, hview⟩ := PageStore.view_allocated ht.sound hroom hsize hdecode
  have hgrown : Coherent
      { t with store := t.store.grown.putPage (.ofNat t.store.pageCount) b } :=
    ht.grow hsound hwithin
  exact ⟨.write (.allocate (.refl _) hroom) hlt hsize hdecode,
    hgrown.keep ht.pageOf?_ne hn hview hfree, fun _ _ => Arena.pageOf?_add, rfl,
    fun _ => PageStore.synced_putPage hsound⟩

/-- Both halves are in memory before either is written. -/
theorem putHalves_eq (hid : id < t.resident.size) (rn rl rr : NodeOf Slot) (key : UInt64)
    (right : PageNo) (s : PageStore) : (putHalves id right (rl, key, rr)).result
      { t with resident := t.resident.put id rn, store := s } =
    (do
      write t.resident.size
      write id
      return ⟨key, id, t.resident.size⟩ : Call Tree Split).result
        { t with resident := (t.resident.add ⟨right, rr⟩).put id rl, store := s } := by
  have hsizePut : (t.resident.put id rl).size = t.resident.size := Array.size_modify
  simp only [putHalves, Call.result_bind_ok (put_result rl), Arena.put_put,
    Call.result_bind_ok (keep_ok _), hsizePut, Arena.put_add hid]

/-- The right half goes onto a page of its own before the left one takes the place of the whole. -/
theorem putHalves_ok (rn : NodeOf Slot) (ht : t.Coherent) (hid : t.resident.pageOf? id = some p)
    (hroom : t.store.HasRoom) {rl rr : NodeOf Slot} {nl nr : Node}
    (hl : t.resident.onPage? rl = some nl) (hr : t.resident.onPage? rr = some nr)
    (hfitl : Node.FitsPage nl) (hfitr : Node.FitsPage nr) (hfreel : t.RootFree rl)
    (hfreer : t.RootFree rr) (key : UInt64) : ∃ t',
      (putHalves id (.ofNat t.store.pageCount) (rl, key, rr)).result
        { t with resident := t.resident.put id rn, store := t.store.grown } =
          (.ok ⟨key, id, t.resident.size⟩, t') ∧
      t.Advanced [.ofNat t.store.pageCount] [(.ofNat t.store.pageCount, nr), (p, nl)] t' ∧
      t'.resident.pageOf? t.resident.size = some (.ofNat t.store.pageCount) := by
  have hlt := PageStore.allocated_lt ht.sound hroom
  have hidlt := Arena.lt_size_of_pageOf? hid
  have hmono : ∀ j q, t.resident.pageOf? j = some q →
      (t.resident.add ⟨.ofNat t.store.pageCount, rr⟩).pageOf? j = some q :=
    fun _ _ => Arena.pageOf?_add
  have hheld : ((t.resident.add ⟨.ofNat t.store.pageCount, rr⟩).put id rl).nodes[t.resident.size]? =
      some ⟨.ofNat t.store.pageCount, rr⟩ := by
    rw [Arena.getElem?_put, if_neg (Nat.ne_of_gt hidlt), Arena.getElem?_add, if_pos rfl]
  have hnode : ((t.resident.add ⟨.ofNat t.store.pageCount, rr⟩).put id rl).onPage? rr = some nr := by
    rw [Arena.onPage?_put]
    exact Arena.onPage?_mono hr hmono
  obtain ⟨b, hsize, hdecode, hright⟩ :=
    @write_held { t with
      resident := (t.resident.add ⟨.ofNat t.store.pageCount, rr⟩).put id rl
      store := t.store.grown } _ _ ⟨.ofNat t.store.pageCount, rr⟩ hheld hnode hfitr hlt
  have hadv := coherent_allocated ht hroom hr hfreer hsize hdecode
  obtain ⟨t', hleft, hadv'⟩ := write_ok hadv.coherent (hadv.pages id p hid)
    (Arena.onPage?_mono hl hmono) hfitl hfreel
  refine ⟨t', ?_, hadv.trans hadv', hadv'.pages _ _ Arena.pageOf?_add_self⟩
  rw [putHalves_eq hidlt, Call.result_bind_ok hright, Call.result_bind_ok hleft, Call.result_pure]

theorem allocate_ok (hroom : t.store.HasRoom) : (onStore PageStore.allocate).result t =
    (.ok (.ofNat t.store.pageCount), { t with store := t.store.grown }) :=
  onStore_ok (PageStore.allocate_ok hroom)

theorem allocate_full (hroom : ¬t.store.HasRoom) :
    (onStore PageStore.allocate).result t = (.error (.error .full), t) :=
  onStore_error (PageStore.allocate_full hroom)

theorem splitLeaf_full (hroom : ¬t.store.HasRoom) (n : NodeOf Slot) :
    (splitLeaf id).result { t with resident := t.resident.put id n } =
      (.error (.error .full), { t with resident := t.resident.put id n }) := by
  have hallocate := allocate_full (t := { t with resident := t.resident.put id n }) hroom
  rw [splitLeaf, Call.result_bind_error hallocate]

/-- Where a page is left, a leaf that can be split is. -/
theorem splitLeaf_eq (hid : t.resident.pageOf? id = some p) (hroom : t.store.HasRoom) {l a b : Leaf}
    {key : UInt64} (hsplit : l.split? (.ofNat t.store.pageCount) = some (a, key, b)) :
    (splitLeaf id).result { t with resident := t.resident.put id (.leaf l) } =
      (putHalves id (.ofNat t.store.pageCount) (.leaf a, key, .leaf b)).result
        { t with resident := t.resident.put id (.leaf l), store := t.store.grown } := by
  obtain ⟨r, hr, -⟩ := Arena.exists_of_pageOf? hid
  have hallocate := allocate_ok (t := { t with resident := t.resident.put id (.leaf l) }) hroom
  have hheld : (heldLeaf id).result
      { t with resident := t.resident.put id (.leaf l), store := t.store.grown } = (.ok l, _) :=
    heldLeaf_ok (Arena.getElem?_put_self hr)
  rw [splitLeaf, Call.result_bind_ok hallocate, Call.result_bind_ok hheld, hsplit,
    Call.result_bind_ok (Call.result_orFault_some _ _)]

theorem splitLeaf_ok (ht : t.Coherent) (hid : t.resident.pageOf? id = some p)
    (hroom : t.store.HasRoom) {l a b : Leaf} {key : UInt64}
    (hsplit : l.split? (.ofNat t.store.pageCount) = some (a, key, b))
    (hfita : Node.FitsPage (.leaf a)) (hfitb : Node.FitsPage (.leaf b)) : ∃ t',
      (splitLeaf id).result { t with resident := t.resident.put id (.leaf l) } =
        (.ok ⟨key, id, t.resident.size⟩, t') ∧
      t.Advanced [.ofNat t.store.pageCount] [(.ofNat t.store.pageCount, .leaf b), (p, .leaf a)] t' ∧
      t'.resident.pageOf? t.resident.size = some (.ofNat t.store.pageCount) := by
  rw [splitLeaf_eq hid hroom hsplit]
  exact putHalves_ok (.leaf l) ht hid hroom Arena.onPage?_leaf Arena.onPage?_leaf hfita hfitb
    (rootFree_leaf a) (rootFree_leaf b) key

theorem splitBranch_full (hroom : ¬t.store.HasRoom) (n : NodeOf Slot) :
    (splitBranch id).result { t with resident := t.resident.put id n } =
      (.error (.error .full), { t with resident := t.resident.put id n }) := by
  have hallocate := allocate_full (t := { t with resident := t.resident.put id n }) hroom
  rw [splitBranch, Call.result_bind_error hallocate]

theorem insertIntoLeaf_ok {l : Leaf} {e : Entry} (he : e.value.size ≤ maxValueSize)
    (ht : t.Coherent) (h : t.Holds id (.leaf p l)) : ∃ fs g ws, Inserted e (.leaf p l) fs g ws ∧
      t.Grew id fs ws ((insertIntoLeaf id e).result t) g := by
  rw [insertIntoLeaf, Call.result_bind_ok (heldLeaf_ok (h.leaf ht)),
    Call.result_bind_ok (put_result _)]
  by_cases hfull : (l.insert e).isFull = true
  · rw [if_pos hfull]
    by_cases hroom : t.store.HasRoom
    · have hlen : 2 ≤ (l.insert e).entries.length :=
        Nat.le_trans (by decide) (of_decide_eq_true hfull)
      obtain ⟨a, key, b, hsplit, -⟩ := Leaf.split?_ok hlen (.ofNat t.store.pageCount)
      have hins : LeafInserted e p l _ _ _ := .splits hfull hsplit
      have hsmall := hins.small h.small he
      have hfita := (hsmall (.leaf p a) (by simp [Growth.trees])).fitsPage
      have hfitb := (hsmall (.leaf (.ofNat t.store.pageCount) b) (by simp [Growth.trees])).fitsPage
      obtain ⟨t', hrun, hadv, hnew⟩ := splitLeaf_ok ht h.here hroom hsplit hfita hfitb
      refine ⟨_, _, _, .leaf hins, t.resident.size, t', ?_, hadv, hnew, ?_⟩
      · rw [Call.result_bind_ok hrun, Call.result_pure]
      · exact Nat.ne_of_gt (Arena.lt_size_of_pageOf? ht.rooted)
    · refine ⟨[], _, [], .full hfull, _, Call.result_bind_error (splitLeaf_full hroom _) _, ?_⟩
      exact ht.strand (s := .leaf p (l.insert e)) hroom h.here Arena.onPage?_leaf (rootFree_leaf _)
        (by simp [Shape.node])
  · rw [if_neg hfull]
    have hins : LeafInserted e p l _ _ _ := .fits (Bool.eq_false_iff.2 hfull)
    have hsmall := hins.small h.small he (.leaf p (l.insert e)) (by simp [Growth.trees])
    obtain ⟨t', hwrite, hadv⟩ := write_ok ht h.here Arena.onPage?_leaf hsmall.fitsPage
      (rootFree_leaf (l.insert e))
    refine ⟨_, _, _, .leaf hins, t', ?_, hadv⟩
    rw [Call.result_bind_ok hwrite, Call.result_pure]

/-- Where a page is left, a branch that can be split is. -/
theorem splitBranch_eq (hid : t.resident.pageOf? id = some p) (hroom : t.store.HasRoom)
    {b l r : Branch Slot} {key : UInt64} (hsplit : b.split? = some (l, key, r)) :
    (splitBranch id).result { t with resident := t.resident.put id (.branch b) } =
      (putHalves id (.ofNat t.store.pageCount) (.branch l, key, .branch r)).result
        { t with resident := t.resident.put id (.branch b), store := t.store.grown } := by
  obtain ⟨old, hold, -⟩ := Arena.exists_of_pageOf? hid
  have hallocate := allocate_ok (t := { t with resident := t.resident.put id (.branch b) }) hroom
  have hheld : (heldBranch id).result
      { t with resident := t.resident.put id (.branch b), store := t.store.grown } = (.ok b, _) :=
    heldBranch_ok (Arena.getElem?_put_self hold)
  rw [splitBranch, Call.result_bind_ok hallocate, Call.result_bind_ok hheld, hsplit,
    Call.result_bind_ok (Call.result_orFault_some _ _)]

/-- A branch over some children splits into branches over the first and the last of them. -/
theorem splitBranch_ok (ht : t.Coherent) (hid : t.resident.pageOf? id = some p)
    (hroom : t.store.HasRoom) {keys : List UInt64} {slots : List Slot} {kids : List Shape}
    (hslots : slots.map t.resident.slotPage? = kids.map (some ∘ Shape.page))
    (hfree : .loaded t.rootId ∉ slots) (hshape : kids.length = keys.length + 1)
    (hlen : keys.length = order) : ∃ lks mid rks lcs rcs t',
      lks ++ mid :: rks = keys ∧ lcs ++ rcs = kids ∧ lcs.length = lks.length + 1 ∧
      (lks.length < order ∧ rks.length < order) ∧ (lks ≠ [] ∧ rks ≠ []) ∧
      (splitBranch id).result { t with resident := t.resident.put id (.branch ⟨keys, slots⟩) } =
        (.ok ⟨mid, id, t.resident.size⟩, t') ∧
      t.Advanced [.ofNat t.store.pageCount] [(.ofNat t.store.pageCount,
        .branch ⟨rks, rcs.map Shape.page⟩), (p, .branch ⟨lks, lcs.map Shape.page⟩)] t' ∧
      t'.resident.pageOf? t.resident.size = some (.ofNat t.store.pageCount) := by
  have hslotslen : slots.length = kids.length := by simpa using congrArg List.length hslots
  have hshaped : Branch.Shaped ⟨keys, slots⟩ := hslotslen.trans hshape
  have hfour : keys.length = 4 := hlen
  have hkeys : keys ≠ [] := List.ne_nil_of_length_pos (by omega)
  obtain ⟨⟨lks, lss⟩, mid, ⟨rks, rss⟩, hsplit, hl, hr, hmid, hchildren⟩ := hshaped.split? hkeys
  obtain ⟨hhalf, hrest⟩ := Branch.length_split? hsplit
  simp only at hmid hchildren hhalf hrest
  rw [← hchildren, List.map_append] at hslots
  obtain ⟨lcs, rcs, rfl, hlcs, hrcs⟩ := List.map_eq_append_iff.1 hslots.symm
  have hlcslen : lcs.length = lks.length + 1 := by
    have he := congrArg List.length hlcs
    rw [List.length_map, List.length_map] at he
    exact he.trans hl
  have hrcslen : rcs.length = rks.length + 1 := by
    have he := congrArg List.length hrcs
    rw [List.length_map, List.length_map] at he
    exact he.trans hr
  have hlks : lks.length < order := by omega
  have hrks : rks.length < order := by omega
  rw [← hchildren, List.mem_append, not_or] at hfree
  obtain ⟨t', hrun, hadv, hnew⟩ := putHalves_ok (.branch ⟨keys, slots⟩) ht hid hroom
    (onPage?_kids hlcs.symm) (onPage?_kids hrcs.symm) (fitsPage_branch hlcslen hlks)
    (fitsPage_branch hrcslen hrks) (rootFree_branch hfree.1) (rootFree_branch hfree.2) mid
  have hne : lks ≠ [] ∧ rks ≠ [] :=
    ⟨List.ne_nil_of_length_pos (by omega), List.ne_nil_of_length_pos (by omega)⟩
  refine ⟨lks, mid, rks, lcs, rcs, t', hmid, rfl, hlcslen, ⟨hlks, hrks⟩, hne, ?_, hadv, hnew⟩
  rw [splitBranch_eq hid hroom hsplit]
  exact hrun

/-- A branch takes up the halves of the child that stood between `cs` and `ds`. -/
theorem absorb_ok {ks ls : List UInt64} {cs ds : List Shape} {a b c : Shape} {key : UInt64}
    {cid new : NodeId} (ht : t.Coherent) (hid : t.resident.pageOf? id = some p)
    (hb : t.store.view p = some (.branch ⟨ks ++ ls, (cs ++ c :: ds).map Shape.page⟩))
    (hcs : cs.length = ks.length) (hds : ds.length = ls.length)
    (hkeys : ks.length + ls.length < order) (hcid : t.resident.pageOf? cid = some a.page)
    (hnew : t.resident.pageOf? new = some b.page) (hcroot : cid ≠ t.rootId)
    (hnewroot : new ≠ t.rootId) (hkids : ∀ x ∈ cs ++ a :: b :: ds, x.On t.store.view ∧ p ∉ x.pages) :
    ∃ gs g vs, Absorbed p ks ls cs ds (.halves a key b) gs g vs ∧
      t.Grew id gs vs ((absorb id ks.length ⟨key, cid, new⟩).result t) g := by
  obtain ⟨slots, hr, hslots, hfree⟩ := ht.branch hid hb
  obtain ⟨ss, s, ts, rfl, hlen, hss, -, hts⟩ := slots_cut (by simpa using hslots)
  have hrow : (ss ++ .loaded cid :: .loaded new :: ts).map t.resident.slotPage? =
      (cs ++ a :: b :: ds).map (some ∘ Shape.page) := by
    simp [hss, hts, Arena.slotPage?, hcid, hnew]
  have hfree' : .loaded t.rootId ∉ ss ++ .loaded cid :: .loaded new :: ts := by
    simp only [List.mem_append, List.mem_cons, Slot.loaded.injEq, not_or] at hfree ⊢
    exact ⟨hfree.1, hcroot.symm, hnewroot.symm, hfree.2.2⟩
  have hshape : (cs ++ a :: b :: ds).length = (ks ++ key :: ls).length + 1 := by
    simp only [List.length_append, List.length_cons]
    omega
  have hkeyslen : (ks ++ key :: ls).length = ks.length + ls.length + 1 := by
    simp only [List.length_append, List.length_cons]
    omega
  rw [absorb, Call.result_bind_ok (heldBranch_ok hr), Branch.absorb?_cut (hlen.trans hcs),
    Call.result_bind_ok (Call.result_orFault_some _ _), Call.result_bind_ok (put_result _)]
  by_cases hfull : Branch.isFull ⟨ks ++ key :: ls, ss ++ .loaded cid :: .loaded new :: ts⟩ = true
  · rw [if_pos hfull]
    by_cases hroom : t.store.HasRoom
    · have hfour : (ks ++ key :: ls).length = order :=
        Nat.le_antisymm (by omega) (of_decide_eq_true hfull)
      obtain ⟨lks, mid, rks, lcs, rcs, t', hmid, hrcs, hlcslen, ⟨hlks, hrks⟩, ⟨hl, hr⟩, hrun, hadv,
        hnew'⟩ := splitBranch_ok ht hid hroom hrow hfree' hshape hfour
      refine ⟨_, _, _, .splits hmid hrcs hlcslen hlks hrks hl hr, t.resident.size, t', ?_, hadv,
        hnew', Nat.ne_of_gt (Arena.lt_size_of_pageOf? ht.rooted)⟩
      rw [Call.result_bind_ok hrun, Call.result_pure]
    · refine ⟨[], _, [], .full (hkeyslen ▸ of_decide_eq_true hfull), _,
        Call.result_bind_error (splitBranch_full hroom _) _, ?_⟩
      refine ht.strand hroom hid (onPage?_kids hrow) (rootFree_branch hfree') ?_
      refine Shape.on_branch.2 ⟨Pages.set_same .., fun x hx => ?_⟩
      exact (hkids x hx).1.set (hkids x hx).2 _
  · rw [if_neg hfull]
    have hroom : ¬order ≤ (ks ++ key :: ls).length := of_decide_eq_false (Bool.eq_false_iff.2 hfull)
    obtain ⟨t', hwrite, hadv⟩ := write_ok ht hid (onPage?_kids hrow)
      (fitsPage_branch hshape (Nat.not_le.1 hroom)) (rootFree_branch hfree')
    refine ⟨_, _, _, .fits (by omega), t', ?_, hadv⟩
    rw [Call.result_bind_ok hwrite, Call.result_pure]

/-- An insertion below one child leaves the nodes that are not below it. -/
theorem view_unwritten {e : Entry} {c : Shape} {fs : List PageNo} {g : Growth}
    {ws : List (PageNo × Node)} {n : Node} (ht : t.Coherent) (hins : Inserted e c fs g ws)
    (hwrote : t.store.Wrote fs ws t'.store) (hp : p ∉ c.pages) (hn : t.store.view p = some n) :
    p ∉ c.pages ++ fs ∧ t'.store.view p = some n := by
  have hfar : p ∉ c.pages ++ fs := by
    intro hmem
    rcases List.mem_append.1 hmem with hmem | hmem
    · exact hp hmem
    · have hfresh := (hwrote.fresh ht.sound).2 p hmem
      exact absurd (PageStore.lt_of_view hn) (Nat.not_lt.2 hfresh.1)
  refine ⟨hfar, ?_⟩
  apply hwrote.view ht.sound
  rw [Pages.write_other, hn]
  rintro w hw rfl
  exact hfar (hins.written w hw)

section
variable {e : Entry} {c : Shape} {cs ds : List Shape} {keys : List UInt64} {fs : List PageNo}
  {g : Growth} {ws : List (PageNo × Node)}

/-- The children of a branch after an insertion below one of them. -/
theorem kids_grown (ht : t.Coherent) (hon : (Shape.branch p keys (cs ++ c :: ds)).On t.store.view)
    (hd : (Shape.branch p keys (cs ++ c :: ds)).pages.Nodup) (hins : Inserted e c fs g ws)
    (hwrote : t.store.Wrote fs ws t'.store) :
    ∀ x ∈ cs ++ (g.trees ++ ds), x.On t'.store.view ∧ p ∉ x.pages := by
  obtain ⟨⟨hpc, hpx⟩, hdc, hxc⟩ := Shape.distinct_kids hd
  obtain ⟨htop, hkids⟩ := Shape.on_branch.1 hon
  have hother : ∀ x ∈ cs ++ ds, x.On t'.store.view ∧ p ∉ x.pages := by
    intro x hx
    have hxon := hkids x (by rcases List.mem_append.1 hx with hx | hx <;> simp [hx])
    exact ⟨hxon.mono fun q hq n hn => (view_unwritten ht hins hwrote (hxc x hx q hq) hn).2, hpx x hx⟩
  intro x hx
  rcases List.mem_append.1 hx with hx | hx
  · exact hother x (List.mem_append_left _ hx)
  rcases List.mem_append.1 hx with hx | hx
  · have hall : (c.pages ++ fs).Nodup := by
      refine List.nodup_append.2 ⟨hdc, (hwrote.fresh ht.sound).1, ?_⟩
      rintro q hq f hf rfl
      obtain ⟨y, hy, rfl⟩ := List.mem_map.1 hq
      have hunseen := hwrote.unseen ht.sound _ hf
      rw [hkids c (by simp) y hy] at hunseen
      cases hunseen
    have hg : g.Going := by cases g <;> simp [Growth.trees] at hx ⊢
    refine ⟨(hins.on (hkids c (by simp)) hall x hx).mono fun q _ n hn => hwrote.view ht.sound q n hn,
      fun hmem => (view_unwritten ht hins hwrote hpc htop).1 ?_⟩
    exact (hins.pages hg).subset (List.mem_flatMap.2 ⟨x, hx, hmem⟩)
  · exact hother x (List.mem_append_right _ hx)

/-- What the handle has in mind below a branch when the insertion below one child is stopped. -/
theorem Stranded.inside {kept held : Shape} (h : t.Stranded fs ws held t') (ht : t.Coherent)
    (hon : (Shape.branch p keys (cs ++ c :: ds)).On t.store.view)
    (hd : (Shape.branch p keys (cs ++ c :: ds)).pages.Nodup)
    (hins : Inserted e c fs (.stopped kept held) ws) :
    t.Stranded fs ws (.branch p keys (cs ++ held :: ds)) t' := by
  obtain ⟨P, hmirrors, hheld, helse⟩ := h.mind
  obtain ⟨⟨hpc, -⟩, -, hxc⟩ := Shape.distinct_kids hd
  obtain ⟨htop, hkids⟩ := Shape.on_branch.1 hon
  have hsub : ∀ q ∈ held.pages, q ∈ c.pages ++ fs := fun q hq => hins.stopped.pages.subset hq
  have hkeep : ∀ q ∉ c.pages, ∀ n, t.store.view q = some n → P q = some n := by
    intro q hq n hn
    obtain ⟨hfar, hview⟩ := view_unwritten ht hins h.wrote hq hn
    exact helse q (fun hmem => hfar (hsub q hmem)) n hview
  refine ⟨h.wrote, h.full, h.pages, h.rootId, P, hmirrors, Shape.on_branch.2 ⟨?_, ?_⟩, ?_⟩
  · apply hkeep p hpc
    rw [htop]
    simp [hins.stopped.page.2]
  · intro x hx
    rcases List.mem_append.1 hx with hx | hx
    · exact (hkids x (by simp [hx])).mono fun q hq => hkeep q (hxc x (by simp [hx]) q hq)
    rcases List.mem_cons.1 hx with rfl | hx
    · exact hheld
    · exact (hkids x (by simp [hx])).mono fun q hq => hkeep q (hxc x (by simp [hx]) q hq)
  · intro q hq
    apply helse q
    rw [Shape.pages_branch, List.flatMap_append, List.flatMap_cons] at hq
    intro hmem
    exact hq (List.mem_cons_of_mem _ (List.mem_append_right _ (List.mem_append_left _ hmem)))

end

/-- Going down to the leaf, then back up through the branches that take up a split. -/
theorem insertBelow_ok {e : Entry} (he : e.value.size ≤ maxValueSize) {limit : Nat}
    (hlim : s.parts.length ≤ limit) (hd : s.pages.Nodup) (ht : t.Coherent) (h : t.Holds id s) :
    ∃ fs g ws, Inserted e s fs g ws ∧ t.Grew id fs ws ((insertBelow e limit id).result t) g := by
  induction s using Shape.induct generalizing limit t id with
  | leaf p l =>
    obtain ⟨limit, rfl⟩ := Shape.exists_limit hlim
    rw [insertBelow, Call.result_bind_ok (held_ok (h.leaf ht))]
    exact insertIntoLeaf_ok he ht h
  | branch p keys kids ih =>
    obtain ⟨limit, rfl⟩ := Shape.exists_limit hlim
    obtain ⟨⟨hlen, hkeys⟩, -⟩ := Shape.small_branch.1 h.small
    obtain ⟨ks, ls, cs, c, ds, rfl, rfl, hcs, hroute⟩ := Branch.exists_routed hlen e.key
    obtain ⟨⟨hpc, -⟩, hdc, -⟩ := Shape.distinct_kids hd
    obtain ⟨htop, -⟩ := Shape.on_branch.1 h.on
    obtain ⟨slots, hr, -, -⟩ := h.branch ht
    have hslot : (cs ++ c :: ds)[ks.length]? = some c := by simp [← hcs]
    obtain ⟨cid, t₁, hchild, hadv₁, hhold⟩ := h.child ht hslot
    have hlim' : c.parts.length ≤ limit := Shape.length_parts_kid hlim (by simp)
    obtain ⟨fs, g, ws, hins, hgrew⟩ := ih c (by simp) hlim' hdc hadv₁.coherent hhold
    rw [insertBelow, Call.result_bind_ok (held_ok hr)]
    simp only [Branch.slotOf_routed hroute]
    rw [Call.result_bind_ok hchild]
    cases g with
    | whole c' =>
      obtain ⟨t₂, hrun, hadv₂⟩ := hgrew
      refine ⟨_, _, _, .branch hcs hroute hins (.whole c'), ?_⟩
      rw [Call.result_bind_ok hrun]
      exact ⟨t₂, rfl, by simpa using hadv₁.trans hadv₂⟩
    | stopped =>
      obtain ⟨t₂, hrun, hstrand⟩ := hgrew
      refine ⟨_, _, _, .branch hcs hroute hins (.stopped _ _), ?_⟩
      rw [Call.result_bind_error hrun]
      have hafter := hstrand.after hadv₁
      refine ⟨t₂, rfl, by simpa using hafter.inside ht h.on hd hins⟩
    | halves a key b =>
      obtain ⟨new, t₂, hrun, hadv₂, hnew, hnewroot⟩ := hgrew
      have hadv := hadv₁.trans hadv₂
      have htop₂ := (view_unwritten ht hins hadv.wrote hpc htop).2
      have hcid : t₂.resident.pageOf? cid = some a.page := by
        rw [hadv₂.pages _ _ hhold.here, hins.page a rfl]
      have hcroot : cid ≠ t₂.rootId := by
        rintro rfl
        have hroot := hadv₂.coherent.rooted
        rw [hcid, hadv.root ht, hins.page a rfl] at hroot
        have hmem : t.root ∈ c.pages := Option.some.inj hroot ▸ c.page_mem_pages
        exact h.root_notMem (by simp) hmem
      have hds : ds.length = ls.length := by
        simp only [List.length_append, List.length_cons] at hlen
        omega
      have hgrown := kids_grown ht h.on hd hins hadv.wrote
      obtain ⟨gs, g', vs, habs, hgrew'⟩ := absorb_ok hadv₂.coherent (hadv.pages _ _ h.here) htop₂
        hcs hds (by simpa using hkeys) hcid hnew hcroot (hadv₂.rootId ▸ hnewroot) hgrown
      refine ⟨_, _, _, .branch hcs hroute hins habs, ?_⟩
      rw [Call.result_bind_ok hrun]
      simpa using hgrew'.trans hadv

end PagedTree.Tree
