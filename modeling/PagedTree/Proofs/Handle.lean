import PagedTree.Proofs.Memory

/-! # What a handle and its file have in common

A handle is coherent if every node in it, whether the tree still has it or not, is the node on its
page. Reading keeps a handle coherent, and so does a change of a node that is written at once. What a
call has done is known by the pages it asked for and the nodes it wrote.
-/
namespace PagedTree.Tree

structure Coherent (t : Tree) : Prop where
  sound : t.store.header.Sound
  indexed : t.resident.Indexed
  agrees : ∀ (id : NodeId) (r : Resident), t.resident.nodes[id]? = some r →
    ∃ n, t.resident.onPage? r.node = some n ∧ t.store.view r.page = some n
  rootFree : ∀ (id : NodeId) (r : Resident), t.resident.nodes[id]? = some r → t.RootFree r.node
  rooted : t.resident.pageOf? t.rootId = some t.root

/-- From one coherent handle to another: pages were asked for, nodes written, and every node stayed
on its page. -/
structure Advanced (t : Tree) (fs : List PageNo) (ws : List (PageNo × Node)) (t' : Tree) : Prop where
  wrote : t.store.Wrote fs ws t'.store
  coherent : t'.Coherent
  pages : ∀ id p, t.resident.pageOf? id = some p → t'.resident.pageOf? id = some p
  rootId : t'.rootId = t.rootId
  synced : t.store.Synced → t'.store.Synced

namespace Advanced

variable {t t' t'' : Tree} {fs gs : List PageNo} {ws vs : List (PageNo × Node)}

theorem refl (h : t.Coherent) : t.Advanced [] [] t := ⟨.refl _, h, fun _ _ => id, rfl, id⟩

theorem trans (h : t.Advanced fs ws t') (h' : t'.Advanced gs vs t'') :
    t.Advanced (fs ++ gs) (ws ++ vs) t'' :=
  ⟨h.wrote.trans h'.wrote, h'.coherent, fun id p hp => h'.pages id p (h.pages id p hp),
    h'.rootId.trans h.rootId, fun hs => h'.synced (h.synced hs)⟩

theorem store_eq (h : t.Advanced [] [] t') : t'.store = t.store := h.wrote.eq_of_nil

theorem root (h : t.Advanced fs ws t') (ht : t.Coherent) : t'.root = t.root := by
  have hp := h.pages _ _ ht.rooted
  rw [Tree.root, h.rootId, hp]
  rfl

end Advanced

variable {t : Tree} {id : NodeId} {p : PageNo} {n : Node} {rn : NodeOf Slot}

namespace Coherent

/-- A coherent handle has its file in mind. -/
theorem mirrors (h : t.Coherent) : t.Mirrors t.store.view :=
  ⟨h.indexed, h.agrees, h.rootFree, h.rooted, fun _ _ hn _ => hn⟩

/-- A handle is coherent with a file that has what it has in mind. -/
theorem of_mirrors {P : Pages} (h : t.Mirrors P) {s : PageStore} (hs : s.header.Sound)
    (hview : P.Within s.view) : Coherent { t with store := s } := by
  refine ⟨hs, h.indexed, ?_, h.rootFree, h.rooted⟩
  intro j r hr
  obtain ⟨m, hm, hmview⟩ := h.agrees j r hr
  exact ⟨m, hm, hview _ _ hmview⟩

theorem exists_node (h : t.Coherent) (hid : t.resident.pageOf? id = some p)
    (hn : t.store.view p = some n) :
    ∃ rn, t.resident.nodes[id]? = some ⟨p, rn⟩ ∧ t.resident.onPage? rn = some n ∧ t.RootFree rn :=
  h.mirrors.exists_node hid hn

theorem leaf (h : t.Coherent) (hid : t.resident.pageOf? id = some p) {l : Leaf}
    (hl : t.store.view p = some (.leaf l)) : t.resident.nodes[id]? = some ⟨p, .leaf l⟩ :=
  h.mirrors.leaf hid hl

theorem branch (h : t.Coherent) (hid : t.resident.pageOf? id = some p) {keys : List UInt64}
    {ps : List PageNo} (hb : t.store.view p = some (.branch ⟨keys, ps⟩)) :
    ∃ slots, t.resident.nodes[id]? = some ⟨p, .branch ⟨keys, slots⟩⟩ ∧
      slots.map t.resident.slotPage? = ps.map some ∧ .loaded t.rootId ∉ slots :=
  h.mirrors.branch hid hb

theorem exists_view (h : t.Coherent) (hid : t.resident.pageOf? id = some p) :
    ∃ n, t.store.view p = some n := h.mirrors.exists_view hid

/-- No node is on the page that would be handed out next. -/
theorem pageOf?_ne (h : t.Coherent) (id : NodeId) :
    t.resident.pageOf? id ≠ some (.ofNat t.store.pageCount) := by
  intro hid
  obtain ⟨n, hn⟩ := h.exists_view hid
  have hlt := PageStore.lt_of_view hn
  rw [PageStore.toNat_allocated] at hlt
  exact Nat.lt_irrefl _ hlt

/-- A node may change as its page does. -/
theorem write (h : t.Coherent) (hid : t.resident.pageOf? id = some p)
    (hn : t.resident.onPage? rn = some n) (hfree : t.RootFree rn) {s : PageStore}
    (hs : s.header.Sound) (hview : (t.store.view.set p n).Within s.view) :
    Coherent { t with resident := t.resident.put id rn, store := s } :=
  of_mirrors (h.mirrors.put hid hn hfree) hs hview

theorem grow (h : t.Coherent) {s : PageStore} (hs : s.header.Sound)
    (hview : t.store.view.Within s.view) : Coherent { t with store := s } :=
  of_mirrors h.mirrors hs hview

/-- A handle may take in the node on a page that it did not hold. -/
theorem keep (h : t.Coherent) (hnew : ∀ id, t.resident.pageOf? id ≠ some p)
    (hn : t.resident.onPage? rn = some n) (hview : t.store.view p = some n) (hfree : t.RootFree rn) :
    Coherent { t with resident := t.resident.add ⟨p, rn⟩ } :=
  of_mirrors (h.mirrors.keep hnew hn hview hfree) h.sound (.refl _)

/-- The root may move to a page that it also stands on. -/
theorem move (h : t.Coherent) (hn : t.store.view t.root = some n) {a : Arena}
    (hmoved : t.resident.Moved t.rootId p a) (ha : a.Indexed) (hview : t.store.view p = some n) :
    Coherent { t with resident := a } := by
  obtain ⟨rn, hr, hpage, -⟩ := h.exists_node h.rooted hn
  -- a node with the root among its children would change with the page of the root
  have hkeep : ∀ (j : NodeId) (r : Resident) (m : Node), t.resident.nodes[j]? = some r →
      t.resident.onPage? r.node = some m → a.onPage? r.node = some m := by
    intro j r m hj hm
    apply Arena.onPage?_congr hm
    intro c hc slot hslot q hq
    cases slot with
    | unloaded q' => exact hq
    | loaded i =>
      have hi : i ≠ t.rootId := by
        rintro rfl
        exact h.rootFree j r hj c hc hslot
      exact (hmoved.pageOf?_other hi).trans hq
  refine ⟨h.sound, ha, ?_, ?_, ?_⟩
  · intro j r hj
    rw [hmoved.nodes] at hj
    by_cases hroot : j = t.rootId
    · rw [if_pos hroot, hroot, hr] at hj
      cases hj
      exact ⟨n, hkeep t.rootId ⟨t.root, rn⟩ n hr hpage, hview⟩
    · rw [if_neg hroot] at hj
      obtain ⟨m, hm, hmview⟩ := h.agrees j r hj
      exact ⟨m, hkeep j r m hj hm, hmview⟩
  · intro j r hj
    rw [hmoved.nodes] at hj
    split at hj
    · obtain ⟨r', hr', rfl⟩ := Option.map_eq_some_iff.1 hj
      exact h.rootFree j r' hr'
    · exact h.rootFree j r hj
  · have hroot := hmoved.pageOf?_same h.rooted
    simp only [root, hroot, Option.getD_some]

/-- A new root on a page of its own. -/
theorem crown (h : t.Coherent) (hnew : ∀ id, t.resident.pageOf? id ≠ some p)
    (hn : t.resident.onPage? rn = some n) {s : PageStore} (hs : s.header.Sound)
    (hview : (t.store.view.set p n).Within s.view) :
    Coherent { t with
      store := s
      resident := t.resident.add ⟨p, rn⟩
      rootId := t.resident.size } := by
  have hmono : ∀ j q, t.resident.pageOf? j = some q →
      (t.resident.add ⟨p, rn⟩).pageOf? j = some q := fun _ _ => Arena.pageOf?_add
  -- the number of the new root was not in use before
  have hunused : ∀ {m : NodeOf Slot} {k : Node}, t.resident.onPage? m = some k → ∀ b : Branch Slot,
      m = .branch b → .loaded t.resident.size ∉ b.children := by
    rintro m k hk b rfl hmem
    exact absurd (Arena.lt_size_of_onPage? hk hmem) (Nat.lt_irrefl _)
  refine ⟨hs, h.indexed.add hnew, ?_, ?_, ?_⟩
  · intro j r hr
    rw [Arena.getElem?_add] at hr
    split at hr
    · cases hr
      exact ⟨n, Arena.onPage?_mono hn hmono, hview _ _ (by rw [Pages.set_same])⟩
    · obtain ⟨m, hm, hmview⟩ := h.agrees j r hr
      refine ⟨m, Arena.onPage?_mono hm hmono, hview _ _ ?_⟩
      rw [Pages.set_other, hmview]
      intro he
      exact hnew j (he ▸ Arena.pageOf?_of_getElem? hr)
  · intro j r hr
    rw [Arena.getElem?_add] at hr
    split at hr
    · cases hr
      exact hunused hn
    · obtain ⟨m, hm, -⟩ := h.agrees j r hr
      exact hunused hm
  · simp only [root, Arena.pageOf?_add_self, Option.getD_some]

end Coherent

/-! ## Reading -/

theorem heldLeaf_ok {l : Leaf} (h : t.resident.nodes[id]? = some ⟨p, .leaf l⟩) :
    (heldLeaf id).result t = (.ok l, t) := by
  rw [heldLeaf, Call.result_bind_ok (held_ok h)]
  rfl

theorem heldBranch_ok {b : Branch Slot} (h : t.resident.nodes[id]? = some ⟨p, .branch b⟩) :
    (heldBranch id).result t = (.ok b, t) := by
  rw [heldBranch, Call.result_bind_ok (held_ok h)]
  rfl

theorem Coherent.browse {t' : Tree} (ht : t.Coherent) (h : t.Browsed t.store.view t') :
    t.Advanced [] [] t' := by
  obtain ⟨hstore, hmirrors, hpages, hroot⟩ := h
  obtain ⟨store, resident, rootId, cursor⟩ := t'
  obtain rfl : store = t.store := hstore
  exact ⟨.refl _, .of_mirrors hmirrors ht.sound (.refl _), hpages, hroot, id⟩

/-- The handle holds the node on page `p` from then on. -/
theorem resolve_ok (ht : t.Coherent) (hn : t.store.view p = some n) :
    ∃ id t', (resolve p).result t = (.ok id, t') ∧ t.Advanced [] [] t' ∧
      t'.resident.pageOf? id = some p := by
  obtain ⟨id, t', hrun, hread, hid⟩ := ht.mirrors.resolve_ok hn
  exact ⟨id, t', hrun, ht.browse hread, hid⟩

/-- Whatever the page holds, the handle stays coherent. -/
theorem resolve_keeps (ht : t.Coherent) (p : PageNo) :
    (∃ i, (resolve p).result t = (.error i, t)) ∨
      ∃ id t', (resolve p).result t = (.ok id, t') ∧ t.Advanced [] [] t' := by
  cases hn : t.store.view p with
  | some n =>
    obtain ⟨id, t', hrun, hadv, -⟩ := resolve_ok ht hn
    exact .inr ⟨id, t', hrun, hadv⟩
  | none =>
    refine .inl ?_
    cases hp : t.resident.byPage[p]? with
    | some id =>
      obtain ⟨n, hn'⟩ := ht.exists_view ((ht.indexed p id).1 hp)
      rw [hn] at hn'
      cases hn'
    | none =>
      obtain ⟨e, -, hread⟩ := readNode_fails hn
      have hread' : (onStore (readNode p)).result t = (.error (.error e), t) := onStore_error hread
      refine ⟨.error e, ?_⟩
      simp only [resolve, Call.result_bind_ok (Call.result_get t), hp,
        Call.result_bind_error hread']

/-- Going down to a child, which is not the root. -/
theorem child_ok (ht : t.Coherent) (hid : t.resident.pageOf? id = some p) {b : Branch PageNo}
    (hb : t.store.view p = some (.branch b)) {slot : Nat} {q : PageNo}
    (hslot : b.children[slot]? = some q) (hn : t.store.view q = some n) (hq : q ≠ t.root) :
    ∃ c t', (child id slot).result t = (.ok c, t') ∧ t.Advanced [] [] t' ∧
      t'.resident.pageOf? c = some q := by
  obtain ⟨c, t', hrun, hread, hc⟩ := ht.mirrors.child_ok hid hb hslot hn hq
  exact ⟨c, t', hrun, ht.browse hread, hc⟩

/-! ## Nodes over trees -/

section
variable {keys : List UInt64} {kids : List Shape} {slots : List Slot}

theorem onPage?_kids {a : Arena} (h : slots.map a.slotPage? = kids.map (some ∘ Shape.page)) :
    a.onPage? (.branch ⟨keys, slots⟩) = some (.branch ⟨keys, kids.map Shape.page⟩) :=
  Arena.onPage?_branch.2 ⟨_, rfl, by rw [h, List.map_map]⟩

/-- The slots of a branch, cut at one of its children. -/
theorem slots_cut {a : Arena} {cs ds : List Shape} {c : Shape}
    (h : slots.map a.slotPage? = (cs ++ c :: ds).map (some ∘ Shape.page)) : ∃ ss x ts,
      slots = ss ++ x :: ts ∧ ss.length = cs.length ∧
      ss.map a.slotPage? = cs.map (some ∘ Shape.page) ∧ a.slotPage? x = some c.page ∧
      ts.map a.slotPage? = ds.map (some ∘ Shape.page) := by
  rw [List.map_append, List.map_cons, List.map_eq_append_iff] at h
  obtain ⟨ss, rest, rfl, hss, hrest⟩ := h
  obtain ⟨x, ts, rfl, hx, hts⟩ := List.map_eq_cons_iff.1 hrest
  exact ⟨ss, x, ts, rfl, by simpa using congrArg List.length hss, hss, hx, hts⟩

theorem fitsPage_branch (hshape : kids.length = keys.length + 1) (hlen : keys.length < order) :
    Node.FitsPage (.branch ⟨keys, kids.map Shape.page⟩) := by
  apply NodeOf.WithinOrder.fitsPage
  exact ⟨by simpa [Branch.Shaped] using hshape, hlen⟩

end

/-! ## Writing -/

theorem writeTo_ok {r : Resident} (hr : t.resident.nodes[id]? = some r)
    (hn : t.resident.onPage? r.node = some n) (hfit : Node.FitsPage n)
    (hp : p.toNat < t.store.pageCount) : ∃ b, b.size = pageSize ∧ Node.decode p b = .ok n ∧
      (writeTo id p).result t = (.ok (), { t with store := t.store.putPage p b }) := by
  obtain ⟨b, hsize, hdecode, hencode⟩ := Node.encode_ok hfit p
  refine ⟨b, hsize, hdecode, ?_⟩
  simp only [writeTo, Call.result_bind_ok (held_ok hr), Call.result_bind_ok (Call.result_get t), hn,
    Call.result_bind_ok (Call.result_orFault_some n t), Call.result_bind_ok (hencode t)]
  exact onStore_ok (PageStore.writePage_ok hp hsize)

theorem write_held {r : Resident} (hr : t.resident.nodes[id]? = some r)
    (hn : t.resident.onPage? r.node = some n) (hfit : Node.FitsPage n)
    (hp : r.page.toNat < t.store.pageCount) : ∃ b, b.size = pageSize ∧ Node.decode r.page b = .ok n ∧
      (write id).result t = (.ok (), { t with store := t.store.putPage r.page b }) := by
  obtain ⟨b, hsize, hdecode, hwrite⟩ := writeTo_ok hr hn hfit hp
  refine ⟨b, hsize, hdecode, ?_⟩
  rw [Tree.write, Call.result_bind_ok (held_ok hr), hwrite]

/-- Writing a node that has changed in memory brings the handle and the file together again. -/
theorem write_ok (ht : t.Coherent) (hid : t.resident.pageOf? id = some p)
    (hn : t.resident.onPage? rn = some n) (hfit : Node.FitsPage n) (hfree : t.RootFree rn) :
    ∃ t', (write id).result { t with resident := t.resident.put id rn } = (.ok (), t') ∧
      t.Advanced [] [(p, n)] t' := by
  obtain ⟨r, hr, rfl⟩ := Arena.exists_of_pageOf? hid
  obtain ⟨m, hm⟩ := ht.exists_view hid
  have hlt := PageStore.lt_of_view hm
  have hput : (t.resident.put id rn).nodes[id]? = some ⟨r.page, rn⟩ := by
    rw [Arena.getElem?_put, if_pos rfl, hr]
    rfl
  obtain ⟨b, hsize, hdecode, hwrite⟩ :=
    @write_held { t with resident := t.resident.put id rn } id n ⟨r.page, rn⟩ hput
      (by rw [Arena.onPage?_put]; exact hn) hfit hlt
  have hview := PageStore.view_putPage hlt hsize hdecode
  have hcoherent := ht.write (s := t.store.putPage r.page b) hid hn hfree ht.sound
    (hview ▸ Pages.Within.refl _)
  refine ⟨{ t with resident := t.resident.put id rn, store := t.store.putPage r.page b }, hwrite,
    .write (.refl _) hlt hsize hdecode, hcoherent, ?_, rfl,
    fun _ => PageStore.synced_putPage ht.sound⟩
  intro j q hj
  rw [Arena.pageOf?_put]
  exact hj

theorem update_ok (ht : t.Coherent) (hid : t.resident.pageOf? id = some p)
    (hn : t.resident.onPage? rn = some n) (hfit : Node.FitsPage n) (hfree : t.RootFree rn) :
    ∃ t', (update id rn).result t = (.ok (), t') ∧ t.Advanced [] [(p, n)] t' := by
  obtain ⟨t', hwrite, hadv⟩ := write_ok ht hid hn hfit hfree
  exact ⟨t', by rw [update, Call.result_bind_ok (put_result rn), hwrite], hadv⟩

end PagedTree.Tree
