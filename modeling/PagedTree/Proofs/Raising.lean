import PagedTree.Proofs.Inserting

/-! # Insertions on a handle

A root that has split goes on as the left child of a new root, which takes over the root page. The
handle is coherent again once the new root is written, and then stands for the tree with the entry.
-/
namespace PagedTree.Tree

variable {t : Tree} {s : Shape} {m p q : PageNo} {n : Node} {new : NodeId} {key : UInt64}

theorem onPage?_pair {a : Arena} {i j : NodeId} (hi : a.pageOf? i = some m)
    (hj : a.pageOf? j = some q) (key : UInt64) :
    a.onPage? (.branch ⟨[key], [.loaded i, .loaded j]⟩) = some (.branch ⟨[key], [m, q]⟩) :=
  Arena.onPage?_branch.2 ⟨[m, q], rfl, by simp [Arena.slotPage?, hi, hj]⟩

theorem raiseRoot_full (hid : t.resident.pageOf? t.rootId = some t.root)
    (hroom : ¬t.store.HasRoom) (key : UInt64) (new : NodeId) :
    (raiseRoot ⟨key, t.rootId, new⟩).result t = (.error (.error .full), t) := by
  obtain ⟨r, hr, -⟩ := Arena.exists_of_pageOf? hid
  rw [raiseRoot, Call.result_bind_ok (held_ok hr), Call.result_bind_error (allocate_full hroom)]

theorem rebind_ok {id : NodeId} {a : Arena} (h : t.resident.rebind? id p = some a) :
    (rebind id p).result t = (.ok (), { t with resident := a }) := by
  simp only [rebind, Call.result_bind, Call.result_get, h, Call.result_orFault_some, Call.result_set]

/-- The root goes to a page of its own, and its old page stays as it is. -/
theorem copyRoot_ok (ht : t.Coherent) (hn : t.store.view t.root = some n)
    (hfit : Node.FitsPage n) (hroom : t.store.HasRoom) : ∃ s a,
      (writeTo t.rootId (.ofNat t.store.pageCount)).result { t with store := t.store.grown } =
        (.ok (), { t with store := s }) ∧
      (rebind t.rootId (.ofNat t.store.pageCount)).result { t with store := s } =
        (.ok (), { t with store := s, resident := a }) ∧
      t.store.Wrote [.ofNat t.store.pageCount] [(.ofNat t.store.pageCount, n)] s ∧
      t.resident.Moved t.rootId (.ofNat t.store.pageCount) a ∧
      Coherent { t with store := s, resident := a } := by
  have hlt := PageStore.allocated_lt ht.sound hroom
  obtain ⟨old, hold, hnode, -⟩ := ht.exists_node ht.rooted hn
  obtain ⟨a, hrebind, hmoved, ha⟩ := Arena.rebind?_ok ht.indexed ht.rooted ht.pageOf?_ne
  obtain ⟨b, hb, hdecode, hcopy⟩ :=
    @writeTo_ok { t with store := t.store.grown } _ _ _ _ hold hnode hfit hlt
  obtain ⟨hwithin, hcopied⟩ := PageStore.view_allocated ht.sound hroom hb hdecode
  have hgrown : Coherent { t with store := t.store.grown.putPage (.ofNat t.store.pageCount) b } :=
    ht.grow (PageStore.sound_grown ht.sound hroom) hwithin
  exact ⟨t.store.grown.putPage (.ofNat t.store.pageCount) b, a, hcopy, rebind_ok hrebind,
    .write (.allocate (.refl _) hroom) hlt hb hdecode, hmoved,
    hgrown.move (hwithin _ _ hn) hmoved ha hcopied⟩

/-- A node that is written to page `p` becomes the root. -/
theorem crown_ok (ht : t.Coherent) (hnew : ∀ id, t.resident.pageOf? id ≠ some p)
    (hp : p.toNat < t.store.pageCount) {rn : NodeOf Slot} (hrn : t.resident.onPage? rn = some n)
    (hfit : Node.FitsPage n) : ∃ s,
      (write t.resident.size).result { t with resident := t.resident.add ⟨p, rn⟩ } =
        (.ok (), { t with store := s, resident := t.resident.add ⟨p, rn⟩ }) ∧
      t.store.Wrote [] [(p, n)] s ∧ s.Synced ∧
      Coherent { t with
        store := s
        resident := t.resident.add ⟨p, rn⟩
        rootId := t.resident.size } := by
  have hkept : (t.resident.add ⟨p, rn⟩).nodes[t.resident.size]? = some ⟨p, rn⟩ := by
    rw [Arena.getElem?_add, if_pos rfl]
  obtain ⟨b, hb, hdecode, hwrite⟩ := @write_held { t with resident := t.resident.add ⟨p, rn⟩ }
    _ _ _ hkept (Arena.onPage?_mono hrn fun _ _ => Arena.pageOf?_add) hfit hp
  have hview := PageStore.view_putPage hp hb hdecode
  exact ⟨t.store.putPage p b, hwrite, .write (.refl _) hp hb hdecode,
    PageStore.synced_putPage ht.sound,
    ht.crown (s := t.store.putPage p b) hnew hrn ht.sound (hview ▸ Pages.Within.refl _)⟩

/-- The left half `n` goes to a page of its own before the root page is written over. No other node
leaves its page. -/
theorem raiseRoot_ok (ht : t.Coherent) (hn : t.store.view t.root = some n)
    (hfit : Node.FitsPage n) (hq : t.resident.pageOf? new = some q) (hnew : new ≠ t.rootId)
    (hroom : t.store.HasRoom) (key : UInt64) :
    ∃ t', (raiseRoot ⟨key, t.rootId, new⟩).result t = (.ok (), t') ∧
      t.store.Wrote [.ofNat t.store.pageCount] [(.ofNat t.store.pageCount, n),
        (t.root, .branch ⟨[key], [.ofNat t.store.pageCount, q]⟩)] t'.store ∧
      t'.Coherent ∧ t'.root = t.root ∧ t'.store.Synced ∧
      t'.resident.pageOf? t.rootId = some (.ofNat t.store.pageCount) ∧
      ∀ j r, j ≠ t.rootId → t.resident.pageOf? j = some r → t'.resident.pageOf? j = some r := by
  obtain ⟨rn, hr, -⟩ := ht.exists_node ht.rooted hn
  obtain ⟨s, a, hcopy, hrebind, hwrote, hmoved, hlow⟩ := copyRoot_ok ht hn hfit hroom
  have hleft := hmoved.pageOf?_same ht.rooted
  have hright := (hmoved.pageOf?_other hnew).trans hq
  have hfree : ∀ j, a.pageOf? j ≠ some t.root := by
    intro j hj
    by_cases hjroot : j = t.rootId
    · rw [hjroot, hleft] at hj
      exact ht.pageOf?_ne t.rootId (ht.rooted.trans hj.symm)
    · rw [hmoved.pageOf?_other hjroot] at hj
      exact hjroot (ht.indexed.inj hj ht.rooted)
  have hlt : t.root.toNat < s.pageCount := by
    have hrootlt := PageStore.lt_of_view hn
    rw [hwrote.pageCount_eq ht.sound]
    omega
  have hpairfit : Node.FitsPage (.branch ⟨[key], [.ofNat t.store.pageCount, q]⟩) :=
    NodeOf.WithinOrder.fitsPage ⟨rfl, (by decide : 1 < order)⟩
  obtain ⟨s', hover, hwrote', hsynced, hraised⟩ :=
    crown_ok hlow hfree hlt (onPage?_pair hleft hright key) hpairfit
  refine ⟨_, ?_, hwrote.trans hwrote', hraised, ?_, hsynced, Arena.pageOf?_add hleft, ?_⟩
  · rw [raiseRoot, Call.result_bind_ok (held_ok hr), Call.result_bind_ok (allocate_ok hroom),
      Call.result_bind_ok hcopy, Call.result_bind_ok hrebind, Call.result_bind_ok (keep_ok _),
      Call.result_bind_ok hover]
    rfl
  · simp only [root, Arena.pageOf?_add_self, Option.getD_some]
  · intro j r hj hr
    exact Arena.pageOf?_add ((hmoved.pageOf?_other hj).trans hr)

/-! ## The whole insertion -/

variable {t' : Tree} {s' : Shape} {fs : List PageNo} {ws : List (PageNo × Node)}

theorem Represents.inserted {e : Entry} (h : t.Represents s) (he : e.value.size ≤ maxValueSize)
    (hins : Insertion e s fs (.whole s') ws) (hwrote : t.store.Wrote fs ws t'.store)
    (ht : t'.Coherent) (hroot : t'.root = t.root) (hsynced : t'.store.Synced) :
    t'.Represents s' := by
  have hsound := h.coherent.sound
  obtain ⟨hstands, hpage, -⟩ :=
    hins.stands h.stands (hwrote.unseen hsound) (hwrote.fresh hsound).1 he
  refine ⟨ht, ?_, hstands.mono (hwrote.view hsound), hsynced⟩
  rw [hpage, hroot, h.page]

/-- How an insertion ends: with the tree changed, or for want of a page with a tree in mind that the
file may not have. -/
def Entered (t : Tree) : Growth → Except Interrupt Unit → Prop
  | .whole s, r => r = .ok () ∧ t.Represents s
  | .halves .., _ => False
  | .stopped _ held, r => r = .error (.error .full) ∧ ¬t.store.HasRoom ∧ ∃ P, t.Recalls P held

theorem insert_tooLarge {value : ByteArray} (hv : maxValueSize < value.size) (key : UInt64) :
    (insert key value).result t =
      (.error (.error (.valueTooLarge value.size maxValueSize)), t) := by
  simp only [insert, if_pos hv, Call.result_bind_error (Call.result_fail _ t)]

/-- The pages of a tree and those that it has been given. -/
theorem Represents.within (h : t.Represents s) {store : PageStore}
    (hwrote : t.store.Wrote fs ws store) : ∀ q ∈ s.pages ++ fs, q.toNat < store.pageCount := by
  have hsound := h.coherent.sound
  intro q hq
  rcases List.mem_append.1 hq with hq | hq
  · have hold := h.recalls.within q hq
    rw [hwrote.pageCount_eq hsound]
    omega
  · exact ((hwrote.fresh hsound).2 q hq).2

theorem Represents.stranded {e : Entry} {kept held : Shape} (h : t.Represents s)
    (hins : Inserted e s fs (.stopped kept held) ws) (hstrand : t.Stranded fs ws held t') :
    ∃ P, t'.Recalls P held := by
  have hsound := h.coherent.sound
  have hpages := hins.stopped.pages
  have hall := h.stands.distinct_append (hstrand.wrote.unseen hsound) (hstrand.wrote.fresh hsound).1
  have hordered := hins.stopped.ordered h.stands.ordered UInt64.zero_le (le_topKey e.key)
  obtain ⟨P, hmirrors, hon, -⟩ := hstrand.mind
  refine ⟨P, hmirrors, ?_, hon, hpages.symm.nodup hall, ⟨0, topKey, hordered.2⟩, ?_⟩
  · rw [hins.stopped.page.2, hstrand.root h.coherent, h.page]
  · exact fun q hq => h.within hstrand.wrote q (hpages.subset hq)

/-- The left half of a root that has split stands on the root page. -/
theorem Represents.left_half {e : Entry} {a b : Shape} (h : t.Represents s)
    (he : e.value.size ≤ maxValueSize) (hins : Inserted e s fs (.halves a key b) ws)
    (hadv : t.Advanced fs ws t') :
    a.page = t'.root ∧ a.On t'.store.view ∧ Node.FitsPage a.node := by
  have hsound := h.coherent.sound
  have hmem : a ∈ (Growth.halves a key b).trees := by simp [Growth.trees]
  have hall := h.stands.distinct_append (hadv.wrote.unseen hsound) (hadv.wrote.fresh hsound).1
  refine ⟨?_, (hins.on h.stands.on hall a hmem).mono fun q _ n hn => hadv.wrote.view hsound q n hn,
    (hins.small h.stands.small he a hmem).fitsPage⟩
  rw [hadv.root h.coherent, ← h.page, hins.page a rfl]

theorem Represents.insert_ok (h : t.Represents s) {value : ByteArray}
    (hv : value.size ≤ maxValueSize) (key : UInt64) : ∃ fs g ws r t',
      (insert key value).result t = (r, t') ∧ Insertion ⟨key, value⟩ s fs g ws ∧
      t.store.Wrote fs ws t'.store ∧ t'.Entered g r := by
  have hsound := h.coherent.sound
  obtain ⟨fs, g, ws, hins, hgrew⟩ := insertBelow_ok (e := ⟨key, value⟩) hv h.length_parts_le
    h.stands.distinct h.coherent h.holds
  simp only [insert, if_neg (Nat.not_lt.2 hv)]
  rw [Call.result_bind_ok (Call.result_get t)]
  cases g with
  | stopped kept held =>
    obtain ⟨t₁, hbelow, hstrand⟩ := hgrew
    exact ⟨fs, _, ws, _, t₁, Call.result_bind_error hbelow _, .stopped hins, hstrand.wrote, rfl,
      hstrand.full, h.stranded hins hstrand⟩
  | whole s' =>
    obtain ⟨t₁, hbelow, hadv⟩ := hgrew
    refine ⟨fs, .whole s', ws, .ok (), t₁, ?_, .whole hins, hadv.wrote, rfl, ?_⟩
    · rw [Call.result_bind_ok hbelow, Call.result_pure]
    · exact h.inserted hv (.whole hins) hadv.wrote hadv.coherent (hadv.root h.coherent)
        (hadv.synced h.synced)
  | halves a mid b =>
    obtain ⟨new, t₁, hbelow, hadv, hnew, hnewroot⟩ := hgrew
    have hroot := hadv.root h.coherent
    have hall := h.stands.distinct_append (hadv.wrote.unseen hsound) (hadv.wrote.fresh hsound).1
    obtain ⟨hpage, hon, hfit⟩ := h.left_half hv hins hadv
    have htop : t₁.store.view t₁.root = some a.node := hpage ▸ hon.top
    rw [Call.result_bind_ok hbelow, ← hadv.rootId]
    rw [← hadv.rootId] at hnewroot
    by_cases hroom : t₁.store.HasRoom
    · obtain ⟨t₂, hraise, hwrote, hcoherent, hroot', hsynced, -⟩ :=
        raiseRoot_ok hadv.coherent htop hfit hnew hnewroot hroom mid
      rw [hroot, ← h.page] at hwrote
      have hraised := Insertion.raised (m := .ofNat t₁.store.pageCount) hins
      have hwrote' := hadv.wrote.trans hwrote
      exact ⟨_, _, _, .ok (), t₂, hraise, hraised, hwrote', rfl,
        h.inserted hv hraised hwrote' hcoherent (hroot'.trans hroot) hsynced⟩
    · have hhalves := hins.ordered (by simp) h.stands.ordered UInt64.zero_le (le_topKey key)
      have hpages := hins.pages (by simp)
      simp only [Growth.trees, List.flatMap_cons, List.flatMap_nil, List.append_nil] at hpages
      have hdistinct := hpages.symm.nodup hall
      refine ⟨fs, _, ws, _, t₁, raiseRoot_full hadv.coherent.rooted hroom mid new, .full hins,
        hadv.wrote, rfl, hroom, t₁.store.view, hadv.coherent.mirrors, hpage, hon,
        (List.nodup_append.1 hdistinct).1, ⟨0, mid, hhalves.2.1⟩, ?_⟩
      exact fun q hq => h.within hadv.wrote q (hpages.subset (List.mem_append_left _ hq))

end PagedTree.Tree
