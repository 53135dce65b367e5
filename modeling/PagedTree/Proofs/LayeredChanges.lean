import PagedTree.Proofs.LayeredHandle
import PagedTree.Proofs.Raising
import PagedTree.Tree.Erase

/-! # Changing a file in layers

An erasure only takes children away or puts grandchildren in their place, so every page keeps its height.
An insertion puts each new page right below the page of the node that it takes a half of; it asks for a
page only when it is certain to write it next, so that also where a page is refused the header on the
file is that of the handle.
-/
namespace PagedTree

namespace NodeOf

variable {Child : Type} {page? : Child → Option PageNo} {L : Layering} {p q r : PageNo}
  {b c : Branch Child} {slot : Nat}

theorem Sits.unlink (h : Sits L page? p (.branch b)) (hc : b.unlink? slot = some c) :
    Sits L page? p (.branch c) := by
  obtain ⟨here, ⟨hshaped, hlen⟩, hleads⟩ := h
  unfold Branch.Shaped at hshaped
  dsimp only [Branch.unlink?] at hc
  generalize (if slot < b.keys.length then slot else slot - 1) = sep at hc
  split at hc
  · rename_i hslot
    cases hc
    refine ⟨here, ⟨?_, ?_⟩, fun d hd => hleads d (List.mem_of_mem_eraseIdx hd)⟩
    · simp only [Branch.Shaped, List.length_eraseIdx_of_lt hslot.1, List.length_eraseIdx_of_lt hslot.2]
      omega
    · simp only [List.length_eraseIdx_of_lt hslot.1]
      omega
  · cases hc

theorem Sits.replace (h : Sits L page? p (.branch b)) {child : Child} (hq : page? child = some q)
    (hbelow : L.Below q p) (hc : b.replace? slot child = some c) : Sits L page? p (.branch c) := by
  unfold Branch.replace? at hc
  split at hc
  · cases hc
    exact h.setChild slot hq hbelow
  · cases hc

/-- A branch that takes up the halves of a child may be full afterwards. -/
theorem Sits.absorb (h : Sits L page? p (.branch b)) {left right : Child} {key : UInt64}
    (hl : page? left = some q) (hq : L.Below q p) (hr : page? right = some r) (hr' : L.Below r p)
    (hc : b.absorb? slot left key right = some c) : c.Shaped ∧ c.keys.length ≤ order ∧
      Leads page? (L.Below · p) (.branch c) := by
  obtain ⟨-, ⟨hshaped, hlen⟩, hleads⟩ := h
  unfold Branch.absorb? at hc
  split at hc
  · rename_i hslot
    obtain ⟨c', hc', hshaped'⟩ := hshaped.absorb? hslot.1 left key right
    rw [Branch.absorb?, if_pos hslot] at hc'
    cases hc'
    cases hc
    refine ⟨hshaped', ?_, fun d hd => ?_⟩
    · simp only [List.length_insertIdx, if_pos hslot.1]
      exact hlen
    · rcases List.eq_or_mem_of_mem_insertIdx hd with rfl | hd
      · exact ⟨r, hr, hr'⟩
      rcases List.mem_or_eq_of_mem_set hd with hd | rfl
      · exact hleads d hd
      · exact ⟨q, hl, hq⟩
  · cases hc

/-- The halves of a branch are not full and lead to nothing but what it led to. -/
theorem Leads.split {good : PageNo → Prop} (h : Leads page? good (.branch b)) (hshaped : b.Shaped)
    (hkeys : b.keys ≠ []) (hlen : b.keys.length ≤ order) : ∃ l key r, b.split? = some (l, key, r) ∧
      (WithinOrder (.branch l) ∧ Leads page? good (.branch l)) ∧
      WithinOrder (.branch r) ∧ Leads page? good (.branch r) := by
  obtain ⟨l, key, r, hsplit, hl, hr, hmid, hchildren⟩ := hshaped.split? hkeys
  have hmidlen := congrArg List.length hmid
  rw [List.length_append, List.length_cons] at hmidlen
  refine ⟨l, key, r, hsplit, ⟨⟨hl, by omega⟩, fun d hd => h d ?_⟩, ⟨hr, by omega⟩, fun d hd => h d ?_⟩
  · exact hchildren ▸ List.mem_append_left _ hd
  · exact hchildren ▸ List.mem_append_right _ hd

end NodeOf

namespace Tree

variable {t t' : Tree} {L L' : Layering} {id cid new : NodeId} {p q f : PageNo}
  {n l r : NodeOf Slot}

/-! ## Erasing -/

theorem updateBranch_steady {f : Branch Slot → Option (Branch Slot)} (ht : t.Layered L)
    (hid : t.resident.pageOf? id = some p) (hf : ∀ b c, NodeOf.Sits L t.resident.slotPage? p (.branch b) →
      f b = some c → NodeOf.Sits L t.resident.slotPage? p (.branch c)) :
    Steady L (updateBranch id f) t fun _ _ => True := by
  obtain ⟨n, hr, hn⟩ := ht.exists_node hid
  rw [updateBranch]
  refine .bind_ok (held_ok hr) ?_
  cases n with
  | leaf l => exact .pure ht trivial
  | branch b =>
    refine (Steady.orFault ht _).bind ?_
    rintro c _ - ⟨rfl, hc⟩
    exact update_steady ht hid (hf b c hn hc)

theorem tidy_steady (ht : t.Layered L) (hid : t.resident.pageOf? id = some p)
    (hcid : t.resident.pageOf? cid = some q) (hq : L.Below q p) (slot : Nat) :
    Steady L (tidy id slot cid) t fun _ _ => True := by
  obtain ⟨m, hm, hmsits⟩ := ht.exists_node hcid
  obtain ⟨n, hr, -⟩ := ht.exists_node hid
  rw [tidy]
  refine .bind_ok (held_ok hm) ?_
  cases m with
  | leaf l =>
    dsimp only
    split
    · refine .bind_ok (held_ok hr) ?_
      cases n with
      | leaf l => exact .pure ht trivial
      | branch b =>
        dsimp only
        split
        · exact updateBranch_steady ht hid fun b c => NodeOf.Sits.unlink
        · exact .pure ht trivial
    · exact .pure ht trivial
  | branch d =>
    dsimp only
    split
    · refine (Steady.orFault ht _).bind ?_
      rintro only _ - ⟨rfl, honly⟩
      obtain ⟨r, hr, hbelow⟩ := hmsits.leads only (List.mem_of_mem_head? honly)
      exact updateBranch_steady ht hid fun b c hb => hb.replace hr (hbelow.trans hq)
    · exact .pure ht trivial

theorem eraseBelow_steady (key : UInt64) {limit : Nat} (hlim : L.height p < limit)
    (ht : t.Layered L) (hid : t.resident.pageOf? id = some p) :
    Steady L (eraseBelow key limit id) t fun _ _ => True := by
  induction limit generalizing t id p with
  | zero => exact absurd hlim (Nat.not_lt_zero _)
  | succ limit ih =>
    obtain ⟨n, hr, hn⟩ := ht.exists_node hid
    rw [eraseBelow]
    refine .bind_ok (held_ok hr) ?_
    cases n with
    | leaf l =>
      dsimp only
      split
      · have herased : NodeOf.Sits L t.resident.slotPage? p (.leaf (l.erase key)) := by
          refine ⟨hn.here, ⟨?_, fun e he => hn.within.2 e (List.mem_of_mem_eraseP he)⟩, hn.leads⟩
          exact Nat.lt_of_le_of_lt List.length_eraseP_le hn.within.1
        exact (update_steady ht hid herased).bind fun _ _ ht₁ _ => .pure ht₁.layered trivial
      · exact .pure ht trivial
    | branch b =>
      refine .anyM ht fun slot _ u hu => ?_
      refine (child_steady hu.layered (hu.pages id p hid) slot).bind ?_
      rintro c u₁ hu₁ ⟨q, hc, hq⟩
      have hbelow := ih (Nat.lt_of_lt_of_le hq.lt (Nat.le_of_lt_succ hlim)) hu₁.layered hc
      refine hbelow.bind fun erased u₂ hu₂ _ => ?_
      have hid₂ := hu₂.pages id p (hu₁.pages id p (hu.pages id p hid))
      cases erased with
      | false => exact .pure hu₂.layered trivial
      | true =>
        refine (tidy_steady hu₂.layered hid₂ (hu₂.pages c q hc) hq slot).bind fun _ _ hu₃ _ => ?_
        exact .pure hu₃.layered trivial

theorem erase_steady (key : UInt64) (ht : t.Layered L) :
    Steady L (erase key) t fun _ _ => True := by
  obtain ⟨p, hp, hlim⟩ := ht.exists_root
  exact .bind_ok (Call.result_get t) (eraseBelow_steady key (Nat.lt_of_succ_lt hlim) ht hp)

/-! ## Inserting -/

/-- How a call that splits node `id` may end well: the right half is on a page below that of the left one,
which stayed where it was. -/
def Halved (t : Tree) (L : Layering) (id : NodeId) (p : PageNo) (r : Option Split) (t' : Tree) : Prop :=
  ∃ L', L'.Extends L ∧ t.Onward L' t' ∧ ∀ s, r = some s →
    s.left = id ∧ ∃ f, t'.resident.pageOf? s.right = some f ∧ L'.Below f p

theorem Halved.none (h : t.Onward L t') : t.Halved L id p .none t' :=
  ⟨L, .refl L, h, fun _ hs => by cases hs⟩

theorem Halved.after {u : Tree} {s : Option Split} (h : u.Halved L' id p s t') (hu : t.Onward L' u)
    (hL : L'.Extends L) : t.Halved L id p s t' := by
  obtain ⟨L'', hL', honward, hs⟩ := h
  exact ⟨L'', hL.trans hL', hu.trans honward, hs⟩

/-- The new page goes right below that of the node that is split, so both halves lead down. -/
theorem putHalves_halved (ht : t.Layered L) (hid : t.resident.pageOf? id = some p)
    (hp : p.toNat < L.count) (hroom : t.store.HasRoom) (n : NodeOf Slot)
    (hl : l.Sits (L.under p hp) t.resident.slotPage? p)
    (hr : r.Sits (L.under p hp) t.resident.slotPage? (.ofNat t.store.pageCount)) (key : UInt64) :
    ∃ s t', (putHalves id (.ofNat t.store.pageCount) (l, key, r)).result
      { t with resident := t.resident.put id n, store := t.store.grown } = (.ok s, t') ∧
      t.Halved L id p (some s) t' := by
  have hidlt := Arena.lt_size_of_pageOf? hid
  have hextends := Layering.under_extends hp
  have hslots : ∀ c q, t.resident.slotPage? c = some q →
      (t.resident.add ⟨.ofNat t.store.pageCount, r⟩).slotPage? c = some q :=
    fun _ _ => Arena.slotPage?_mono fun _ _ => Arena.pageOf?_add
  obtain ⟨m, hm, hsits⟩ := (hr.mono hslots (.refl _)).onPage?
  have hheld : ((t.resident.add ⟨.ofNat t.store.pageCount, r⟩).put id l).nodes[t.resident.size]? =
      some ⟨.ofNat t.store.pageCount, r⟩ := by
    rw [Arena.getElem?_put, if_neg (Nat.ne_of_gt hidlt), Arena.getElem?_add, if_pos rfl]
  obtain ⟨b, hb, hdecode, hright⟩ :=
    @write_held { t with
      resident := (t.resident.add ⟨.ofNat t.store.pageCount, r⟩).put id l
      store := t.store.grown } _ _ ⟨.ofNat t.store.pageCount, r⟩ hheld (Arena.onPage?_put.trans hm)
      hsits.within.fitsPage (PageStore.allocated_lt ht.store.sound hroom)
  have hstore := ht.withStore (ht.store.extend hroom hp hb hdecode hsits) hextends
  have hkept := hstore.layered.keep ht.pageOf?_ne hr
  have hput := hkept.layered.put (hkept.pages id p hid) (hl.mono hslots (.refl _))
  have honward := hstore.trans (hkept.trans hput)
  obtain ⟨s, hs, hleft⟩ := write_result honward.layered (honward.pages id p hid)
  have hwritten := honward.layered.withStore hs (.refl _)
  refine ⟨⟨key, id, t.resident.size⟩, _, ?_, L.under p hp, hextends, honward.trans hwritten, ?_⟩
  · rw [putHalves_eq hidlt, Call.result_bind_ok hright, Call.result_bind_ok hleft, Call.result_pure]
  · rintro _ ⟨⟩
    refine ⟨rfl, .ofNat t.store.pageCount, ?_, Layering.under_below hp ?_⟩
    · exact Arena.pageOf?_put.trans Arena.pageOf?_add_self
    · rw [PageStore.toNat_allocated, ht.store.count]

theorem Layered.allocated_eq (ht : t.Layered L) :
    (UInt32.ofNat t.store.pageCount).toNat = L.count := by
  rw [PageStore.toNat_allocated, ht.store.count]

/-- A node that has room for the change is written at once. -/
theorem writeNode_halved (ht : t.Layered L) (hid : t.resident.pageOf? id = some p)
    (hn : n.Sits L t.resident.slotPage? p) : Call.Ends (do
      write id
      return none) { t with resident := t.resident.put id n } (t.Halved L id p) (Stops L) := by
  have hput := ht.put hid hn
  obtain ⟨s, hs, hrun⟩ := write_result hput.layered (hput.pages id p hid)
  refine .of_ok (Call.result_bind_ok hrun _) (.none ?_)
  exact hput.trans (hput.layered.withStore hs (.refl L))

theorem insertIntoLeaf_halved {e : Entry} (he : e.value.size ≤ maxValueSize) {l : Leaf}
    (ht : t.Layered L) (hr : t.resident.nodes[id]? = some ⟨p, .leaf l⟩) :
    (insertIntoLeaf id e).Ends t (t.Halved L id p) (Stops L) := by
  have hid := Arena.pageOf?_of_getElem? hr
  obtain ⟨hp, hwithin, hleads⟩ := ht.sits id _ hr
  have hsmall : (Shape.leaf p l).Small := Shape.small_leaf.2 hwithin
  rw [insertIntoLeaf]
  refine .bind_ok (heldLeaf_ok hr) (.bind_ok (put_result _) ?_)
  split
  · rename_i hfull
    by_cases hroom : t.store.HasRoom
    · have hnew := ht.allocated_eq
      have htwo : 2 ≤ (l.insert e).entries.length :=
        Nat.le_trans (by decide) (of_decide_eq_true hfull)
      obtain ⟨a, key, b, hsplit, -⟩ := Leaf.split?_ok htwo (.ofNat t.store.pageCount)
      obtain ⟨-, hanext, hbnext, -⟩ := Leaf.entries_split? hsplit
      have hhalves := (LeafInserted.splits (p := p) hfull hsplit).small hsmall he
      have ha := Shape.small_leaf.1 (hhalves (.leaf p a) (by simp [Growth.trees]))
      have hb := Shape.small_leaf.1
        (hhalves (.leaf (.ofNat t.store.pageCount) b) (by simp [Growth.trees]))
      have hasits : NodeOf.Sits (L.under p hp) t.resident.slotPage? p (.leaf a) := by
        refine ⟨Nat.lt_succ_of_lt hp, ha, fun q hq => ?_⟩
        cases hanext.symm.trans hq
        exact Layering.under_below hp hnew
      have hbsits : NodeOf.Sits (L.under p hp) t.resident.slotPage? (.ofNat t.store.pageCount)
          (.leaf b) := by
        refine ⟨hnew.trans_lt (Nat.lt_succ_self _), hb, fun q hq => ?_⟩
        exact Layering.below_under hp hnew (hleads q (hbnext.symm.trans hq))
      obtain ⟨s, t', hrun, hs⟩ := putHalves_halved ht hid hp hroom (.leaf (l.insert e)) hasits hbsits key
      refine .of_ok (Call.result_bind_ok ((splitLeaf_eq hid hroom hsplit).trans hrun) _) hs
    · exact .of_error (Call.result_bind_error (splitLeaf_full hroom _) _) (ht.error _)
  · rename_i hroom
    have hfits := (LeafInserted.fits (p := p) (Bool.eq_false_iff.2 hroom)).small hsmall he
    have hsits : NodeOf.Sits L t.resident.slotPage? p (.leaf (l.insert e)) :=
      ⟨hp, Shape.small_leaf.1 (hfits (.leaf p (l.insert e)) (by simp [Growth.trees])), hleads⟩
    exact writeNode_halved ht hid hsits

theorem heldBranch_steady (ht : t.Layered L) (hid : t.resident.pageOf? id = some p) :
    Steady L (heldBranch id) t fun b t' =>
      t' = t ∧ NodeOf.Sits L t.resident.slotPage? p (.branch b) := by
  obtain ⟨n, hr, hn⟩ := ht.exists_node hid
  rw [heldBranch]
  refine .bind_ok (held_ok hr) ?_
  cases n with
  | leaf l => exact .fail ht
  | branch b => exact .pure ht ⟨rfl, hn⟩

theorem absorb_halved {s : Split} (slot : Nat) (ht : t.Layered L)
    (hid : t.resident.pageOf? id = some p) (hleft : t.resident.pageOf? s.left = some q)
    (hq : L.Below q p) (hright : t.resident.pageOf? s.right = some f) (hf : L.Below f p) :
    (absorb id slot s).Ends t (t.Halved L id p) (Stops L) := by
  rw [absorb]
  refine Call.Ends.bind (heldBranch_steady ht hid) ?_
  rintro b t ⟨-, rfl, hb⟩
  refine Call.Ends.bind (Steady.orFault ht _) ?_
  rintro c t ⟨-, rfl, hc⟩
  have hl : t.resident.slotPage? (.loaded s.left) = some q := hleft
  have hr : t.resident.slotPage? (.loaded s.right) = some f := hright
  obtain ⟨hshaped, hlen, hleads⟩ := hb.absorb hl hq hr hf hc
  refine .bind_ok (put_result _) ?_
  split
  · rename_i hfull
    have hp := hb.here
    by_cases hroom : t.store.HasRoom
    · have hnew := ht.allocated_eq
      have hkeys : c.keys ≠ [] := by
        intro he
        simp [Branch.isFull, he, order] at hfull
      obtain ⟨l, key, r, hsplit, ⟨hl, hlleads⟩, hr, hrleads⟩ := hleads.split hshaped hkeys hlen
      have hlsits : NodeOf.Sits (L.under p hp) t.resident.slotPage? p (.branch l) :=
        ⟨Nat.lt_succ_of_lt hp, hl,
          hlleads.mono (fun _ _ hd => hd) fun _ => (Layering.under_extends hp).below⟩
      have hrsits : NodeOf.Sits (L.under p hp) t.resident.slotPage? (.ofNat t.store.pageCount)
          (.branch r) := ⟨hnew.trans_lt (Nat.lt_succ_self _), hr, hrleads.under hp hnew⟩
      obtain ⟨s', t', hrun, hs'⟩ := putHalves_halved ht hid hp hroom (.branch c) hlsits hrsits key
      exact .of_ok (Call.result_bind_ok ((splitBranch_eq hid hroom hsplit).trans hrun) _) hs'
    · exact .of_error (Call.result_bind_error (splitBranch_full hroom _) _) (ht.error _)
  · rename_i hroom
    have hsits : NodeOf.Sits L t.resident.slotPage? p (.branch c) :=
      ⟨hb.here, ⟨hshaped, Nat.lt_of_not_le fun hle => hroom (decide_eq_true hle)⟩, hleads⟩
    exact writeNode_halved ht hid hsits

theorem insertBelow_halved {e : Entry} (he : e.value.size ≤ maxValueSize) {limit : Nat}
    (hlim : L.height p < limit) (ht : t.Layered L) (hid : t.resident.pageOf? id = some p) :
    (insertBelow e limit id).Ends t (t.Halved L id p) (Stops L) := by
  induction limit generalizing t id p with
  | zero => exact absurd hlim (Nat.not_lt_zero _)
  | succ limit ih =>
    obtain ⟨n, hr, -⟩ := ht.exists_node hid
    rw [insertBelow]
    refine .bind_ok (held_ok hr) ?_
    cases n with
    | leaf l => exact insertIntoLeaf_halved he ht hr
    | branch b =>
      refine Call.Ends.bind (child_steady ht hid _) ?_
      rintro c t₁ ⟨ht₁, q, hc, hq⟩
      have hbelow := ih (Nat.lt_of_lt_of_le hq.lt (Nat.le_of_lt_succ hlim)) ht₁.layered hc
      refine Call.Ends.bind hbelow ?_
      rintro r t₂ ⟨L₂, hL₂, ht₂, hs⟩
      have hid₂ := ht₂.pages id p (ht₁.pages id p hid)
      cases r with
      | none => exact .pure ⟨L₂, hL₂, ht₁.trans ht₂, fun _ hs => by cases hs⟩
      | some s =>
        obtain ⟨hleft, f, hright, hf⟩ := hs s rfl
        have hq₂ := hL₂.below hq
        have habs := absorb_halved (b.slotOf e.key) ht₂.layered hid₂ (hleft ▸ ht₂.pages c q hc) hq₂
          hright (hf.trans hq₂)
        exact habs.mono (fun _ _ h => h.after (ht₁.trans ht₂) hL₂) fun _ _ h => ⟨h.1, h.2.mono hL₂⟩

/-- The left half of the root goes to a new page right below the root page, so above the right half. -/
theorem raiseRoot_settled {s : Split} (ht : t.Layered L) (hleft : t.resident.pageOf? s.left = some p)
    (hright : t.resident.pageOf? s.right = some f) (hf : L.Below f p) :
    (raiseRoot s).Ends t (fun _ t' => t'.store.Settled L) (Stops L) := by
  obtain ⟨n, hr, hp, hwithin, hleads⟩ := ht.exists_node hleft
  rw [raiseRoot]
  refine .bind_ok (held_ok hr) ?_
  by_cases hroom : t.store.HasRoom
  · have hnew := ht.allocated_eq
    have hlow := Layering.under_below hp hnew
    obtain ⟨m, hm, hsits⟩ := NodeOf.Sits.onPage? ⟨hlow.low, hwithin, hleads.under hp hnew⟩
    obtain ⟨b, hb, hdecode, hcopy⟩ := @writeTo_ok { t with store := t.store.grown } _ _ _ _ hr hm
      hsits.within.fitsPage (PageStore.allocated_lt ht.store.sound hroom)
    have hgrown := ht.store.extend hroom hp hb hdecode hsits
    obtain ⟨a, hrebind, hmoved, -⟩ := Arena.rebind?_ok ht.indexed hleft ht.pageOf?_ne
    have hapart : s.right ≠ s.left := by
      intro he
      rw [he, hleft] at hright
      cases hright
      exact Nat.lt_irrefl _ hf.lt
    refine .bind_ok (allocate_ok hroom) (.bind_ok hcopy (.bind_ok (rebind_ok hrebind) ?_))
    refine .bind_ok (keep_ok _) ?_
    have hpair : NodeOf.Sits (L.under p hp) some p
        (.branch ⟨[s.key], [.ofNat t.store.pageCount, f]⟩) := by
      refine ⟨hlow.high, ⟨rfl, (by decide : 1 < order)⟩, ?_⟩
      simp [NodeOf.Leads, hlow, (Layering.under_extends hp).below hf]
    obtain ⟨c, hc, hdecode', hover⟩ := @write_held { t with
        store := t.store.grown.putPage (.ofNat t.store.pageCount) b
        resident := a.add ⟨p, .branch ⟨[s.key], [.loaded s.left, .loaded s.right]⟩⟩ }
      a.size _ _ (by rw [Arena.getElem?_add, if_pos rfl])
      (Arena.onPage?_mono (onPage?_pair (hmoved.pageOf?_same hleft)
        ((hmoved.pageOf?_other hapart).trans hright) s.key) fun _ _ => Arena.pageOf?_add)
      hpair.within.fitsPage (hgrown.count ▸ hlow.high)
    refine .bind_ok hover (.of_ok (Call.result_modify _ _) ?_)
    exact ⟨_, Layering.under_extends hp, hgrown.write hc hdecode' hpair⟩
  · exact .of_error (Call.result_bind_error (allocate_full hroom) _) (ht.error _)

/-- However an insertion ends, the file is in layers still. -/
theorem insert_settled (key : UInt64) (value : ByteArray) (ht : t.Layered L) :
    (insert key value).Ends t (fun _ t' => t'.store.Settled L) (Stops L) := by
  obtain ⟨p, hp, hlim⟩ := ht.exists_root
  by_cases hv : maxValueSize < value.size
  · exact .of_error (insert_tooLarge hv key) (ht.error _)
  · rw [insert, if_neg hv]
    refine .bind_ok (Call.result_get t) ?_
    refine Call.Ends.bind (insertBelow_halved (Nat.not_lt.1 hv) (Nat.lt_of_succ_lt hlim) ht hp) ?_
    rintro r t₁ ⟨L₁, hL₁, ht₁, hs⟩
    cases r with
    | none => exact .pure ⟨L₁, hL₁, ht₁.layered.store⟩
    | some s =>
      obtain ⟨hleft, f, hright, hf⟩ := hs s rfl
      have hraise := raiseRoot_settled ht₁.layered (hleft ▸ ht₁.pages _ p hp) hright hf
      exact hraise.mono (fun _ _ h => h.mono hL₁) fun _ _ h => ⟨h.1, h.2.mono hL₁⟩

end Tree

end PagedTree
