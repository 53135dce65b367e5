import PagedTree.Proofs.Handle
import PagedTree.Proofs.Intact
import PagedTree.Proofs.Layers

/-! # Handles on a file in layers

Whatever pages a handle has taken nodes from, each of them leads down, so no walk is longer than there are
pages. This needs neither keys in order nor a tree: nodes may be shared, and what is held may differ from
what is on file. A call that ends with an error leaves a file that is as good as before, though the handle
may be of no use then.
-/
namespace PagedTree.Tree

/-- What holds of a handle on a file in layers: each node that it holds leads down. -/
structure Layered (t : Tree) (L : Layering) : Prop where
  store : t.store.Layered L
  indexed : t.resident.Indexed
  sits : ∀ (id : NodeId) (r : Resident), t.resident.nodes[id]? = some r →
    r.node.Sits L t.resident.slotPage? r.page
  rooted : ∃ p, t.resident.pageOf? t.rootId = some p

/-- From one handle to another: every node stayed on its page. -/
structure Onward (t : Tree) (L : Layering) (t' : Tree) : Prop where
  layered : t'.Layered L
  pages : ∀ id p, t.resident.pageOf? id = some p → t'.resident.pageOf? id = some p
  rootId : t'.rootId = t.rootId

/-- How a call may be interrupted on a file in layers. -/
def Stops (L : Layering) (i : Interrupt) (t : Tree) : Prop := i ≠ .endless ∧ t.store.Settled L

variable {α β : Type} {t t' t'' : Tree} {L L' : Layering} {id : NodeId} {p q : PageNo}
  {n : NodeOf Slot}

namespace Onward

theorem refl (h : t.Layered L) : t.Onward L t := ⟨h, fun _ _ => id, rfl⟩

theorem trans (h : t.Onward L t') (h' : t'.Onward L' t'') : t.Onward L' t'' :=
  ⟨h'.layered, fun id p hp => h'.pages id p (h.pages id p hp), h'.rootId.trans h.rootId⟩

end Onward

namespace Layered

theorem error (h : t.Layered L) (e : StoreError) : Stops L (.error e) t :=
  ⟨by simp, h.store.settled⟩

theorem fault (h : t.Layered L) : Stops L .fault t := ⟨by simp, h.store.settled⟩

theorem exists_node (h : t.Layered L) (hid : t.resident.pageOf? id = some p) :
    ∃ n, t.resident.nodes[id]? = some ⟨p, n⟩ ∧ n.Sits L t.resident.slotPage? p := by
  obtain ⟨⟨p, n⟩, hr, rfl⟩ := Arena.exists_of_pageOf? hid
  exact ⟨n, hr, h.sits id _ hr⟩

/-- No walk down from a page is longer than the limit. -/
theorem height_lt (h : t.Layered L) (hp : p.toNat < L.count) : L.height p + 1 < t.walkLimit := by
  have hheight := L.bounded p hp
  rw [← h.store.count] at hheight
  unfold walkLimit
  omega

theorem exists_root (h : t.Layered L) : ∃ p, t.resident.pageOf? t.rootId = some p ∧
    L.height p + 1 < t.walkLimit := by
  obtain ⟨p, hp⟩ := h.rooted
  obtain ⟨n, -, hn⟩ := h.exists_node hp
  exact ⟨p, hp, h.height_lt hn.here⟩

theorem pageOf?_ne (h : t.Layered L) (id : NodeId) :
    t.resident.pageOf? id ≠ some (.ofNat t.store.pageCount) := by
  intro hid
  obtain ⟨n, -, hn⟩ := h.exists_node hid
  have hlt := hn.here
  rw [PageStore.toNat_allocated, h.store.count] at hlt
  exact Nat.lt_irrefl _ hlt

/-- A node may be taken in from its page. -/
theorem keep (h : t.Layered L) (hnew : ∀ id, t.resident.pageOf? id ≠ some p)
    (hn : n.Sits L t.resident.slotPage? p) :
    t.Onward L { t with resident := t.resident.add ⟨p, n⟩ } := by
  have hmono : ∀ j q, t.resident.pageOf? j = some q →
      (t.resident.add ⟨p, n⟩).pageOf? j = some q := fun _ _ => Arena.pageOf?_add
  have hslots : ∀ s q, t.resident.slotPage? s = some q →
      (t.resident.add ⟨p, n⟩).slotPage? s = some q := fun _ _ => Arena.slotPage?_mono hmono
  obtain ⟨root, hroot⟩ := h.rooted
  refine ⟨⟨h.store, h.indexed.add hnew, ?_, root, hmono _ _ hroot⟩, hmono, rfl⟩
  intro j r hr
  rw [Arena.getElem?_add] at hr
  split at hr
  · cases hr
    exact hn.mono hslots (.refl L)
  · exact (h.sits j r hr).mono hslots (.refl L)

/-- A node may change as long as it leads down. -/
theorem put (h : t.Layered L) (hid : t.resident.pageOf? id = some p)
    (hn : n.Sits L t.resident.slotPage? p) :
    t.Onward L { t with resident := t.resident.put id n } := by
  have hslots : ∀ s q, t.resident.slotPage? s = some q →
      (t.resident.put id n).slotPage? s = some q := fun _ _ hs => Arena.slotPage?_put.trans hs
  obtain ⟨root, hroot⟩ := h.rooted
  refine ⟨⟨h.store, h.indexed.put id n, ?_, root, Arena.pageOf?_put.trans hroot⟩,
    fun _ _ hj => Arena.pageOf?_put.trans hj, rfl⟩
  intro j r hr
  rw [Arena.getElem?_put] at hr
  split at hr
  · rename_i hj
    obtain ⟨r', hr', rfl⟩ := Option.map_eq_some_iff.1 hr
    rw [hj, Arena.pageOf?_of_getElem? hr'] at *
    cases hid
    exact hn.mono hslots (.refl L)
  · exact (h.sits j r hr).mono hslots (.refl L)

theorem withStore (h : t.Layered L) {s : PageStore} (hs : s.Layered L') (hL : L'.Extends L) :
    t.Onward L' { t with store := s } :=
  ⟨⟨hs, h.indexed, fun id r hr => (h.sits id r hr).mono (fun _ _ hc => hc) hL, h.rooted⟩,
    fun _ _ => id, rfl⟩

end Layered

/-! ## Steady calls -/

/-- However the call ends, the file is in layers still; if it ends well the pages have kept their heights,
every node its page, and the rest is as said. -/
def Steady (L : Layering) (c : Call Tree α) (t : Tree) (good : α → Tree → Prop) : Prop :=
  c.Ends t (fun a t' => t.Onward L t' ∧ good a t') (Stops L)

namespace Steady

variable {c : Call Tree α} {f : α → Call Tree β} {good good' : α → Tree → Prop}
  {late : β → Tree → Prop}

theorem bind (h : Steady L c t good)
    (hf : ∀ a t₁, t.Onward L t₁ → good a t₁ → Steady L (f a) t₁ late) :
    Steady L (c >>= f) t late :=
  Call.Ends.bind h fun a t₁ h₁ => (hf a t₁ h₁.1 h₁.2).mono
    (fun _ _ h₂ => ⟨h₁.1.trans h₂.1, h₂.2⟩) fun _ _ => id

theorem mono (h : Steady L c t good) (hgood : ∀ a t', t.Onward L t' → good a t' → good' a t') :
    Steady L c t good' :=
  Call.Ends.mono h (fun a t' h' => ⟨h'.1, hgood a t' h'.1 h'.2⟩) fun _ _ => id

theorem of_ok {a : α} (h : c.result t = (.ok a, t')) (ht : t.Onward L t') (hgood : good a t') :
    Steady L c t good := Call.Ends.of_ok h ⟨ht, hgood⟩

theorem pure {a : α} (ht : t.Layered L) (h : good a t) :
    Steady L (Pure.pure a : Call Tree α) t good := of_ok (Call.result_pure a t) (.refl ht) h

theorem fail {e : StoreError} (ht : t.Layered L) : Steady L (Call.fail e) t good :=
  Call.Ends.of_error (Call.result_fail e t) (ht.error e)

theorem orFault (ht : t.Layered L) (x : Option α) :
    Steady L (Call.orFault x) t fun a t' => t' = t ∧ x = some a := by
  cases x with
  | none => exact Call.Ends.of_error (Call.result_orFault_none t) ht.fault
  | some a => exact of_ok (Call.result_orFault_some a t) (.refl ht) ⟨rfl, rfl⟩

/-- The second part of a sequence, where the first one is known to change nothing. -/
theorem bind_ok {a : α} (h : c.result t = (.ok a, t)) (hf : Steady L (f a) t late) :
    Steady L (c >>= f) t late := Call.Ends.bind_ok h hf

theorem mapM {f : β → Call Tree α} {xs : List β} (ht : t.Layered L)
    (hf : ∀ x ∈ xs, ∀ u, t.Onward L u → Steady L (f x) u fun _ _ => True) :
    Steady L (xs.mapM f) t fun _ _ => True := by
  refine Call.Ends.mono (Call.Ends.mapM (t.Onward L) (.refl ht) fun x hx u hu => ?_)
    (fun _ _ h => ⟨h, trivial⟩) fun _ _ h => h
  exact Call.Ends.mono (hf x hx u hu) (fun _ _ h => hu.trans h.1) fun _ _ h => h

theorem findSomeM? {f : β → Call Tree (Option α)} {xs : List β} (ht : t.Layered L)
    (hf : ∀ x ∈ xs, ∀ u, t.Onward L u → Steady L (f x) u fun _ _ => True) :
    Steady L (xs.findSomeM? f) t fun _ _ => True := by
  refine Call.Ends.mono (Call.Ends.findSomeM? (t.Onward L) (.refl ht) fun x hx u hu => ?_)
    (fun _ _ h => ⟨h, trivial⟩) fun _ _ h => h
  exact Call.Ends.mono (hf x hx u hu) (fun _ _ h => hu.trans h.1) fun _ _ h => h

theorem anyM {f : β → Call Tree Bool} {xs : List β} (ht : t.Layered L)
    (hf : ∀ x ∈ xs, ∀ u, t.Onward L u → Steady L (f x) u fun _ _ => True) :
    Steady L (xs.anyM f) t fun _ _ => True := by
  refine Call.Ends.mono (Call.Ends.anyM (fun _ => t.Onward L) (t.Onward L) (.refl ht)
    fun pre x post hxs u hu => ?_) (fun r u h => ⟨?_, trivial⟩) fun _ _ h => h
  · refine Call.Ends.mono (hf x (by simp [hxs]) u hu) (fun r v h => ?_) fun _ _ h => h
    cases r <;> exact hu.trans h.1
  · cases r <;> exact h

end Steady

/-! ## Steps -/

theorem readNode_steady (ht : t.Layered L) (p : PageNo) :
    Steady L (onStore (readNode p)) t fun m t' => t' = t ∧ m.Sits L some p := by
  cases hn : t.store.view p with
  | some m => exact .of_ok (onStore_ok (readNode_ok hn)) (.refl ht) ⟨rfl, ht.store.of_view hn⟩
  | none =>
    obtain ⟨e, -, hread⟩ := readNode_fails hn
    exact Call.Ends.of_error (onStore_error hread) (ht.error e)

theorem resolve_steady (ht : t.Layered L) (p : PageNo) :
    Steady L (resolve p) t fun id t' => t'.resident.pageOf? id = some p := by
  rw [resolve]
  refine .bind_ok (Call.result_get t) ?_
  cases hp : t.resident.byPage[p]? with
  | some id => exact .pure ht ((ht.indexed p id).1 hp)
  | none =>
    have hnew : ∀ id, t.resident.pageOf? id ≠ some p := by
      intro id hid
      rw [(ht.indexed p id).2 hid] at hp
      cases hp
    refine (readNode_steady ht p).bind ?_
    rintro m _ - ⟨rfl, hm⟩
    exact .of_ok (keep_ok _) (ht.keep hnew (hm.unloaded _)) Arena.pageOf?_add_self

/-- Going down ends at a page below. -/
theorem child_steady (ht : t.Layered L) (hid : t.resident.pageOf? id = some p) (slot : Nat) :
    Steady L (child id slot) t fun c t' => ∃ q, t'.resident.pageOf? c = some q ∧ L.Below q p := by
  obtain ⟨n, hr, hn⟩ := ht.exists_node hid
  rw [child]
  refine .bind_ok (held_ok hr) ?_
  cases n with
  | leaf l => exact .fail ht
  | branch b =>
    dsimp only
    cases hslot : b.children[slot]? with
    | none => exact .fail ht
    | some s =>
      obtain ⟨q, hq, hbelow⟩ := hn.leads s (List.mem_of_getElem? hslot)
      cases s with
      | loaded c => exact .pure ht ⟨q, hq, hbelow⟩
      | unloaded q' =>
        obtain rfl : q' = q := Option.some.inj hq
        refine (resolve_steady ht q').bind fun c t₁ ht₁ hc => ?_
        have hid₁ := ht₁.pages id p hid
        obtain ⟨n₁, hr₁, hn₁⟩ := ht₁.layered.exists_node hid₁
        refine .bind_ok (held_ok hr₁) ?_
        have hput := ht₁.layered.put hid₁ (hn₁.setChild (c := .loaded c) slot hc hbelow)
        exact .bind (.of_ok (put_result _) hput ⟨q', hput.pages c q' hc, hbelow⟩)
          fun _ _ ht₂ hc₂ => .pure ht₂.layered hc₂

theorem put_steady (ht : t.Layered L) (hid : t.resident.pageOf? id = some p)
    (hn : n.Sits L t.resident.slotPage? p) : Steady L (Tree.put id n) t fun _ _ => True :=
  .of_ok (put_result n) (ht.put hid hn) trivial

/-- A node that is held can be written. -/
theorem write_result (ht : t.Layered L) (hid : t.resident.pageOf? id = some p) : ∃ s, s.Layered L ∧
    (Tree.write id).result t = (.ok (), { t with store := s }) := by
  obtain ⟨n, hr, hn⟩ := ht.exists_node hid
  obtain ⟨m, hm, hsits⟩ := hn.onPage?
  obtain ⟨b, hb, hdecode, hrun⟩ :=
    write_held hr hm hsits.within.fitsPage (ht.store.count ▸ hsits.here)
  exact ⟨_, ht.store.write hb hdecode hsits, hrun⟩

theorem write_steady (ht : t.Layered L) (hid : t.resident.pageOf? id = some p) :
    Steady L (Tree.write id) t fun _ _ => True := by
  obtain ⟨s, hs, hrun⟩ := write_result ht hid
  exact .of_ok hrun (ht.withStore hs (.refl L)) trivial

theorem update_steady (ht : t.Layered L) (hid : t.resident.pageOf? id = some p)
    (hn : n.Sits L t.resident.slotPage? p) : Steady L (update id n) t fun _ _ => True :=
  (put_steady ht hid hn).bind fun _ _ ht₁ _ => write_steady ht₁.layered (ht₁.pages id p hid)

end PagedTree.Tree
