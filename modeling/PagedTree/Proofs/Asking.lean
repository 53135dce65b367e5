import PagedTree.Proofs.Histories
import PagedTree.Proofs.Outcomes
import PagedTree.Tree.Cursor

/-! # Reading without writing

A handle that has only been read from holds nothing but what its file shows, and so it is whatever the
file holds and however the calls have ended. What a call tells then depends on the pages alone: on the
nodes that it passes, and on where they lead.
-/
namespace PagedTree

/-- How a call that reads may be interrupted, if it may run without an end in one case only, and may be
refused in another one only. -/
inductive Interrupt.OfReading (loop stuck : Prop) : Interrupt → Prop where
  | refused {e : StoreError} : e.OfReading → stuck → OfReading loop stuck (.error e)
  | fault : stuck → OfReading loop stuck .fault
  | endless : loop → OfReading loop stuck .endless

theorem Interrupt.OfReading.mono {loop loop' stuck stuck' : Prop} {i : Interrupt}
    (h : i.OfReading loop stuck) (hloop : loop → loop') (hstuck : stuck → stuck') :
    i.OfReading loop' stuck' := by
  cases h with
  | refused he h => exact .refused he (hstuck h)
  | fault h => exact .fault (hstuck h)
  | endless h => exact .endless (hloop h)

namespace Tree

/-- The file shows these pages, and the handle holds nodes of no others. -/
structure Sees (t : Tree) (P : Pages) : Prop where
  view : t.store.view = P
  copies : t.resident.Copies P

/-- From one handle to another by reading these pages. -/
structure Perused (t : Tree) (P : Pages) (t' : Tree) : Prop where
  sees : t'.Sees P
  store_eq : t'.store = t.store
  pages : ∀ id p, t.resident.pageOf? id = some p → t'.resident.pageOf? id = some p
  rootId : t'.rootId = t.rootId

variable {α β : Type} {P : Pages} {t t' t'' : Tree} {id : NodeId} {p : PageNo}
  {loop loop' stuck stuck' : Prop}

namespace Perused

theorem refl (h : t.Sees P) : t.Perused P t := ⟨h, rfl, fun _ _ => id, rfl⟩

theorem trans (h : t.Perused P t') (h' : t'.Perused P t'') : t.Perused P t'' :=
  ⟨h'.sees, h'.store_eq.trans h.store_eq, fun id p hp => h'.pages id p (h.pages id p hp),
    h'.rootId.trans h.rootId⟩

end Perused

/-! ## Calls that ask -/

/-- However the call ends the handle has only been read from, and if it ends well the rest is as said. -/
def Asks (P : Pages) (c : Call Tree α) (t : Tree) (loop stuck : Prop) (good : α → Tree → Prop) :
    Prop :=
  c.Ends t (fun a t' => t.Perused P t' ∧ good a t')
    fun i t' => t.Perused P t' ∧ i.OfReading loop stuck

namespace Asks

variable {c : Call Tree α} {f : α → Call Tree β} {good good' : α → Tree → Prop}
  {late : β → Tree → Prop}

theorem bind (h : Asks P c t loop stuck good)
    (hf : ∀ a t₁, t.Perused P t₁ → good a t₁ → Asks P (f a) t₁ loop stuck late) :
    Asks P (c >>= f) t loop stuck late :=
  Call.Ends.bind h fun a t₁ h₁ => (hf a t₁ h₁.1 h₁.2).mono
    (fun _ _ h₂ => ⟨h₁.1.trans h₂.1, h₂.2⟩) fun _ _ h₂ => ⟨h₁.1.trans h₂.1, h₂.2⟩

theorem mono (h : Asks P c t loop stuck good) (hloop : loop → loop') (hstuck : stuck → stuck')
    (hgood : ∀ a t', t.Perused P t' → good a t' → good' a t') : Asks P c t loop' stuck' good' :=
  Call.Ends.mono h (fun a t' h' => ⟨h'.1, hgood a t' h'.1 h'.2⟩)
    fun _ _ h' => ⟨h'.1, h'.2.mono hloop hstuck⟩

theorem widen (h : Asks P c t loop stuck good) (hloop : loop → loop') (hstuck : stuck → stuck') :
    Asks P c t loop' stuck' good := h.mono hloop hstuck fun _ _ _ h => h

theorem imp (h : Asks P c t loop stuck good)
    (hgood : ∀ a t', t.Perused P t' → good a t' → good' a t') : Asks P c t loop stuck good' :=
  h.mono id id hgood

theorem of_ok {a : α} (h : c.result t = (.ok a, t')) (ht : t.Perused P t') (hgood : good a t') :
    Asks P c t loop stuck good := Call.Ends.of_ok h ⟨ht, hgood⟩

theorem pure {a : α} (ht : t.Sees P) (h : good a t) :
    Asks P (Pure.pure a : Call Tree α) t loop stuck good := of_ok (Call.result_pure a t) (.refl ht) h

theorem fail {e : StoreError} (ht : t.Sees P) (he : e.OfReading) (h : stuck) :
    Asks P (Call.fail e) t loop stuck good :=
  Call.Ends.of_error (Call.result_fail e t) ⟨.refl ht, .refused he h⟩

theorem endless (ht : t.Sees P) (h : loop) : Asks P (throw .endless) t loop stuck good :=
  Call.Ends.of_error (Call.result_throw .endless t) ⟨.refl ht, .endless h⟩

/-- The second part of a sequence, where the first one is known to change nothing. -/
theorem bind_ok {a : α} (h : c.result t = (.ok a, t)) (hf : Asks P (f a) t loop stuck late) :
    Asks P (c >>= f) t loop stuck late := Call.Ends.bind_ok h hf

theorem orFault (ht : t.Sees P) (x : Option α) (h : x = none → stuck) :
    Asks P (Call.orFault x) t loop stuck fun a t' => t' = t ∧ x = some a := by
  cases x with
  | none => exact Call.Ends.of_error (Call.result_orFault_none t) ⟨.refl ht, .fault (h rfl)⟩
  | some a => exact of_ok (Call.result_orFault_some a t) (.refl ht) ⟨rfl, rfl⟩

/-- A search for a value that stops when it has one; what has been passed may be known of the rest. -/
theorem findSomeM? {f : β → Call Tree (Option α)} {xs : List β} (passed : List β → Prop)
    {found : Prop} (ht : t.Sees P) (h : passed [])
    (hf : ∀ pre x post, xs = pre ++ x :: post → passed pre → ∀ u, t.Perused P u →
      Asks P (f x) u loop stuck fun r _ => if r.isSome then found else passed (pre ++ [x])) :
    Asks P (xs.findSomeM? f) t loop stuck fun r _ => if r.isSome then found else passed xs := by
  refine Call.Ends.mono (Call.Ends.findSomeM?_passing (fun ys u => t.Perused P u ∧ passed ys)
    (fun _ u => t.Perused P u ∧ found) ⟨.refl ht, h⟩ fun pre x post hxs u hu => ?_) (fun r u hu => ?_)
    fun _ _ h => h
  · refine Call.Ends.mono (hf pre x post hxs hu.2 u hu.1) (fun r v hv => ?_)
      fun _ _ hv => ⟨hu.1.trans hv.1, hv.2⟩
    cases r with
    | some a => exact ⟨hu.1.trans hv.1, by simpa using hv.2⟩
    | none => exact ⟨hu.1.trans hv.1, by simpa using hv.2⟩
  · cases r with
    | some a => exact ⟨hu.1, by simpa using hu.2⟩
    | none => exact ⟨hu.1, by simpa using hu.2⟩

/-- However it ends, and also if it never does, the call has only read. -/
theorem perused (h : Asks P c t loop stuck good) : t.Perused P (c.result t).2 := by
  rcases hrun : c.result t with ⟨r, t'⟩
  cases r with
  | ok a => exact (h.good_of_ok hrun).1
  | error i => exact (h.bad_of_error hrun).1

theorem of_endless (h : Asks P c t loop stuck good) (hrun : (c.result t).1 = .error .endless) :
    loop := by
  obtain ⟨-, hi⟩ := h.bad_of_error (Prod.ext hrun rfl)
  cases hi with
  | endless h => exact h

end Asks

/-! ## Steps -/

/-- The node of a page is held from then on, unless the page cannot be read. -/
theorem resolve_asks (ht : t.Sees P) (p : PageNo) : Asks P (resolve p) t loop (P p = none)
    fun id t' => t'.resident.pageOf? id = some p := by
  rw [resolve]
  refine .bind_ok (Call.result_get t) ?_
  cases hp : t.resident.byPage[p]? with
  | some id => exact .pure ht ((ht.copies.indexed p id).1 hp)
  | none =>
    have hnew : ∀ id, t.resident.pageOf? id ≠ some p := by
      intro id hid
      rw [(ht.copies.indexed p id).2 hid] at hp
      cases hp
    cases hn : t.store.view p with
    | none =>
      obtain ⟨e, he, hread⟩ := readNode_fails hn
      refine Call.Ends.of_error (Call.result_bind_error (onStore_error hread) _) ⟨.refl ht, ?_⟩
      exact .refused he (ht.view ▸ hn)
    | some n =>
      refine .bind_ok (onStore_ok (readNode_ok hn)) ?_
      refine .of_ok (keep_ok _) ⟨⟨ht.view, ?_⟩, rfl, fun _ _ => Arena.pageOf?_add, rfl⟩
        Arena.pageOf?_add_self
      exact ht.copies.add hnew (Arena.onPage?_unloaded _ n) (ht.view ▸ hn)

/-- A node may be put in another form, as long as it stays as it is on its page. -/
theorem put_asks (ht : t.Sees P) (hid : t.resident.pageOf? id = some p) {rn : NodeOf Slot} {n : Node}
    (hn : t.resident.onPage? rn = some n) (hp : P p = some n) :
    Asks P (Tree.put id rn) t loop stuck fun _ _ => True := by
  have hput := ht.copies.put hid hn
  rw [Pages.set_self hp] at hput
  exact .of_ok (put_result rn) ⟨⟨ht.view, hput⟩, rfl, fun _ _ hj => Arena.pageOf?_put.trans hj, rfl⟩
    trivial

/-- Going down from a branch ends at the page of the child, unless that cannot be read. -/
theorem child_asks (ht : t.Sees P) (hid : t.resident.pageOf? id = some p) {b : Branch PageNo}
    (hb : P p = some (.branch b)) (slot : Nat) :
    Asks P (child id slot) t loop (∀ q, b.children[slot]? = some q → P q = none)
      fun c t' => ∃ q, b.children[slot]? = some q ∧ t'.resident.pageOf? c = some q := by
  obtain ⟨slots, hr, hslots⟩ := ht.copies.branch hid hb
  have hslot : (slots[slot]?).map t.resident.slotPage? = (b.children[slot]?).map some := by
    rw [← List.getElem?_map, hslots, List.getElem?_map]
  rw [child]
  refine .bind_ok (held_ok hr) ?_
  dsimp only
  cases hs : slots[slot]? with
  | none =>
    rw [hs, Option.map_none, eq_comm, Option.map_eq_none_iff] at hslot
    exact .fail ht (.corruptPage _ _) fun q hq => by cases hslot.symm.trans hq
  | some s =>
    rw [hs, Option.map_some, eq_comm, Option.map_eq_some_iff] at hslot
    obtain ⟨q, hq, hsq⟩ := hslot
    cases s with
    | loaded c => exact .pure ht ⟨q, hq, hsq.symm⟩
    | unloaded q' =>
      obtain rfl : q = q' := Option.some.inj hsq
      refine ((resolve_asks ht q).widen (fun h => h) ?_).bind fun c t₁ ht₁ hc => ?_
      · intro hnone q' hq'
        cases hq.symm.trans hq'
        exact hnone
      obtain ⟨slots₁, hr₁, hslots₁⟩ := ht₁.sees.copies.branch (ht₁.pages id p hid) hb
      refine .bind_ok (held_ok hr₁) ?_
      -- the slot leads to the same page as before, so the branch is as it was
      have hsame : t₁.resident.onPage? (.branch ⟨b.keys, slots₁.set slot (.loaded c)⟩) =
          some (.branch b) :=
        Arena.onPage?_branch.2 ⟨b.children, rfl, slots_set hslots₁ hc hq⟩
      refine (put_asks ht₁.sees (ht₁.pages id p hid) hsame hb).bind fun _ t₂ ht₂ _ => ?_
      exact .pure ht₂.sees ⟨q, hq, ht₂.pages c q hc⟩

theorem place_asks (ht : t.Sees P) (cursor : Option Position) :
    Asks P (place cursor) t loop stuck fun _ t' => t' = { t with cursor } :=
  .of_ok (Call.result_modify _ t) ⟨⟨ht.view, ht.copies⟩, rfl, fun _ _ => id, rfl⟩ rfl

/-- A handle that has just been fetched. -/
theorem load_sees {s : PageStore} {n : Node} {root : PageNo} (hn : s.view root = some n) :
    ∃ t, (load root).result s = (.ok t, s) ∧ t.store = s ∧ t.Sees s.view ∧
      t.resident.pageOf? t.rootId = some root := by
  refine ⟨_, load_read hn, rfl, ⟨rfl, Arena.indexed_fresh _, ?_⟩, Arena.pageOf?_add_self⟩
  intro id r hr
  obtain rfl := Arena.eq_of_fresh hr
  exact ⟨n, Arena.onPage?_unloaded _ n, hn⟩

theorem load_fails {s : PageStore} {root : PageNo} (hn : s.view root = none) :
    ∃ e : StoreError, e.OfReading ∧ (load root).result s = (.error (.error e), s) := by
  obtain ⟨e, he, hread⟩ := readNode_fails hn
  exact ⟨e, he, by rw [load, Call.result_bind_error hread]⟩

end Tree

end PagedTree
