import PagedTree.Proofs.Arenas
import PagedTree.Proofs.Drafts
import PagedTree.Proofs.Memory
import Mathlib.Data.Set.Insert

/-! # Handles on any file

The nodes of a handle may be anything that pages read as, and calls may have failed halfway. What holds
of a handle even so is that every branch has one more child than separators, that every slot leads to a
node that is held, and that no two nodes are on one page. Each step keeps that and is never undefined.
What a step does to the nodes is told apart from it: a set of nodes is kept if none of them changes but
by being gone down from.
-/
namespace PagedTree

/-- The node may have been gone down from, so slots that led to pages may lead to nodes. -/
inductive NodeOf.Opened : NodeOf Slot → NodeOf Slot → Prop where
  | leaf (l : Leaf) : Opened (.leaf l) (.leaf l)
  | branch {keys : List UInt64} {slots slots' : List Slot} : slots'.length = slots.length →
      (∀ (i : Nat) (c : NodeId), slots[i]? = some (.loaded c) → slots'[i]? = some (.loaded c)) →
      Opened (.branch ⟨keys, slots⟩) (.branch ⟨keys, slots'⟩)

namespace NodeOf.Opened

variable {n m k : NodeOf Slot} {b : Branch Slot} {l : Leaf}

theorem refl (n : NodeOf Slot) : n.Opened n := by
  cases n with
  | leaf l => exact .leaf l
  | branch b => exact .branch rfl fun _ _ => id

theorem trans (h : n.Opened m) (h' : m.Opened k) : n.Opened k := by
  cases h with
  | leaf l => exact h'
  | branch hlen hloaded =>
    cases h' with
    | branch hlen' hloaded' =>
      exact .branch (hlen'.trans hlen) fun i c hc => hloaded' i c (hloaded i c hc)

theorem of_leaf (h : Opened (.leaf l) n) : n = .leaf l := by
  cases h
  rfl

theorem of_branch (h : Opened (.branch b) n) : ∃ b', n = .branch b' ∧ b'.keys = b.keys ∧
    b'.children.length = b.children.length ∧ ∀ (i : Nat) (c : NodeId),
      b.children[i]? = some (.loaded c) → b'.children[i]? = some (.loaded c) := by
  cases h with
  | branch hlen hloaded => exact ⟨_, rfl, rfl, hlen, hloaded⟩

/-- Only a slot that leads to a page is pointed to a node. -/
theorem set {slot : Nat} {p : PageNo} (h : b.children[slot]? = some (.unloaded p)) (c : NodeId) :
    Opened (.branch b) (.branch { b with children := b.children.set slot (.loaded c) }) := by
  refine .branch List.length_set fun i d hd => ?_
  rw [List.getElem?_set_ne, hd]
  rintro rfl
  rw [h] at hd
  cases hd

end NodeOf.Opened

/-- A node as it may be among `size` others: a branch has one more child than separators, and its slots
lead only to them. -/
def NodeOf.Proper (n : NodeOf Slot) (size : Nat) : Prop :=
  ∀ b, n = .branch b → b.Shaped ∧ ∀ c, Slot.loaded c ∈ b.children → c < size

namespace NodeOf.Proper

variable {n : NodeOf Slot} {size size' : Nat}

theorem leaf (l : Leaf) (size : Nat) : Proper (.leaf l) size := nofun

theorem branch {b : Branch Slot} (h : b.Shaped) (hslots : ∀ c, Slot.loaded c ∈ b.children → c < size) :
    Proper (.branch b) size := by
  rintro _ ⟨⟩
  exact ⟨h, hslots⟩

theorem mono (h : n.Proper size) (hle : size ≤ size') : n.Proper size' :=
  fun b hb => ⟨(h b hb).1, fun c hc => Nat.lt_of_lt_of_le ((h b hb).2 c hc) hle⟩

theorem unloaded {n : Node} (h : n.Shaped) (size : Nat) : Proper (n.map .unloaded) size := by
  cases n with
  | leaf l => exact leaf l size
  | branch b =>
    refine branch ?_ ?_
    · simpa [Branch.Shaped, Branch.map] using h b rfl
    · simp [Branch.map]

theorem set {b : Branch Slot} (h : Proper (.branch b) size) (slot : Nat) {c : NodeId} (hc : c < size) :
    Proper (.branch { b with children := b.children.set slot (.loaded c) }) size := by
  obtain ⟨hshaped, hslots⟩ := h b rfl
  refine branch (by simpa [Branch.Shaped] using hshaped) fun d hd => ?_
  rcases List.mem_or_eq_of_mem_set hd with hd | he
  · exact hslots d hd
  · cases he
    exact hc

end NodeOf.Proper

/-- None of the nodes in the set changes but by being gone down from. -/
def Arena.Keeps (A : Set NodeId) (a b : Arena) : Prop :=
  ∀ id ∈ A, ∀ r, a.nodes[id]? = some r →
    ∃ r', b.nodes[id]? = some r' ∧ r'.page = r.page ∧ r.node.Opened r'.node

namespace Arena.Keeps

variable {A B : Set NodeId} {a b c : Arena}

theorem refl (A : Set NodeId) (a : Arena) : a.Keeps A a := fun _ _ r hr => ⟨r, hr, rfl, .refl _⟩

theorem trans (h : a.Keeps A b) (h' : b.Keeps A c) : a.Keeps A c := by
  intro id hid r hr
  obtain ⟨r', hr', hpage, hopened⟩ := h id hid r hr
  obtain ⟨r'', hr'', hpage', hopened'⟩ := h' id hid r' hr'
  exact ⟨r'', hr'', hpage'.trans hpage, hopened.trans hopened'⟩

theorem mono (h : a.Keeps A b) (hB : B ⊆ A) : a.Keeps B b := fun id hid => h id (hB hid)

theorem leaf (h : a.Keeps A b) {id : NodeId} (hid : id ∈ A) {p : PageNo} {l : Leaf}
    (hr : a.nodes[id]? = some ⟨p, .leaf l⟩) : b.nodes[id]? = some ⟨p, .leaf l⟩ := by
  obtain ⟨⟨q, n⟩, hr', rfl, hopened⟩ := h id hid _ hr
  obtain rfl := hopened.of_leaf
  exact hr'

theorem branch (h : a.Keeps A b) {id : NodeId} (hid : id ∈ A) {p : PageNo} {m : Branch Slot}
    (hr : a.nodes[id]? = some ⟨p, .branch m⟩) : ∃ m', b.nodes[id]? = some ⟨p, .branch m'⟩ ∧
      m'.keys = m.keys ∧ m'.children.length = m.children.length ∧ ∀ (i : Nat) (c : NodeId),
        m.children[i]? = some (.loaded c) → m'.children[i]? = some (.loaded c) := by
  obtain ⟨⟨q, n⟩, hr', rfl, hopened⟩ := h id hid _ hr
  obtain ⟨m', rfl, hm'⟩ := hopened.of_branch
  exact ⟨m', hr', hm'⟩

end Arena.Keeps

namespace Tree

/-- What holds of a handle on any file, whichever calls on it have failed. -/
structure Intact (t : Tree) : Prop where
  sound : t.store.header.Sound
  indexed : t.resident.Indexed
  allocated : ∀ (id : NodeId) (r : Resident), t.resident.nodes[id]? = some r →
    r.page.toNat < t.store.pageCount
  proper : ∀ (id : NodeId) (r : Resident), t.resident.nodes[id]? = some r →
    r.node.Proper t.resident.size
  rooted : t.rootId < t.resident.size
  placed : ∀ pos, t.cursor = some pos → pos.leaf < t.resident.size

/-- From one handle to another, with the nodes in the set kept. -/
structure Retains (A : Set NodeId) (t t' : Tree) : Prop where
  intact : t'.Intact
  keeps : t.resident.Keeps A t'.resident
  grows : t.resident.size ≤ t'.resident.size
  counts : t.store.pageCount ≤ t'.store.pageCount

variable {α β : Type} {A B : Set NodeId} {t t' t'' : Tree} {id : NodeId} {p : PageNo}
  {n : NodeOf Slot}

namespace Retains

theorem refl (h : t.Intact) (A : Set NodeId) : t.Retains A t :=
  ⟨h, .refl A _, Nat.le_refl _, Nat.le_refl _⟩

theorem trans (h : t.Retains A t') (h' : t'.Retains A t'') : t.Retains A t'' :=
  ⟨h'.intact, h.keeps.trans h'.keeps, h.grows.trans h'.grows, h.counts.trans h'.counts⟩

theorem mono (h : t.Retains A t') (hB : B ⊆ A) : t.Retains B t' :=
  ⟨h.intact, h.keeps.mono hB, h.grows, h.counts⟩

end Retains

namespace Intact

theorem exists_held (h : id < t.resident.size) : ∃ r, t.resident.nodes[id]? = some r :=
  ⟨_, Array.getElem?_eq_getElem h⟩

theorem pageOf?_ne (h : t.Intact) (hp : t.store.pageCount ≤ p.toNat) (id : NodeId) :
    t.resident.pageOf? id ≠ some p := by
  intro hid
  obtain ⟨r, hr, rfl⟩ := Arena.exists_of_pageOf? hid
  exact absurd (h.allocated id r hr) (Nat.not_lt.2 hp)

theorem store (h : t.Intact) {s : PageStore} (hs : s.header.Sound)
    (hcount : t.store.pageCount ≤ s.pageCount) : t.Retains A { t with store := s } :=
  ⟨⟨hs, h.indexed, fun id r hr => Nat.lt_of_lt_of_le (h.allocated id r hr) hcount, h.proper, h.rooted,
    h.placed⟩, .refl A _, Nat.le_refl _, hcount⟩

theorem keep (h : t.Intact) {r : Resident} (hnew : ∀ id, t.resident.pageOf? id ≠ some r.page)
    (hp : r.page.toNat < t.store.pageCount) (hr : r.node.Proper t.resident.size) :
    t.Retains A { t with resident := t.resident.add r } := by
  have hsize : (t.resident.add r).size = t.resident.size + 1 := Array.size_push r
  have hle : t.resident.size ≤ (t.resident.add r).size := by omega
  refine ⟨⟨h.sound, h.indexed.add hnew, ?_, ?_, Nat.lt_of_lt_of_le h.rooted hle,
    fun pos hpos => Nat.lt_of_lt_of_le (h.placed pos hpos) hle⟩, ?_, hle, Nat.le_refl _⟩
  · intro id r' hr'
    rw [Arena.getElem?_add] at hr'
    split at hr'
    · cases hr'
      exact hp
    · exact h.allocated id r' hr'
  · intro id r' hr'
    rw [Arena.getElem?_add] at hr'
    split at hr'
    · cases hr'
      exact hr.mono hle
    · exact (h.proper id r' hr').mono hle
  · intro id _ r' hr'
    refine ⟨r', ?_, rfl, .refl _⟩
    rw [Arena.getElem?_add, if_neg, hr']
    rintro rfl
    exact Nat.lt_irrefl _ (Array.getElem?_eq_some_iff.1 hr').1

theorem put (h : t.Intact) (hn : n.Proper t.resident.size)
    (hkeep : id ∈ A → ∀ r, t.resident.nodes[id]? = some r → r.node.Opened n) :
    t.Retains A { t with resident := t.resident.put id n } := by
  have hsize : (t.resident.put id n).size = t.resident.size := Array.size_modify
  refine ⟨⟨h.sound, h.indexed.put id n, ?_, ?_, hsize ▸ h.rooted, hsize ▸ h.placed⟩, ?_,
    Nat.le_of_eq hsize.symm, Nat.le_refl _⟩
  · intro j r hr
    rw [Arena.getElem?_put] at hr
    split at hr
    · obtain ⟨r', hr', rfl⟩ := Option.map_eq_some_iff.1 hr
      exact h.allocated j r' hr'
    · exact h.allocated j r hr
  · intro j r hr
    rw [Arena.getElem?_put] at hr
    simp only [hsize]
    split at hr
    · obtain ⟨r', hr', rfl⟩ := Option.map_eq_some_iff.1 hr
      exact hn
    · exact h.proper j r hr
  · intro j hj r hr
    by_cases hid : j = id
    · subst hid
      exact ⟨{ r with node := n }, by rw [Arena.getElem?_put, if_pos rfl, hr]; rfl, rfl, hkeep hj r hr⟩
    · exact ⟨r, by rw [Arena.getElem?_put, if_neg hid, hr], rfl, .refl _⟩

theorem place (h : t.Intact) {cursor : Option Position}
    (hcursor : ∀ pos, cursor = some pos → pos.leaf < t.resident.size) :
    t.Retains A { t with cursor } :=
  ⟨⟨h.sound, h.indexed, h.allocated, h.proper, h.rooted, hcursor⟩, .refl A _, Nat.le_refl _,
    Nat.le_refl _⟩

theorem crown (h : t.Intact) (hid : id < t.resident.size) : t.Retains A { t with rootId := id } :=
  ⟨⟨h.sound, h.indexed, h.allocated, h.proper, hid, h.placed⟩, .refl A _, Nat.le_refl _, Nat.le_refl _⟩

/-- A node may move to a page that is handed out. -/
theorem move (h : t.Intact) {a : Arena} (hmoved : t.resident.Moved id p a) (ha : a.Indexed)
    (hp : p.toNat < t.store.pageCount) : t.Retains ∅ { t with resident := a } := by
  have hsize := hmoved.size
  refine ⟨⟨h.sound, ha, ?_, ?_, hsize ▸ h.rooted, hsize ▸ h.placed⟩, ?_, Nat.le_of_eq hsize.symm,
    Nat.le_refl _⟩
  · intro j r hr
    rw [hmoved.nodes] at hr
    split at hr
    · obtain ⟨r', hr', rfl⟩ := Option.map_eq_some_iff.1 hr
      exact hp
    · exact h.allocated j r hr
  · intro j r hr
    rw [hmoved.nodes] at hr
    simp only [hsize]
    split at hr
    · obtain ⟨r', hr', rfl⟩ := Option.map_eq_some_iff.1 hr
      exact h.proper j r' hr'
    · exact h.proper j r hr
  · exact fun _ hid => hid.elim

/-- The numbers in the slots of a node that is held lead to pages, so it can be written. -/
theorem exists_onPage? (hn : n.Proper t.resident.size) :
    ∃ m, t.resident.onPage? n = some m := by
  cases n with
  | leaf l => exact ⟨.leaf l, rfl⟩
  | branch b =>
    have hslot : ∀ s ∈ b.children, ∃ p, t.resident.slotPage? s = some p := by
      intro s hs
      cases s with
      | unloaded p => exact ⟨p, rfl⟩
      | loaded c =>
        obtain ⟨r, hr⟩ := exists_held ((hn b rfl).2 c hs)
        exact ⟨r.page, Arena.pageOf?_of_getElem? hr⟩
    have hall : ∀ slots : List Slot, (∀ s ∈ slots, ∃ p, t.resident.slotPage? s = some p) →
        ∃ ps : List PageNo, slots.map t.resident.slotPage? = ps.map some := by
      intro slots hslots
      induction slots with
      | nil => exact ⟨[], rfl⟩
      | cons s slots ih =>
        obtain ⟨p, hp⟩ := hslots s List.mem_cons_self
        obtain ⟨ps, hps⟩ := ih fun s' hs' => hslots s' (List.mem_cons_of_mem _ hs')
        exact ⟨p :: ps, by rw [List.map_cons, hp, hps, List.map_cons]⟩
    obtain ⟨ps, hps⟩ := hall b.children hslot
    exact ⟨_, Arena.onPage?_branch.2 ⟨ps, rfl, hps⟩⟩

end Intact

/-! ## Safe calls -/

/-- However the call ends, it is not undefined and leaves a handle as it should be; if it ends well, the
nodes in the set are kept and the rest is as said. -/
def Safe (A : Set NodeId) (c : Call Tree α) (t : Tree) (good : α → Tree → Prop) : Prop :=
  c.Ends t (fun a t' => t.Retains A t' ∧ good a t') (fun i t' => i ≠ .fault ∧ t'.Intact)

namespace Safe

variable {c : Call Tree α} {f : α → Call Tree β} {good good' : α → Tree → Prop}
  {late : β → Tree → Prop}

theorem bind (h : Safe A c t good)
    (hf : ∀ a t₁, t.Retains A t₁ → good a t₁ → Safe A (f a) t₁ late) : Safe A (c >>= f) t late :=
  Call.Ends.bind h fun a t₁ h₁ => (hf a t₁ h₁.1 h₁.2).mono
    (fun _ _ h₂ => ⟨h₁.1.trans h₂.1, h₂.2⟩) fun _ _ => id

/-- The first part of a sequence may keep more nodes than the whole. -/
theorem bind_of (h : Safe B c t good) (hA : A ⊆ B)
    (hf : ∀ a t₁, t.Retains B t₁ → good a t₁ → Safe A (f a) t₁ late) : Safe A (c >>= f) t late :=
  Call.Ends.bind h fun a t₁ h₁ => (hf a t₁ h₁.1 h₁.2).mono
    (fun _ _ h₂ => ⟨(h₁.1.mono hA).trans h₂.1, h₂.2⟩) fun _ _ => id

theorem mono (h : Safe B c t good) (hA : A ⊆ B)
    (hgood : ∀ a t', t.Retains B t' → good a t' → good' a t') : Safe A c t good' :=
  Call.Ends.mono h (fun a t' h' => ⟨h'.1.mono hA, hgood a t' h'.1 h'.2⟩) fun _ _ => id

theorem of_ok {a : α} (h : c.result t = (.ok a, t')) (ht : t.Retains A t') (hgood : good a t') :
    Safe A c t good := Call.Ends.of_ok h ⟨ht, hgood⟩

theorem of_error {i : Interrupt} (h : c.result t = (.error i, t')) (hi : i ≠ .fault)
    (ht : t'.Intact) : Safe A c t good := Call.Ends.of_error h ⟨hi, ht⟩

theorem pure {a : α} (ht : t.Intact) (h : good a t) : Safe A (Pure.pure a : Call Tree α) t good :=
  of_ok (Call.result_pure a t) (.refl ht A) h

theorem fail {e : StoreError} (ht : t.Intact) : Safe A (Call.fail e) t good :=
  of_error (Call.result_fail e t) (by simp) ht

/-- The second part of a sequence, where the first one is known to change nothing. -/
theorem bind_ok {a : α} (h : c.result t = (.ok a, t)) (hf : Safe A (f a) t late) :
    Safe A (c >>= f) t late := Call.Ends.bind_ok h hf

theorem mapM {f : β → Call Tree α} {xs : List β} (ht : t.Intact)
    (hf : ∀ x ∈ xs, ∀ u, t.Retains A u → Safe A (f x) u fun _ _ => True) :
    Safe A (xs.mapM f) t fun _ _ => True := by
  refine Call.Ends.mono (Call.Ends.mapM (t.Retains A) (.refl ht A) fun x hx u hu => ?_)
    (fun _ _ h => ⟨h, trivial⟩) fun _ _ h => h
  exact Call.Ends.mono (hf x hx u hu) (fun _ _ h => hu.trans h.1) fun _ _ h => h

theorem findSomeM? {f : β → Call Tree (Option α)} {xs : List β} (ht : t.Intact)
    (hf : ∀ x ∈ xs, ∀ u, t.Retains A u → Safe A (f x) u fun _ _ => True) :
    Safe A (xs.findSomeM? f) t fun _ _ => True := by
  refine Call.Ends.mono (Call.Ends.findSomeM? (t.Retains A) (.refl ht A) fun x hx u hu => ?_)
    (fun _ _ h => ⟨h, trivial⟩) fun _ _ h => h
  exact Call.Ends.mono (hf x hx u hu) (fun _ _ h => hu.trans h.1) fun _ _ h => h

end Safe

/-! ## Steps -/

theorem allocate_safe (ht : t.Intact) : Safe A (onStore PageStore.allocate) t fun p t' =>
    t'.resident = t.resident ∧ p.toNat < t'.store.pageCount ∧
      ∀ id, t.resident.pageOf? id ≠ some p := by
  rcases PageStore.allocate_cases t.store with ⟨hroom, hrun⟩ | hrun
  · have hcount := PageStore.pageCount_grown ht.sound hroom
    have hp := PageStore.toNat_allocated t.store
    refine .of_ok (onStore_ok hrun) ?_ ⟨rfl, ?_, ?_⟩
    · exact ht.store (PageStore.sound_grown ht.sound hroom) (by omega)
    · exact PageStore.allocated_lt ht.sound hroom
    · exact ht.pageOf?_ne (Nat.le_of_eq hp.symm)
  · exact .of_error (onStore_error hrun) (by simp) ht

theorem keep_safe (ht : t.Intact) {r : Resident} (hnew : ∀ id, t.resident.pageOf? id ≠ some r.page)
    (hp : r.page.toNat < t.store.pageCount) (hr : r.node.Proper t.resident.size) :
    Safe A (Tree.keep r) t fun id t' => id < t'.resident.size ∧ t'.store = t.store ∧
      t'.resident.nodes[id]? = some r ∧ ∀ j < t.resident.size,
        t'.resident.nodes[j]? = t.resident.nodes[j]? := by
  refine .of_ok (keep_ok r) (ht.keep hnew hp hr) ⟨?_, rfl, ?_, ?_⟩
  · simp [Arena.add, Arena.size]
  · rw [Arena.getElem?_add, if_pos rfl]
  · intro j hj
    rw [Arena.getElem?_add, if_neg (Nat.ne_of_lt hj)]

theorem put_safe (ht : t.Intact) (hn : n.Proper t.resident.size)
    (hkeep : id ∈ A → ∀ r, t.resident.nodes[id]? = some r → r.node.Opened n) :
    Safe A (Tree.put id n) t fun _ t' =>
      t' = { t with resident := t.resident.put id n } :=
  .of_ok (put_result n) (ht.put hn hkeep) rfl

/-- A node is written onto a page or refused, and the handle holds the same nodes as before. -/
theorem writeTo_safe (ht : t.Intact) (hid : id < t.resident.size) (p : PageNo) :
    Safe A (writeTo id p) t fun _ t' => ∃ s, t' = { t with store := s } := by
  obtain ⟨r, hr⟩ := Intact.exists_held hid
  obtain ⟨m, hm⟩ := Intact.exists_onPage? (ht.proper id r hr)
  rw [writeTo]
  refine .bind_ok (held_ok hr) (.bind_ok (Call.result_get t) ?_)
  rw [hm]
  refine .bind_ok (Call.result_orFault_some m t) ?_
  have hencode : Safe A (Node.encode p m) t fun _ t' => t' = t := by
    refine Call.Ends.mono (Node.encode_ends p m t) ?_ ?_
    · rintro b _ ⟨-, rfl⟩
      exact ⟨.refl ht A, rfl⟩
    · rintro i _ ⟨hi, rfl⟩
      exact ⟨hi.ne_fault, ht⟩
  refine hencode.bind ?_
  rintro b t₁ - rfl
  rcases PageStore.writePage_cases p b t₁.store with ⟨-, -, hrun⟩ | ⟨e, hrun⟩
  · exact .of_ok (onStore_ok hrun) (ht.store ht.sound (Nat.le_refl _)) ⟨_, rfl⟩
  · exact .of_error (onStore_error hrun) (by simp) ht

theorem write_safe (ht : t.Intact) (hid : id < t.resident.size) :
    Safe A (Tree.write id) t fun _ t' => ∃ s, t' = { t with store := s } := by
  obtain ⟨r, hr⟩ := Intact.exists_held hid
  exact .bind_ok (held_ok hr) (writeTo_safe ht hid r.page)

theorem update_safe (ht : t.Intact) (hid : id < t.resident.size) (hn : n.Proper t.resident.size)
    (hA : id ∉ A) : Safe A (update id n) t fun _ _ => True := by
  refine (put_safe ht hn fun h => absurd h hA).bind fun _ t₁ ht₁ _ => ?_
  exact (write_safe ht₁.intact (Nat.lt_of_lt_of_le hid ht₁.grows)).mono subset_rfl fun _ _ _ _ => trivial

theorem readNode_safe (ht : t.Intact) (p : PageNo) : Safe A (onStore (readNode p)) t fun m t' =>
    t' = t ∧ p.toNat < t.store.pageCount ∧ m.Shaped := by
  refine Call.Ends.mono (Call.Ends.onPart (readNode_ends p t.store)) ?_ ?_
  · rintro m t' ⟨s, rfl, rfl, hp, hm⟩
    exact ⟨.refl ht A, rfl, hp, hm⟩
  · rintro i t' ⟨s, rfl, hi, rfl⟩
    exact ⟨hi.ne_fault, ht⟩

/-- The node of any page is held from then on, or refused. -/
theorem resolve_safe (ht : t.Intact) (p : PageNo) : Safe A (resolve p) t fun id t' =>
    t'.resident.pageOf? id = some p ∧ ∀ j < t.resident.size,
      t'.resident.nodes[j]? = t.resident.nodes[j]? := by
  rw [resolve]
  refine .bind_ok (Call.result_get t) ?_
  cases hp : t.resident.byPage[p]? with
  | some id =>
    exact .pure ht ⟨(ht.indexed p id).1 hp, fun _ _ => rfl⟩
  | none =>
    have hnew : ∀ id, t.resident.pageOf? id ≠ some p := by
      intro id hid
      rw [(ht.indexed p id).2 hid] at hp
      cases hp
    refine (readNode_safe ht p).bind ?_
    rintro m _ - ⟨rfl, hlt, hm⟩
    exact (keep_safe ht hnew hlt (.unloaded hm _)).mono subset_rfl fun _ _ _ h =>
      ⟨Arena.pageOf?_of_getElem? h.2.2.1, h.2.2.2⟩

/-- Going down to a child, if there is one: the slot leads to it from then on. -/
theorem child_safe (ht : t.Intact) {b : Branch Slot}
    (hid : t.resident.nodes[id]? = some ⟨p, .branch b⟩) (slot : Nat) :
    Safe Set.univ (child id slot) t fun c t' => c < t'.resident.size ∧
      ∃ b', t'.resident.nodes[id]? = some ⟨p, .branch b'⟩ ∧
        b'.children[slot]? = some (.loaded c) := by
  rw [child]
  refine .bind_ok (held_ok hid) ?_
  dsimp only
  cases hslot : b.children[slot]? with
  | none => exact .fail ht
  | some s =>
    cases s with
    | loaded c =>
      exact .pure ht ⟨(ht.proper id _ hid b rfl).2 c (List.mem_of_getElem? hslot), b, hid, hslot⟩
    | unloaded q =>
      refine (resolve_safe ht q).bind ?_
      rintro c t₁ ht₁ ⟨hcq, hsame⟩
      have hc := Arena.lt_size_of_pageOf? hcq
      have hid₁ : t₁.resident.nodes[id]? = some ⟨p, .branch b⟩ := by
        rw [hsame id (Array.getElem?_eq_some_iff.1 hid).1, hid]
      refine .bind_ok (held_ok hid₁) ?_
      refine (put_safe ht₁.intact ((ht₁.intact.proper id _ hid₁).set slot hc) ?_).bind ?_
      · rintro - r hr
        cases hid₁.symm.trans hr
        exact .set hslot c
      rintro _ _ ht₂ rfl
      refine .pure ht₂.intact ⟨Nat.lt_of_lt_of_le hc ht₂.grows,
        { b with children := b.children.set slot (.loaded c) }, ?_, ?_⟩
      · exact Arena.getElem?_put_self hid₁
      · rw [List.getElem?_set_self (List.getElem?_eq_some_iff.1 hslot).1]

/-- Whatever the node is, going down from it ends at a node that is held or is refused. -/
theorem descend_safe (ht : t.Intact) (hid : id < t.resident.size) (slot : Nat) :
    Safe Set.univ (child id slot) t fun c t' => c < t'.resident.size := by
  obtain ⟨⟨p, n⟩, hr⟩ := Intact.exists_held hid
  cases n with
  | leaf l =>
    rw [child]
    exact .bind_ok (held_ok hr) (.fail ht)
  | branch b => exact (child_safe ht hr slot).mono subset_rfl fun _ _ _ h => h.1

end Tree

end PagedTree
