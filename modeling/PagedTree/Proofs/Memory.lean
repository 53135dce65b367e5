import PagedTree.Proofs.Arenas
import PagedTree.Proofs.Calls
import PagedTree.Proofs.Search
import PagedTree.Tree.Lookup

/-! # What a handle has in mind

The nodes of a handle and those that it has not read yet make up one map from pages to nodes: that of
its file or, while a node waits to be written, the one that the file is to become. A call that reads
sees nothing but this map, and only lets the handle hold more of it.
-/
namespace PagedTree

/-- Writing what is there changes nothing. -/
theorem Pages.set_self {P : Pages} {p : PageNo} {n : Node} (h : P p = some n) : P.set p n = P := by
  funext q
  by_cases hq : q = p
  · rw [hq, set_same, h]
  · exact set_other n hq

/-- What a page that cannot be read is refused with. -/
inductive StoreError.OfReading : StoreError → Prop where
  | corruptPage (p : PageNo) (fault : PageFault) : OfReading (.corruptPage p fault)
  | pageOutOfRange (p : PageNo) (allocated : Nat) : OfReading (.pageOutOfRange p allocated)

theorem Node.decode_error {p : PageNo} {b : ByteArray} {e : StoreError}
    (h : Node.decode p b = .error e) : e.OfReading := by
  rcases decode_cases p b with ⟨fault, hfault⟩ | ⟨n, hn⟩
  · cases h.symm.trans hfault
    exact .corruptPage p fault
  · cases h.symm.trans hn

/-- Every node in the arena is the node on its page. -/
structure Arena.Copies (a : Arena) (P : Pages) : Prop where
  indexed : a.Indexed
  agrees : ∀ (id : NodeId) (r : Resident), a.nodes[id]? = some r →
    ∃ n, a.onPage? r.node = some n ∧ P r.page = some n

namespace Arena.Copies

variable {a : Arena} {P : Pages} {id : NodeId} {p : PageNo} {n : Node} {rn : NodeOf Slot}

theorem exists_node (h : a.Copies P) (hid : a.pageOf? id = some p) :
    ∃ rn n, a.nodes[id]? = some ⟨p, rn⟩ ∧ a.onPage? rn = some n ∧ P p = some n := by
  obtain ⟨⟨q, rn⟩, hr, rfl⟩ := Arena.exists_of_pageOf? hid
  obtain ⟨n, hn, hview⟩ := h.agrees id _ hr
  exact ⟨rn, n, hr, hn, hview⟩

theorem leaf (h : a.Copies P) (hid : a.pageOf? id = some p) {l : Leaf} (hl : P p = some (.leaf l)) :
    a.nodes[id]? = some ⟨p, .leaf l⟩ := by
  obtain ⟨rn, m, hr, hpage, hm⟩ := h.exists_node hid
  rw [hl] at hm
  cases hm
  cases rn with
  | leaf m =>
    cases hpage
    exact hr
  | branch b =>
    obtain ⟨ps, he, -⟩ := onPage?_branch.1 hpage
    cases he

/-- A branch in memory has a slot for each child. -/
theorem branch (h : a.Copies P) (hid : a.pageOf? id = some p) {keys : List UInt64}
    {ps : List PageNo} (hb : P p = some (.branch ⟨keys, ps⟩)) :
    ∃ slots, a.nodes[id]? = some ⟨p, .branch ⟨keys, slots⟩⟩ ∧
      slots.map a.slotPage? = ps.map some := by
  obtain ⟨rn, m, hr, hpage, hm⟩ := h.exists_node hid
  rw [hb] at hm
  cases hm
  cases rn with
  | leaf m => cases hpage
  | branch b =>
    obtain ⟨ps, he, hps⟩ := onPage?_branch.1 hpage
    cases he
    exact ⟨b.children, hr, hps⟩

/-- A node that changes changes on its page. -/
theorem put (h : a.Copies P) (hid : a.pageOf? id = some p) (hn : a.onPage? rn = some n) :
    (a.put id rn).Copies (P.set p n) := by
  obtain ⟨r', hr', hp⟩ := Arena.exists_of_pageOf? hid
  refine ⟨h.indexed.put id rn, ?_⟩
  intro j r hr
  simp only [Arena.getElem?_put, Arena.onPage?_put] at hr ⊢
  by_cases hj : j = id
  · subst hj
    rw [if_pos rfl, hr'] at hr
    cases hr
    exact ⟨n, hn, by rw [hp, Pages.set_same]⟩
  · rw [if_neg hj] at hr
    obtain ⟨m, hm, hmview⟩ := h.agrees j r hr
    refine ⟨m, hm, ?_⟩
    rw [Pages.set_other, hmview]
    exact fun he => hj (h.indexed.inj (he ▸ Arena.pageOf?_of_getElem? hr) hid)

theorem add (h : a.Copies P) (hnew : ∀ id, a.pageOf? id ≠ some p) (hn : a.onPage? rn = some n)
    (hp : P p = some n) : (a.add ⟨p, rn⟩).Copies P := by
  have hmono : ∀ j q, a.pageOf? j = some q → (a.add ⟨p, rn⟩).pageOf? j = some q :=
    fun _ _ => Arena.pageOf?_add
  refine ⟨h.indexed.add hnew, ?_⟩
  intro j r hr
  rw [Arena.getElem?_add] at hr
  split at hr
  · cases hr
    exact ⟨n, Arena.onPage?_mono hn hmono, hp⟩
  · obtain ⟨m, hm, hmview⟩ := h.agrees j r hr
    exact ⟨m, Arena.onPage?_mono hm hmono, hmview⟩

end Arena.Copies

namespace Tree

/-- No child of the node is the root, so the root can move. -/
def RootFree (t : Tree) (n : NodeOf Slot) : Prop :=
  ∀ b : Branch Slot, n = .branch b → Slot.loaded t.rootId ∉ b.children

/-- The handle has these nodes in mind: its own ones are the nodes on their pages, and the others can
be read from the file. -/
structure Mirrors (t : Tree) (P : Pages) : Prop where
  indexed : t.resident.Indexed
  agrees : ∀ (id : NodeId) (r : Resident), t.resident.nodes[id]? = some r →
    ∃ n, t.resident.onPage? r.node = some n ∧ P r.page = some n
  rootFree : ∀ (id : NodeId) (r : Resident), t.resident.nodes[id]? = some r → t.RootFree r.node
  rooted : t.resident.pageOf? t.rootId = some t.root
  unread : ∀ p n, P p = some n → (∀ id, t.resident.pageOf? id ≠ some p) → t.store.view p = some n

/-- From one handle to another by reading. -/
structure Browsed (t : Tree) (P : Pages) (t' : Tree) : Prop where
  store_eq : t'.store = t.store
  mirrors : t'.Mirrors P
  pages : ∀ id p, t.resident.pageOf? id = some p → t'.resident.pageOf? id = some p
  rootId : t'.rootId = t.rootId

namespace Browsed

variable {t t' t'' : Tree} {P : Pages}

theorem refl (h : t.Mirrors P) : t.Browsed P t := ⟨rfl, h, fun _ _ => id, rfl⟩

theorem trans (h : t.Browsed P t') (h' : t'.Browsed P t'') : t.Browsed P t'' :=
  ⟨h'.store_eq.trans h.store_eq, h'.mirrors, fun id p hp => h'.pages id p (h.pages id p hp),
    h'.rootId.trans h.rootId⟩

theorem root (h : t.Browsed P t') (ht : t.Mirrors P) : t'.root = t.root := by
  have hp := h.pages _ _ ht.rooted
  rw [Tree.root, h.rootId, hp]
  rfl

end Browsed

variable {t t' : Tree} {id : NodeId} {p : PageNo} {n : Node} {rn : NodeOf Slot} {P : Pages}

theorem pageCount_lt_walkLimit (t : Tree) : t.store.pageCount < t.walkLimit :=
  Nat.lt_add_of_pos_right (by decide)

/-! ## Single steps -/

theorem onStore_ok {α : Type} {c : Call PageStore α} {a : α} {s : PageStore}
    (h : c.result t.store = (.ok a, s)) : (onStore c).result t = (.ok a, { t with store := s }) := by
  rw [onStore, Call.result_onPart, h]

theorem onStore_error {α : Type} {c : Call PageStore α} {i : Interrupt} {s : PageStore}
    (h : c.result t.store = (.error i, s)) :
    (onStore c).result t = (.error i, { t with store := s }) := by
  rw [onStore, Call.result_onPart, h]

theorem readNode_cases (p : PageNo) (s : PageStore) :
    (∃ n, s.view p = some n ∧ (readNode p).result s = (.ok n, s)) ∨
      s.view p = none ∧ ∃ e : StoreError, e.OfReading ∧
        (readNode p).result s = (.error (.error e), s) := by
  by_cases hp : p.toNat < s.pageCount
  · have hread := PageStore.readPage_ok hp
    rw [PageStore.view, if_pos hp, SparseFile.nodeAt]
    cases hdecode : Node.decode p (s.file.read p.offset pageSize) with
    | ok n =>
      refine .inl ⟨n, rfl, ?_⟩
      rw [readNode, Call.result_bind_ok hread, hdecode, Call.result_ofExcept_ok]
    | error e =>
      refine .inr ⟨rfl, e, Node.decode_error hdecode, ?_⟩
      rw [readNode, Call.result_bind_ok hread, hdecode, Call.result_ofExcept_error]
  · refine .inr ⟨if_neg hp, _, .pageOutOfRange p s.pageCount, ?_⟩
    rw [readNode, Call.result_bind_error (PageStore.readPage_fails hp)]

theorem readNode_ok {s : PageStore} (h : s.view p = some n) :
    (readNode p).result s = (.ok n, s) := by
  rcases readNode_cases p s with ⟨m, hm, hrun⟩ | ⟨hm, -⟩
  · cases h.symm.trans hm
    exact hrun
  · cases h.symm.trans hm

theorem readNode_fails {s : PageStore} (h : s.view p = none) :
    ∃ e : StoreError, e.OfReading ∧ (readNode p).result s = (.error (.error e), s) := by
  rcases readNode_cases p s with ⟨m, hm, -⟩ | ⟨-, hrun⟩
  · cases h.symm.trans hm
  · exact hrun

theorem held_ok {r : Resident} (h : t.resident.nodes[id]? = some r) :
    (held id).result t = (.ok r, t) := by
  simp [held, Call.result_bind, h]

theorem keep_ok (r : Resident) : (keep r).result t =
    (.ok t.resident.size, { t with resident := t.resident.add r }) := by
  simp only [keep, Call.result_bind, Call.result_get, Call.result_set, Call.result_pure]

theorem put_result (n : NodeOf Slot) : (put id n).result t =
    (.ok (), { t with resident := t.resident.put id n }) := rfl

theorem rootFree_unloaded (n : Node) : t.RootFree (n.map .unloaded) := by
  intro b hb
  cases n with
  | leaf l => cases hb
  | branch m =>
    cases hb
    simp [Branch.map]

theorem rootFree_branch {keys : List UInt64} {slots : List Slot} (h : .loaded t.rootId ∉ slots) :
    t.RootFree (.branch ⟨keys, slots⟩) := by
  intro b hb
  cases hb
  exact h

theorem rootFree_leaf (l : Leaf) : t.RootFree (.leaf l) := by
  intro b hb
  cases hb

namespace Mirrors

theorem copies (h : t.Mirrors P) : t.resident.Copies P := ⟨h.indexed, h.agrees⟩

theorem exists_node (h : t.Mirrors P) (hid : t.resident.pageOf? id = some p) (hn : P p = some n) :
    ∃ rn, t.resident.nodes[id]? = some ⟨p, rn⟩ ∧ t.resident.onPage? rn = some n ∧ t.RootFree rn := by
  obtain ⟨rn, m, hr, hpage, hm⟩ := h.copies.exists_node hid
  rw [hn] at hm
  cases hm
  exact ⟨rn, hr, hpage, h.rootFree id _ hr⟩

theorem leaf (h : t.Mirrors P) (hid : t.resident.pageOf? id = some p) {l : Leaf}
    (hl : P p = some (.leaf l)) : t.resident.nodes[id]? = some ⟨p, .leaf l⟩ := h.copies.leaf hid hl

/-- None of the slots of a branch leads to the root. -/
theorem branch (h : t.Mirrors P) (hid : t.resident.pageOf? id = some p) {keys : List UInt64}
    {ps : List PageNo} (hb : P p = some (.branch ⟨keys, ps⟩)) :
    ∃ slots, t.resident.nodes[id]? = some ⟨p, .branch ⟨keys, slots⟩⟩ ∧
      slots.map t.resident.slotPage? = ps.map some ∧ .loaded t.rootId ∉ slots := by
  obtain ⟨slots, hr, hslots⟩ := h.copies.branch hid hb
  exact ⟨slots, hr, hslots, h.rootFree id _ hr ⟨keys, slots⟩ rfl⟩

theorem exists_view (h : t.Mirrors P) (hid : t.resident.pageOf? id = some p) : ∃ n, P p = some n := by
  obtain ⟨r, hr, rfl⟩ := Arena.exists_of_pageOf? hid
  obtain ⟨n, -, hn⟩ := h.agrees id r hr
  exact ⟨n, hn⟩

/-- A node that changes in memory changes in mind. -/
theorem put (h : t.Mirrors P) (hid : t.resident.pageOf? id = some p)
    (hn : t.resident.onPage? rn = some n) (hfree : t.RootFree rn) :
    Mirrors { t with resident := t.resident.put id rn } (P.set p n) := by
  obtain ⟨r', hr', hp⟩ := Arena.exists_of_pageOf? hid
  obtain ⟨hindexed, hagrees⟩ := h.copies.put hid hn
  refine ⟨hindexed, hagrees, ?_, ?_, ?_⟩
  · intro j r hr
    simp only [Arena.getElem?_put] at hr
    by_cases hj : j = id
    · subst hj
      rw [if_pos rfl, hr'] at hr
      cases hr
      exact hfree
    · rw [if_neg hj] at hr
      exact h.rootFree j r hr
  · simp only [root, Arena.pageOf?_put]
    exact h.rooted
  · intro q m hm hunread
    simp only [Arena.pageOf?_put] at hunread
    rw [Pages.set_other] at hm
    · exact h.unread q m hm hunread
    · rintro rfl
      exact hunread id hid

/-- A handle may take in a node that it did not hold. -/
theorem keep (h : t.Mirrors P) (hnew : ∀ id, t.resident.pageOf? id ≠ some p)
    (hn : t.resident.onPage? rn = some n) (hp : P p = some n) (hfree : t.RootFree rn) :
    Mirrors { t with resident := t.resident.add ⟨p, rn⟩ } P := by
  have hmono : ∀ j q, t.resident.pageOf? j = some q →
      (t.resident.add ⟨p, rn⟩).pageOf? j = some q := fun _ _ => Arena.pageOf?_add
  obtain ⟨hindexed, hagrees⟩ := h.copies.add hnew hn hp
  refine ⟨hindexed, hagrees, ?_, ?_, ?_⟩
  · intro j r hr
    rw [Arena.getElem?_add] at hr
    split at hr
    · cases hr
      exact hfree
    · exact h.rootFree j r hr
  · have hroot := hmono _ _ h.rooted
    simp only [root, hroot, Option.getD_some]
  · intro q m hm hunread
    exact h.unread q m hm fun j hj => hunread j (hmono j q hj)

/-- The handle holds the node on page `p` from then on. -/
theorem resolve_ok (h : t.Mirrors P) (hn : P p = some n) : ∃ id t', (resolve p).result t = (.ok id, t') ∧
    t.Browsed P t' ∧ t'.resident.pageOf? id = some p := by
  unfold resolve
  rw [Call.result_bind_ok (Call.result_get t)]
  cases hp : t.resident.byPage[p]? with
  | some id => exact ⟨id, t, rfl, .refl h, (h.indexed p id).1 hp⟩
  | none =>
    have hnew : ∀ id, t.resident.pageOf? id ≠ some p := by
      intro id hid
      rw [(h.indexed p id).2 hid] at hp
      cases hp
    have hread : (onStore (readNode p)).result t = (.ok n, t) :=
      onStore_ok (readNode_ok (h.unread p n hn hnew))
    have hkept := h.keep hnew (Arena.onPage?_unloaded _ n) hn (rootFree_unloaded n)
    refine ⟨t.resident.size, { t with resident := t.resident.add ⟨p, n.map .unloaded⟩ }, ?_,
      ⟨rfl, hkept, fun _ _ => Arena.pageOf?_add, rfl⟩, Arena.pageOf?_add_self⟩
    simp only [Call.result_bind_ok hread, keep_ok]

end Mirrors

/-! ## Going down -/

/-- Each child of a branch has a slot that leads to its page. -/
theorem slots_get {a : Arena} {slots : List Slot} {ps : List PageNo} {slot : Nat} {q : PageNo}
    (h : slots.map a.slotPage? = ps.map some) (hslot : ps[slot]? = some q) :
    ∃ s, slots[slot]? = some s ∧ a.slotPage? s = some q := by
  have hmap := congrArg (·[slot]?) h
  simp only [List.getElem?_map, hslot, Option.map_some] at hmap
  exact Option.map_eq_some_iff.1 hmap

theorem slots_set {a : Arena} {slots : List Slot} {ps : List PageNo} {slot : Nat} {c : NodeId}
    {q : PageNo} (h : slots.map a.slotPage? = ps.map some) (hc : a.pageOf? c = some q)
    (hslot : ps[slot]? = some q) : (slots.set slot (.loaded c)).map a.slotPage? = ps.map some := by
  obtain ⟨hlt, hq⟩ := List.getElem?_eq_some_iff.1 hslot
  rw [List.map_set, h, Arena.slotPage?, hc, ← List.map_set, ← hq, List.set_getElem_self]

/-- Going down to a child, which is not the root. -/
theorem Mirrors.child_ok (h : t.Mirrors P) (hid : t.resident.pageOf? id = some p) {b : Branch PageNo}
    (hb : P p = some (.branch b)) {slot : Nat} {q : PageNo} (hslot : b.children[slot]? = some q)
    (hn : P q = some n) (hq : q ≠ t.root) : ∃ c t', (child id slot).result t = (.ok c, t') ∧
      t.Browsed P t' ∧ t'.resident.pageOf? c = some q := by
  obtain ⟨slots, hr, hslots, -⟩ := h.branch hid hb
  obtain ⟨s, hs, hsq⟩ := slots_get hslots hslot
  rw [child, Call.result_bind_ok (held_ok hr)]
  simp only [hs]
  cases s with
  | loaded c => exact ⟨c, t, rfl, .refl h, hsq⟩
  | unloaded q' =>
    obtain rfl : q' = q := Option.some.inj hsq
    obtain ⟨c, t₁, hc, hread, hcq⟩ := h.resolve_ok hn
    have hid₁ := hread.pages id p hid
    obtain ⟨slots₁, hr₁, hslots₁, hfree₁⟩ := hread.mirrors.branch hid₁ hb
    have hcroot : c ≠ t₁.rootId := by
      rintro rfl
      have hroot := hread.mirrors.rooted
      rw [hcq, hread.root h] at hroot
      exact hq (Option.some.inj hroot)
    have hfree : .loaded t₁.rootId ∉ slots₁.set slot (.loaded c) := by
      intro hmem
      rcases List.mem_or_eq_of_mem_set hmem with hmem | heq
      · exact hfree₁ hmem
      · exact hcroot (Slot.loaded.inj heq).symm
    -- the slot leads to the same page as before, so the branch is as it was
    have hsame : t₁.resident.onPage? (.branch ⟨b.keys, slots₁.set slot (.loaded c)⟩) =
        some (.branch b) :=
      Arena.onPage?_branch.2 ⟨b.children, rfl, slots_set hslots₁ hcq hslot⟩
    have hput := hread.mirrors.put hid₁ hsame (rootFree_branch hfree)
    rw [Pages.set_self hb] at hput
    refine ⟨c, { t₁ with resident := t₁.resident.put id (.branch
      ⟨b.keys, slots₁.set slot (.loaded c)⟩) }, ?_, hread.trans ⟨rfl, hput, ?_, rfl⟩, ?_⟩
    · simp only [Call.result_bind_ok hc, Call.result_bind_ok (held_ok hr₁), NodeOf.setChild,
        Call.result_bind_ok (put_result _), Call.result_pure]
    · intro j r hj
      rwa [Arena.pageOf?_put]
    · rwa [Arena.pageOf?_put]

/-! ## Lookup -/

/-- The handle has the tree in mind below node `id`, and the root is not below that. -/
structure Knows (t : Tree) (P : Pages) (id : NodeId) (s : Shape) : Prop where
  here : t.resident.pageOf? id = some s.page
  on : s.On P
  ordered : ∃ lo hi, s.Ordered lo hi
  free : t.root ∉ s.pages.tail

theorem Knows.browse {s : Shape} (h : t.Knows P id s) (ht : t.Mirrors P) (hread : t.Browsed P t') :
    t'.Knows P id s :=
  ⟨hread.pages _ _ h.here, h.on, h.ordered, by rw [hread.root ht]; exact h.free⟩

theorem Knows.child {keys : List UInt64} {kids : List Shape} (h : t.Knows P id (.branch p keys kids))
    (ht : t.Mirrors P) {slot : Nat} {c : Shape} (hc : kids[slot]? = some c) :
    ∃ cid t', (child id slot).result t = (.ok cid, t') ∧ t.Browsed P t' ∧ t'.Knows P cid c := by
  have hmem := List.mem_of_getElem? hc
  obtain ⟨htop, hkids⟩ := Shape.on_branch.1 h.on
  obtain ⟨lo, hi, hordered⟩ := h.ordered
  obtain ⟨a, b, -, -, hbetween⟩ := (Shape.ordered_branch.1 hordered).mem hmem
  have hfree := h.free
  simp only [Shape.pages_branch, List.tail_cons, List.mem_flatMap, not_exists, not_and] at hfree
  have hroot : c.page ≠ t.root := fun he => hfree c hmem (he ▸ c.page_mem_pages)
  obtain ⟨cid, t', hrun, hread, hhere⟩ :=
    ht.child_ok h.here htop (by rw [List.getElem?_map, hc]; rfl) (hkids c hmem).top hroot
  refine ⟨cid, t', hrun, hread, hhere, hkids c hmem, ⟨a, b, hbetween⟩, ?_⟩
  rw [hread.root ht]
  exact fun hmem' => hfree c hmem (List.mem_of_mem_tail hmem')

theorem findSomeM?_ok {α β : Type} {f : α → Call Tree (Option β)} {g : α → Option β} {xs : List α}
    (ht : t.Mirrors P) (hf : ∀ x ∈ xs, ∀ t', t.Browsed P t' →
      ∃ t'', (f x).result t' = (.ok (g x), t'') ∧ t'.Browsed P t'') :
    ∃ t', (xs.findSomeM? f).result t = (.ok (xs.findSome? g), t') ∧ t.Browsed P t' := by
  induction xs generalizing t with
  | nil => exact ⟨t, rfl, .refl ht⟩
  | cons x xs ih =>
    obtain ⟨t₁, hx, hread⟩ := hf x List.mem_cons_self t (.refl ht)
    rw [List.findSomeM?_cons, Call.result_bind_ok hx, List.findSome?_cons]
    cases g x with
    | some y => exact ⟨t₁, rfl, hread⟩
    | none =>
      obtain ⟨t₂, hrest, hread'⟩ := ih hread.mirrors fun y hy t' h =>
        hf y (List.mem_cons_of_mem _ hy) t' (hread.trans h)
      exact ⟨t₂, hrest, hread.trans hread'⟩

/-- A lookup answers from the tree that the handle has in mind. -/
theorem lookupBelow_ok {s : Shape} {key : UInt64} {limit : Nat} (hlim : s.parts.length ≤ limit)
    (ht : t.Mirrors P) (h : t.Knows P id s) : ∃ t', (lookupBelow key limit id).result t =
      (.ok (s.find? key), t') ∧ t.Browsed P t' := by
  induction s using Shape.induct generalizing limit t id with
  | leaf p l =>
    obtain ⟨limit, rfl⟩ := Shape.exists_limit hlim
    have hr := ht.leaf h.here (Shape.on_leaf.1 h.on)
    rw [lookupBelow, Call.result_bind_ok (held_ok hr), Shape.find?_leaf]
    exact ⟨t, rfl, .refl ht⟩
  | branch p keys kids ih =>
    obtain ⟨lo, hi, hordered⟩ := h.ordered
    have hlen := hordered.separated.1
    obtain ⟨limit, rfl⟩ := Shape.exists_limit hlim
    obtain ⟨slots, hr, -, -⟩ := ht.branch h.here (Shape.on_branch.1 h.on).1
    rw [lookupBelow, Call.result_bind_ok (held_ok hr), Shape.find?_branch]
    apply findSomeM?_ok ht
    intro i hi t₁ hread
    have hle := Branch.le_of_mem_slotsFor hi
    obtain ⟨c, hc⟩ : ∃ c, kids[i]? = some c :=
      ⟨_, List.getElem?_eq_getElem (by simp only at hle; omega)⟩
    obtain ⟨cid, t₂, hrun, hread', hknows⟩ := (h.browse ht hread).child hread.mirrors hc
    have hlim' := Shape.length_parts_kid hlim (List.mem_of_getElem? hc)
    obtain ⟨t₃, hbelow, hread''⟩ := ih c (List.mem_of_getElem? hc) hlim' hread'.mirrors hknows
    refine ⟨t₃, ?_, hread'.trans hread''⟩
    rw [Call.result_bind_ok hrun, hbelow, hc, Option.bind_some]

/-- The handle has the tree in mind below its root. -/
structure Recalls (t : Tree) (P : Pages) (s : Shape) : Prop where
  mirrors : t.Mirrors P
  page : s.page = t.root
  on : s.On P
  distinct : s.pages.Nodup
  ordered : ∃ lo hi, s.Ordered lo hi
  within : ∀ p ∈ s.pages, p.toNat < t.store.pageCount

theorem Recalls.length_parts_le {s : Shape} (h : t.Recalls P s) : s.parts.length ≤ t.walkLimit := by
  have hle := length_le_of_nodup h.distinct h.within
  rw [Shape.length_pages] at hle
  exact Nat.le_trans hle (Nat.le_of_lt (pageCount_lt_walkLimit t))

theorem Recalls.knows {s : Shape} (h : t.Recalls P s) : t.Knows P t.rootId s := by
  refine ⟨?_, h.on, h.ordered, ?_⟩
  · rw [h.page]
    exact h.mirrors.rooted
  · have hdistinct := h.distinct
    rw [Shape.pages_eq, List.nodup_cons, h.page] at hdistinct
    exact hdistinct.1

theorem Recalls.get?_ok {s : Shape} (h : t.Recalls P s) (key : UInt64) : ∃ t',
    (get? key).result t = (.ok (s.find? key), t') ∧ t.Browsed P t' := by
  rw [get?, Call.result_bind_ok (Call.result_get t)]
  exact lookupBelow_ok h.length_parts_le h.mirrors h.knows

end Tree

end PagedTree
