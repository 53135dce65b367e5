import PagedTree.Proofs.Arenas
import PagedTree.Proofs.Standing

/-! # Pages in layers

In some files no way along children and links comes back to a page on it: the pages have heights, and every
node leads only to lower pages. A node that gives its right half to a new page, or moves its left half
there, keeps a file so, since the new page goes right below the page of the node: above all that the
halves lead to.
-/
namespace PagedTree

/-- Heights for the pages that have been handed out. -/
structure Layering where
  count : Nat
  height : PageNo → Nat
  bounded : ∀ p, p.toNat < count → height p < count

namespace Layering

/-- Page `q` lies below page `p`, both of which have been handed out. -/
structure Below (L : Layering) (q p : PageNo) : Prop where
  low : q.toNat < L.count
  high : p.toNat < L.count
  lt : L.height q < L.height p

/-- With at least the same pages, and all that lay below another still there. -/
structure Extends (L' L : Layering) : Prop where
  count_le : L.count ≤ L'.count
  below : ∀ {q p : PageNo}, L.Below q p → L'.Below q p

/-- A single page. -/
def single : Layering where
  count := 1
  height _ := 0
  bounded _ _ := Nat.one_pos

/-- One page more, right below page `p`. -/
def under (L : Layering) (p : PageNo) (hp : p.toNat < L.count) : Layering where
  count := L.count + 1
  height q :=
    if q.toNat = L.count then L.height p
    else if L.height p ≤ L.height q then L.height q + 1
    else L.height q
  bounded q hq := by
    have hheight := L.bounded p hp
    by_cases hnew : q.toNat = L.count
    · rw [if_pos hnew]
      omega
    · have hold := L.bounded q (by omega)
      rw [if_neg hnew]
      split <;> omega

variable {L L' L'' : Layering} {p q r : PageNo}

theorem Below.trans (h : L.Below r q) (h' : L.Below q p) : L.Below r p :=
  ⟨h.low, h'.high, Nat.lt_trans h.lt h'.lt⟩

theorem Extends.refl (L : Layering) : L.Extends L := ⟨Nat.le_refl _, id⟩

theorem Extends.trans (h : L'.Extends L) (h' : L''.Extends L') : L''.Extends L :=
  ⟨Nat.le_trans h.count_le h'.count_le, fun hb => h'.below (h.below hb)⟩

theorem under_extends (hp : p.toNat < L.count) : (L.under p hp).Extends L := by
  refine ⟨Nat.le_succ _, fun {r q} h => ⟨Nat.lt_succ_of_lt h.low, Nat.lt_succ_of_lt h.high, ?_⟩⟩
  have hlt := h.lt
  simp only [under, if_neg (Nat.ne_of_lt h.low), if_neg (Nat.ne_of_lt h.high)]
  split <;> split <;> omega

/-- The new page is below the one it was put under. -/
theorem under_below (hp : p.toNat < L.count) (hq : q.toNat = L.count) :
    (L.under p hp).Below q p := by
  refine ⟨hq ▸ Nat.lt_succ_self _, Nat.lt_succ_of_lt hp, ?_⟩
  simp only [under, if_pos hq, if_neg (Nat.ne_of_lt hp), if_pos (Nat.le_refl _)]
  exact Nat.lt_succ_self _

/-- What was below that page is below the new one. -/
theorem below_under (hp : p.toNat < L.count) (hq : q.toNat = L.count) (h : L.Below r p) :
    (L.under p hp).Below r q := by
  refine ⟨Nat.lt_succ_of_lt h.low, hq ▸ Nat.lt_succ_self _, ?_⟩
  simp only [under, if_pos hq, if_neg (Nat.ne_of_lt h.low), if_neg (Nat.not_le.2 h.lt)]
  exact h.lt

end Layering

/-! ## Nodes -/

/-- The next leaf is as said, or all children are, which are on the pages that are told. -/
def NodeOf.Leads {Child : Type} (page? : Child → Option PageNo) (good : PageNo → Prop) :
    NodeOf Child → Prop
  | .leaf l => ∀ q, l.next = some q → good q
  | .branch b => ∀ c ∈ b.children, ∃ q, page? c = some q ∧ good q

/-- A node that is not full and leads from page `p` down. -/
structure NodeOf.Sits {Child : Type} (L : Layering) (page? : Child → Option PageNo) (p : PageNo)
    (n : NodeOf Child) : Prop where
  here : p.toNat < L.count
  within : n.WithinOrder
  leads : n.Leads page? (L.Below · p)

namespace NodeOf

variable {Child : Type} {page? page?' : Child → Option PageNo} {good good' : PageNo → Prop}
  {n : NodeOf Child} {L L' : Layering} {p : PageNo}

theorem Leads.mono (h : n.Leads page? good) (hpage : ∀ c q, page? c = some q → page?' c = some q)
    (hgood : ∀ q, good q → good' q) : n.Leads page?' good' := by
  cases n with
  | leaf l => exact fun q hq => hgood q (h q hq)
  | branch b =>
    intro c hc
    obtain ⟨q, hq, hgoodq⟩ := h c hc
    exact ⟨q, hpage c q hq, hgood q hgoodq⟩

/-- A node on a new page may lead to all that was below the page it was put under. -/
theorem Leads.under (h : n.Leads page? (L.Below · p)) (hp : p.toNat < L.count) {q : PageNo}
    (hq : q.toNat = L.count) : n.Leads page? ((L.under p hp).Below · q) :=
  h.mono (fun _ _ hc => hc) fun _ => Layering.below_under hp hq

theorem Sits.mono (h : n.Sits L page? p) (hpage : ∀ c q, page? c = some q → page?' c = some q)
    (hL : L'.Extends L) : n.Sits L' page?' p :=
  ⟨Nat.lt_of_lt_of_le h.here hL.count_le, h.within, h.leads.mono hpage fun _ => hL.below⟩

theorem Sits.setChild (h : n.Sits L page? p) (slot : Nat) {c : Child} {q : PageNo}
    (hc : page? c = some q) (hq : L.Below q p) : (n.setChild slot c).Sits L page? p := by
  obtain ⟨here, hwithin, hleads⟩ := h
  cases n with
  | leaf l => exact ⟨here, hwithin, hleads⟩
  | branch b =>
    refine ⟨here, ⟨List.length_set.trans hwithin.1, hwithin.2⟩, fun d hd => ?_⟩
    rcases List.mem_or_eq_of_mem_set hd with hd | rfl
    · exact hleads d hd
    · exact ⟨q, hc, hq⟩

/-- A node as it is read from a page. -/
theorem Sits.unloaded {n : Node} (h : n.Sits L some p) (a : Arena) :
    (n.map .unloaded).Sits L a.slotPage? p := by
  obtain ⟨here, hwithin, hleads⟩ := h
  cases n with
  | leaf l => exact ⟨here, hwithin, hleads⟩
  | branch b =>
    refine ⟨here, by simpa [map, Branch.map, WithinOrder, Branch.Shaped] using hwithin, ?_⟩
    intro c hc
    obtain ⟨q, hq, rfl⟩ := List.mem_map.1 hc
    obtain ⟨r, hr, hbelow⟩ := hleads q hq
    cases hr
    exact ⟨q, rfl, hbelow⟩

/-- A node as it is to stand on its page. -/
theorem Sits.onPage? {a : Arena} {n : NodeOf Slot} (h : n.Sits L a.slotPage? p) :
    ∃ m, a.onPage? n = some m ∧ m.Sits L some p := by
  obtain ⟨here, hwithin, hleads⟩ := h
  cases n with
  | leaf l => exact ⟨.leaf l, rfl, here, hwithin, hleads⟩
  | branch b =>
    obtain ⟨ps, hps, hbelow⟩ : ∃ ps : List PageNo, b.children.map a.slotPage? = ps.map some ∧
        ∀ q ∈ ps, L.Below q p := by
      have hall : ∀ c ∈ b.children, ∃ q, a.slotPage? c = some q ∧ L.Below q p := hleads
      generalize b.children = slots at hall
      induction slots with
      | nil => exact ⟨[], rfl, by simp⟩
      | cons c slots ih =>
        obtain ⟨q, hq, hbelow⟩ := hall c List.mem_cons_self
        obtain ⟨ps, hps, hrest⟩ := ih fun d hd => hall d (List.mem_cons_of_mem _ hd)
        refine ⟨q :: ps, by rw [List.map_cons, hq, hps, List.map_cons], ?_⟩
        exact List.forall_mem_cons.2 ⟨hbelow, hrest⟩
    have hlen : b.children.length = ps.length := by simpa using congrArg List.length hps
    refine ⟨.branch ⟨b.keys, ps⟩, Arena.onPage?_branch.2 ⟨ps, rfl, hps⟩, here, ?_, ?_⟩
    · simpa [WithinOrder, Branch.Shaped, hlen] using hwithin
    · exact fun q hq => ⟨q, rfl, hbelow q hq⟩

end NodeOf

/-! ## Files -/

namespace PageStore

/-- Every page that has been handed out holds a node that leads down, and the header on the file says
which pages these are. -/
structure Layered (s : PageStore) (L : Layering) : Prop where
  sound : s.header.Sound
  synced : s.Synced
  count : s.pageCount = L.count
  sits : ∀ p, p.toNat < L.count → ∃ n, s.view p = some n ∧ n.Sits L some p

variable {s : PageStore} {L : Layering} {p : PageNo} {b : ByteArray} {n : Node}

theorem Layered.of_view (h : s.Layered L) (hn : s.view p = some n) : n.Sits L some p := by
  have hp := h.count ▸ lt_of_view hn
  obtain ⟨m, hm, hsits⟩ := h.sits p hp
  cases hn.symm.trans hm
  exact hsits

/-- A node that leads down may be written. -/
theorem Layered.write (h : s.Layered L) (hb : b.size = pageSize) (hdecode : Node.decode p b = .ok n)
    (hn : n.Sits L some p) : (s.putPage p b).Layered L := by
  refine ⟨h.sound, synced_putPage h.sound, h.count, ?_⟩
  rw [view_putPage (h.count ▸ hn.here) hb hdecode]
  intro q hq
  by_cases hqp : q = p
  · exact ⟨n, hqp ▸ Pages.set_same .., hqp ▸ hn⟩
  · rw [Pages.set_other n hqp]
    exact h.sits q hq

/-- A page may be asked for and written, with whatever is below page `p` below it. -/
theorem Layered.extend (h : s.Layered L) (hroom : s.HasRoom) (hp : p.toNat < L.count)
    (hb : b.size = pageSize) (hdecode : Node.decode (.ofNat s.pageCount) b = .ok n)
    (hn : n.Sits (L.under p hp) some (.ofNat s.pageCount)) :
    (s.grown.putPage (.ofNat s.pageCount) b).Layered (L.under p hp) := by
  have hsound := sound_grown h.sound hroom
  have hcount := pageCount_grown h.sound hroom
  obtain ⟨hwithin, hnew⟩ := view_allocated h.sound hroom hb hdecode
  refine ⟨hsound, synced_putPage hsound, ?_, ?_⟩
  · rw [pageCount_putPage, hcount, h.count]
    rfl
  intro q hq
  by_cases hq' : q.toNat = L.count
  · rw [← h.count, ← toNat_allocated, UInt32.toNat_inj] at hq'
    subst hq'
    exact ⟨n, hnew, hn⟩
  · obtain ⟨m, hm, hsits⟩ := h.sits q (by change q.toNat < L.count + 1 at hq; omega)
    exact ⟨m, hwithin q m hm, hsits.mono (fun _ _ => id) (Layering.under_extends hp)⟩

/-- What calls keep of a file in layers, however they end. -/
def Settled (s : PageStore) (L : Layering) : Prop := ∃ L', L'.Extends L ∧ s.Layered L'

theorem Layered.settled (h : s.Layered L) : s.Settled L := ⟨L, .refl L, h⟩

theorem Settled.mono {L' : Layering} (h : s.Settled L') (hL : L'.Extends L) : s.Settled L := by
  obtain ⟨L'', hL', hs⟩ := h
  exact ⟨L'', hL.trans hL', hs⟩

end PageStore

end PagedTree
