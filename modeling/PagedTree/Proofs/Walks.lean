import PagedTree.Proofs.Asking
import PagedTree.Proofs.Circles
import PagedTree.Proofs.HostileFiles

/-! # Where reading has no end

A read follows the children and links that it finds on the pages, and nothing but the pages decides where
it goes. So it has an end unless they lead it into a circle, and if they do it has none: it reads no page
twice, and does not notice.
-/
namespace PagedTree

open Relation

namespace Pages

/-- From a branch to the child that is picked, and from a leaf that is passed to the next one. -/
inductive Walks (P : Pages) (pick : Branch PageNo → Option PageNo) (past : Leaf → Prop) :
    PageNo → PageNo → Prop where
  | down {p q : PageNo} {b : Branch PageNo} : P p = some (.branch b) → pick b = some q →
      Walks P pick past p q
  | on {p q : PageNo} {l m : Leaf} : P p = some (.leaf l) → past l → l.next = some q →
      P q = some (.leaf m) → Walks P pick past p q

/-- A search below the page comes to its end and finds nothing. -/
inductive Misses (P : Pages) (key : UInt64) : PageNo → Prop where
  | leaf {p : PageNo} {l : Leaf} : P p = some (.leaf l) → l.get? key = none → Misses P key p
  | branch {p : PageNo} {b : Branch PageNo} : P p = some (.branch b) →
      (∀ i ∈ b.slotsFor key, i < b.children.length) →
      (∀ i ∈ b.slotsFor key, ∀ c, b.children[i]? = some c → Misses P key c) → Misses P key p

/-- From a branch to a child that a search goes down to, after it has found nothing below those before. -/
inductive Searches (P : Pages) (key : UInt64) : PageNo → PageNo → Prop where
  | down {p q : PageNo} {b : Branch PageNo} {pre post : List Nat} {slot : Nat} :
      P p = some (.branch b) → b.slotsFor key = pre ++ slot :: post →
      (∀ i ∈ pre, ∃ c, b.children[i]? = some c ∧ P.Misses key c) →
      b.children[slot]? = some q → Searches P key p q

variable {P : Pages} {pick : Branch PageNo → Option PageNo} {past : Leaf → Prop} {key : UInt64}
  {p q : PageNo}

theorem Walks.exists_node (h : P.Walks pick past p q) : ∃ n, P p = some n := by
  cases h with
  | down hb => exact ⟨_, hb⟩
  | on hl => exact ⟨_, hl⟩

theorem Searches.exists_node (h : P.Searches key p q) : ∃ n, P p = some n := by
  cases h with
  | down hb => exact ⟨_, hb⟩

theorem Misses.exists_node (h : P.Misses key p) : ∃ n, P p = some n := by
  cases h with
  | leaf hl => exact ⟨_, hl⟩
  | branch hb => exact ⟨_, hb⟩

theorem Walks.of_branch {b : Branch PageNo} (h : P.Walks pick past p q)
    (hb : P p = some (.branch b)) : pick b = some q := by
  cases h with
  | down hb' hq =>
    cases hb.symm.trans hb'
    exact hq
  | on hl => cases hb.symm.trans hl

theorem Walks.of_leaf {l : Leaf} (h : P.Walks pick past p q) (hl : P p = some (.leaf l)) :
    past l ∧ l.next = some q ∧ ∃ m, P q = some (.leaf m) := by
  cases h with
  | down hb => cases hl.symm.trans hb
  | on hl' hpast hq hm =>
    cases hl.symm.trans hl'
    exact ⟨hpast, hq, _, hm⟩

/-- There is only one way to go. -/
theorem walks_unique (P : Pages) (pick : Branch PageNo → Option PageNo) (past : Leaf → Prop) :
    Relator.RightUnique (P.Walks pick past) := by
  intro p q r hq hr
  obtain ⟨n, hn⟩ := hq.exists_node
  cases n with
  | branch b => exact Option.some.inj ((hq.of_branch hn).symm.trans (hr.of_branch hn))
  | leaf l => exact Option.some.inj ((hq.of_leaf hn).2.1.symm.trans (hr.of_leaf hn).2.1)

/-- A page that cannot be read leads nowhere. -/
theorem deadEnd_of_unread (h : P.Walks pick past p q) (hq : P q = none) :
    DeadEnd (P.Walks pick past) p := by
  refine (DeadEnd.here fun r hr => ?_).prepend (.single h)
  obtain ⟨n, hn⟩ := hr.exists_node
  cases hq.symm.trans hn

/-- A leaf leads nowhere unless it has a link, and that to a leaf. -/
theorem deadEnd_of_leaf {l : Leaf} (hl : P p = some (.leaf l))
    (h : ∀ q m, l.next = some q → P q ≠ some (.leaf m)) : DeadEnd (P.Walks pick past) p := by
  refine .here fun q hq => ?_
  obtain ⟨-, hnext, m, hm⟩ := hq.of_leaf hl
  exact h q m hnext hm

end Pages

namespace Tree

variable {P : Pages} {pick : Branch PageNo → Option PageNo} {past : Leaf → Prop} {key : UInt64}
  {t : Tree} {id : NodeId} {p : PageNo} {loop stuck : Prop}

/-! ## Down and along -/

/-- Going down leads as far as the limit, to a leaf, or to where it cannot go on. -/
theorem leafBelow_asks {slot? : Branch Slot → Option Nat}
    (hpick : ∀ (rb : Branch Slot) (b : Branch PageNo), rb.children.length = b.children.length →
      (slot? rb).bind (b.children[·]?) = pick b) (limit : Nat) (ht : t.Sees P)
    (hid : t.resident.pageOf? id = some p) :
    Asks P (leafBelow slot? limit id) t (Goes (P.Walks pick past) limit p)
      (DeadEnd (P.Walks pick past) p) fun x t' => ∃ q, t'.resident.pageOf? x.1 = some q ∧
        P q = some (.leaf x.2) ∧ ReflTransGen (P.Walks pick past) p q := by
  induction limit generalizing t id p with
  | zero => exact .endless ht .none
  | succ limit ih =>
    obtain ⟨rn, n, hr, -, hn⟩ := ht.copies.exists_node hid
    cases n with
    | leaf l =>
      rw [leafBelow]
      refine .bind_ok (held_ok (ht.copies.leaf hid hn)) ?_
      exact .pure ht ⟨p, hid, hn, .refl⟩
    | branch b =>
      obtain ⟨slots, hr, hslots⟩ := ht.copies.branch hid hn
      have hlen : slots.length = b.children.length := by simpa using congrArg List.length hslots
      have hway := hpick ⟨b.keys, slots⟩ b hlen
      have hnoSlot : slot? ⟨b.keys, slots⟩ = none → DeadEnd (P.Walks pick past) p := by
        intro hnone
        refine .here fun q hq => ?_
        rw [hnone, Option.bind_none, hq.of_branch hn] at hway
        cases hway
      rw [leafBelow]
      refine .bind_ok (held_ok hr) ((Asks.orFault ht _ hnoSlot).bind ?_)
      rintro slot _ - ⟨rfl, hslot⟩
      rw [hslot, Option.bind_some] at hway
      have hnoChild : (∀ q, b.children[slot]? = some q → P q = none) →
          DeadEnd (P.Walks pick past) p := by
        intro hnone
        cases hq : b.children[slot]? with
        | none => exact .here fun q hq' => by cases (hway ▸ hq).symm.trans (hq'.of_branch hn)
        | some q => exact Pages.deadEnd_of_unread (.down hn (hway ▸ hq)) (hnone q hq)
      refine ((child_asks ht hid hn slot).widen (fun h => h) hnoChild).bind ?_
      rintro c t₁ ht₁ ⟨q, hq, hc⟩
      have hstep : P.Walks pick past p q := .down hn (hway ▸ hq)
      refine (ih ht₁.sees hc).mono (.step hstep) (·.prepend (.single hstep)) ?_
      rintro x t' - ⟨r, hr', hl, hqr⟩
      exact ⟨r, hr', hl, .head hstep hqr⟩

theorem cursorLeaf_held_leaf {pos : Position} {l : Leaf}
    (hr : t.resident.nodes[pos.leaf]? = some ⟨p, .leaf l⟩) :
    (cursorLeaf pos).result t = (.ok l, t) := by
  rw [cursorLeaf, Call.result_bind_ok (held_ok hr), Call.result_pure]

theorem cursorLeaf_held_branch {pos : Position} {b : Branch Slot}
    (hr : t.resident.nodes[pos.leaf]? = some ⟨p, .branch b⟩) :
    (cursorLeaf pos).result t = (.error (.error (.corruptPage p .siblingBranch)), t) := by
  rw [cursorLeaf, Call.result_bind_ok (held_ok hr), Call.result_fail]

/-- Where the cursor may come to from index `i` of the leaf on page `p`: behind the last leaf, or to an
entry, on that very index or on a later leaf. -/
inductive CameTo (P : Pages) (R : PageNo → PageNo → Prop) (p : PageNo) (i : Nat) (t : Tree) :
    Prop where
  | spent : t.cursor = none → DeadEnd R p → CameTo P R p i t
  | entry {pos : Position} {q : PageNo} {m : Leaf} : t.cursor = some pos →
      t.resident.pageOf? pos.leaf = some q → P q = some (.leaf m) → pos.index < m.entries.length →
      q = p ∧ pos.index = i ∨ TransGen R p q → CameTo P R p i t

theorem CameTo.prepend {R : PageNo → PageNo → Prop} {q : PageNo} {i j : Nat} (h : CameTo P R q j t)
    (hstep : R p q) : CameTo P R p i t := by
  cases h with
  | spent hnone hend => exact .spent hnone (hend.prepend (.single hstep))
  | @entry pos r m hpos hr hm hlt hway =>
    refine .entry hpos hr hm hlt (.inr ?_)
    rcases hway with ⟨rfl, -⟩ | hway
    · exact .single hstep
    · exact .head hstep hway

/-- A link may have led the cursor to a branch. -/
theorem seek_branch_asks (limit : Nat) (ht : t.Sees P) {pos : Position}
    (hcursor : t.cursor = some pos) (hid : t.resident.pageOf? pos.leaf = some p)
    {b : Branch PageNo} (hb : P p = some (.branch b)) :
    Asks P (seek limit) t (limit = 0) True fun _ _ => False := by
  cases limit with
  | zero => exact .endless ht rfl
  | succ limit =>
    obtain ⟨slots, hr, -⟩ := ht.copies.branch hid hb
    rw [seek]
    refine .bind_ok (Call.result_get t) ?_
    simp only [hcursor]
    exact Call.Ends.of_error (Call.result_bind_error (cursorLeaf_held_branch hr) _)
      ⟨.refl ht, .refused (.corruptPage _ _) trivial⟩

/-- Moving on along the links leads as far as the limit, to an entry, behind the last leaf, or to where it
cannot go on. -/
theorem seek_asks (hpast : ∀ l : Leaf, l.entries = [] → past l) (limit : Nat) (ht : t.Sees P)
    {i : Nat} {l : Leaf} (hcursor : t.cursor = some ⟨id, i⟩) (hid : t.resident.pageOf? id = some p)
    (hl : P p = some (.leaf l)) (hi : l.entries.length ≤ i → past l) :
    Asks P (seek limit) t (Goes (P.Walks pick past) (limit - 1) p) (DeadEnd (P.Walks pick past) p)
      fun _ t' => CameTo P (P.Walks pick past) p i t' := by
  induction limit generalizing t id p i l with
  | zero => exact .endless ht .none
  | succ limit ih =>
    rw [seek]
    refine .bind_ok (Call.result_get t) ?_
    simp only [hcursor]
    refine .bind_ok (cursorLeaf_held_leaf (ht.copies.leaf hid hl)) ?_
    split
    case isTrue hlt => exact .pure ht (.entry hcursor hid hl hlt (.inl ⟨rfl, rfl⟩))
    case isFalse hge =>
      cases hnext : l.next with
      | none =>
        refine (place_asks ht none).imp ?_
        rintro _ _ - rfl
        exact .spent rfl (Pages.deadEnd_of_leaf hl (by simp [hnext]))
      | some next =>
        have hno : (∀ m, P next ≠ some (.leaf m)) → DeadEnd (P.Walks pick past) p := by
          refine fun hno => Pages.deadEnd_of_leaf hl fun q m hq => ?_
          cases hnext.symm.trans hq
          exact hno m
        have hnone : P next = none → DeadEnd (P.Walks pick past) p := fun h => hno (by simp [h])
        refine ((resolve_asks ht next).widen (fun h => h) hnone).bind fun c t₁ ht₁ hc => ?_
        refine (place_asks ht₁.sees _).bind ?_
        rintro _ _ ht₂ rfl
        obtain ⟨-, n, -, -, hn⟩ := ht₂.sees.copies.exists_node hc
        cases n with
        | branch b =>
          refine (seek_branch_asks limit ht₂.sees rfl hc hn).mono ?_ (fun _ => hno (by simp [hn]))
            fun _ _ _ h => h.elim
          rintro rfl
          exact .none
        | leaf m =>
          have hstep : P.Walks pick past p next := .on hl (hi (Nat.le_of_not_lt hge)) hnext hn
          refine (ih ht₂.sees rfl hc hn fun h => hpast m ?_).mono
            (fun h => (Goes.step hstep h).le (by omega)) (·.prepend (.single hstep))
            fun _ _ _ hcame => hcame.prepend hstep
          exact List.eq_nil_of_length_eq_zero (Nat.le_zero.1 h)

/-- Where the cursor rests has been reached. -/
theorem reached_of_way {R : PageNo → PageNo → Prop} {q : PageNo} {i j : Nat}
    (h : q = p ∧ j = i ∨ TransGen R p q) : ReflTransGen R p q := by
  rcases h with ⟨rfl, -⟩ | h
  · exact .refl
  · exact h.to_reflTransGen

theorem CameTo.deadEnd {i : Nat} (h : CameTo P (P.Walks pick past) p i t)
    (hpast : ∀ l, past l → l.entries = []) : DeadEnd (P.Walks pick past) p := by
  cases h with
  | spent _ hend => exact hend
  | @entry pos q m _ _ hm hlt hway =>
    refine (DeadEnd.here fun r hr => ?_).prepend (reached_of_way hway)
    rw [hpast m (hr.of_leaf hm).1] at hlt
    exact absurd hlt (Nat.not_lt_zero _)

/-! ## Looking up -/

/-- A lookup at a branch asks the children that may hold the key one after another, until one has it. -/
theorem lookupBelow_branch_asks {limit : Nat} {b : Branch PageNo} (passed : List Nat → Prop)
    (found : Prop) (ht : t.Sees P) (hid : t.resident.pageOf? id = some p)
    (hb : P p = some (.branch b)) (h : passed [])
    (hnext : ∀ pre slot post, b.slotsFor key = pre ++ slot :: post → passed pre → ∀ u, u.Sees P →
      u.resident.pageOf? id = some p →
      Asks P (child id slot >>= lookupBelow key limit) u loop stuck
        fun r _ => if r.isSome then found else passed (pre ++ [slot])) :
    Asks P (lookupBelow key (limit + 1) id) t loop stuck
      fun r _ => if r.isSome then found else passed (b.slotsFor key) := by
  obtain ⟨slots, hr, -⟩ := ht.copies.branch hid hb
  rw [lookupBelow]
  exact .bind_ok (held_ok hr) (.findSomeM? passed ht h fun pre slot post hslots hpre u hu =>
    hnext pre slot post hslots hpre u hu.sees (hu.pages id p hid))

/-- A lookup goes down as far as the limit, or comes to its end. -/
theorem lookupBelow_asks (key : UInt64) (limit : Nat) (ht : t.Sees P)
    (hid : t.resident.pageOf? id = some p) :
    Asks P (lookupBelow key limit id) t (Goes (P.Searches key) limit p) True
      fun r _ => r = none → P.Misses key p := by
  induction limit generalizing t id p with
  | zero => exact .endless ht .none
  | succ limit ih =>
    obtain ⟨-, n, -, -, hn⟩ := ht.copies.exists_node hid
    cases n with
    | leaf l =>
      rw [lookupBelow]
      refine .bind_ok (held_ok (ht.copies.leaf hid hn)) ?_
      exact .pure ht fun hnone => .leaf hn hnone
    | branch b =>
      refine (lookupBelow_branch_asks
        (fun ys => ∀ i ∈ ys, ∃ c, b.children[i]? = some c ∧ P.Misses key c) True
        ht hid hn (by simp) fun pre slot post hslots hpre u hu hid' => ?_).imp ?_
      · refine ((child_asks hu hid' hn slot).widen (fun h => h) fun _ => trivial).bind ?_
        rintro c u₁ hu₁ ⟨q, hq, hc⟩
        refine (ih hu₁.sees hc).mono (.step (.down hn hslots hpre hq)) (fun h => h) ?_
        intro r _ _ hmiss
        cases r with
        | some v => trivial
        | none =>
          intro i hi
          rcases List.mem_append.1 hi with hi | hi
          · exact hpre i hi
          · rw [List.mem_singleton.1 hi]
            exact ⟨q, hq, hmiss rfl⟩
      · rintro r _ - hall rfl
        refine .branch hn (fun i hi => ?_) fun i hi c hc => ?_
        · obtain ⟨c, hc, -⟩ := hall i hi
          exact (List.getElem?_eq_some_iff.1 hc).1
        · obtain ⟨d, hd, hmiss⟩ := hall i hi
          cases hc.symm.trans hd
          exact hmiss

theorem child_asks_read (ht : t.Sees P) (hid : t.resident.pageOf? id = some p) {b : Branch PageNo}
    (hb : P p = some (.branch b)) {slot : Nat} {q : PageNo} (hq : b.children[slot]? = some q)
    {n : Node} (hn : P q = some n) :
    Asks P (child id slot) t loop False fun c t' => t'.resident.pageOf? c = some q := by
  refine (child_asks ht hid hb slot).mono (fun h => h) (fun h => ?_) ?_
  · cases hn.symm.trans (h q hq)
  · rintro c t' - ⟨r, hr, hc⟩
    cases hq.symm.trans hr
    exact hc

/-- Where there is nothing to be found, nothing is found, unless the limit is too low. -/
theorem lookupBelow_misses (h : P.Misses key p) (limit : Nat) (ht : t.Sees P)
    (hid : t.resident.pageOf? id = some p) :
    Asks P (lookupBelow key limit id) t True False fun r _ => r = none := by
  induction h generalizing limit t id with
  | leaf hl hnone =>
    cases limit with
    | zero => exact .endless ht trivial
    | succ limit =>
      rw [lookupBelow]
      refine .bind_ok (held_ok (ht.copies.leaf hid hl)) ?_
      exact .pure ht hnone
  | @branch p b hb hlt hmiss ih =>
    cases limit with
    | zero => exact .endless ht trivial
    | succ limit =>
      refine (lookupBelow_branch_asks (fun _ => True) False ht hid hb trivial
        fun pre slot post hslots _ u hu hid' => ?_).imp ?_
      · have hmem : slot ∈ b.slotsFor key := by simp [hslots]
        have hq := List.getElem?_eq_getElem (hlt slot hmem)
        obtain ⟨n, hn⟩ := (hmiss slot hmem _ hq).exists_node
        refine (child_asks_read hu hid' hb hq hn).bind fun c u₁ hu₁ hc => ?_
        refine (ih slot hmem _ hq limit hu₁.sees hc).imp ?_
        rintro _ _ - rfl
        trivial
      · intro r _ _ hgood
        cases r with
        | some v => exact hgood.elim
        | none => rfl

/-- In a circle a lookup does not come to an end, whatever the limit. -/
theorem lookupBelow_circles (h : Circles (P.Searches key) p) (limit : Nat) (ht : t.Sees P)
    (hid : t.resident.pageOf? id = some p) :
    Asks P (lookupBelow key limit id) t True False fun _ _ => False := by
  induction limit generalizing t id p with
  | zero => exact .endless ht trivial
  | succ limit ih =>
    obtain ⟨q, hpq, hcircles⟩ := h.exists_step
    obtain ⟨r, hqr, -⟩ := hcircles.exists_step
    obtain ⟨n, hn⟩ := hqr.exists_node
    cases hpq with
    | @down b pre post slot hb hslots hpre hq =>
      -- the search never gets past the child that leads into the circle
      refine (lookupBelow_branch_asks (· <+: pre) False ht hid hb List.nil_prefix
        fun ys i zs hys hle u hu hid' => ?_).imp ?_
      · obtain ⟨ws, rfl⟩ := hle
        rw [hslots, List.append_assoc, List.append_cancel_left_eq] at hys
        cases ws with
        | nil =>
          obtain ⟨rfl, -⟩ := List.cons.inj hys
          refine (child_asks_read hu hid' hb hq hn).bind fun c u₁ hu₁ hc => ?_
          exact (ih hcircles hu₁.sees hc).imp fun _ _ _ h => h.elim
        | cons j ws =>
          obtain ⟨rfl, -⟩ := List.cons.inj hys
          obtain ⟨c, hc, hmiss⟩ := hpre j (by simp)
          obtain ⟨m, hm⟩ := hmiss.exists_node
          refine (child_asks_read hu hid' hb hc hm).bind fun d u₁ hu₁ hd => ?_
          refine (lookupBelow_misses hmiss limit hu₁.sees hd).imp ?_
          rintro _ _ - rfl
          exact ⟨ws, by simp⟩
      · intro r _ _ hgood
        cases r with
        | some v => exact hgood
        | none =>
          have hlen := List.IsPrefix.length_le hgood
          rw [hslots, List.length_append, List.length_cons] at hlen
          omega

/-! ## Calls from the root -/

theorem walkLimit_perused {t' : Tree} (h : t.Perused P t') : t'.walkLimit = t.walkLimit := by
  rw [walkLimit, h.store_eq, walkLimit]

theorem lastLeafSize_asks (ht : t.Sees P) (hroot : t.resident.pageOf? t.rootId = some p) :
    Asks P lastLeafSize t (Goes (P.Walks (·.children.getLast?) fun _ => False) t.walkLimit p)
      (DeadEnd (P.Walks (·.children.getLast?) fun _ => False) p)
      fun _ _ => DeadEnd (P.Walks (·.children.getLast?) fun _ => False) p := by
  have hpick : ∀ (rb : Branch Slot) (b : Branch PageNo), rb.children.length = b.children.length →
      (lastSlot? rb).bind (b.children[·]?) = b.children.getLast? := by
    intro rb b hlen
    rw [lastSlot?, hlen, List.getLast?_eq_getElem?]
    cases h : b.children.length with
    | zero => simp [List.length_eq_zero_iff.1 h]
    | succ n => rfl
  refine Asks.bind (.bind_ok (Call.result_get t) (leafBelow_asks hpick _ ht hroot)) ?_
  rintro ⟨id, l⟩ t₁ ht₁ ⟨q, -, hl, hpq⟩
  exact .pure ht₁.sees ((DeadEnd.here fun r hr => (hr.of_leaf hl).1).prepend hpq)

/-- The cursor goes down to the leftmost leaf and on from there. -/
theorem toFront_asks (past : Leaf → Prop) (hpast : ∀ l : Leaf, l.entries = [] → past l)
    (ht : t.Sees P) (hroot : t.resident.pageOf? t.rootId = some p) :
    Asks P toFront t (Goes (P.Walks (·.children.head?) past) (t.walkLimit - 1) p)
      (DeadEnd (P.Walks (·.children.head?) past) p)
      fun _ t' => ∃ q, ReflTransGen (P.Walks (·.children.head?) past) p q ∧
        CameTo P (P.Walks (·.children.head?) past) q 0 t' := by
  have hpick : ∀ (rb : Branch Slot) (b : Branch PageNo), rb.children.length = b.children.length →
      (some 0).bind (b.children[·]?) = b.children.head? :=
    fun _ b _ => b.children.head?_eq_getElem?.symm
  have hfirst : Asks P firstLeaf t (Goes (P.Walks (·.children.head?) past) t.walkLimit p) _ _ :=
    .bind_ok (Call.result_get t) (leafBelow_asks hpick _ ht hroot)
  rw [toFront]
  refine (hfirst.widen (·.le (Nat.sub_le _ _)) fun h => h).bind ?_
  rintro ⟨id, l⟩ t₁ ht₁ ⟨q, hid, hl, hpq⟩
  refine (place_asks ht₁.sees _).bind ?_
  rintro _ _ ht₂ rfl
  refine .bind_ok (Call.result_get _) ?_
  refine (seek_asks hpast _ ht₂.sees rfl hid hl fun h => hpast l ?_).mono ?_ (·.prepend hpq)
    fun _ _ _ hcame => ⟨q, hpq, hcame⟩
  · exact List.eq_nil_of_length_eq_zero (Nat.le_zero.1 h)
  · intro h
    rw [walkLimit_perused (ht₁.trans ht₂)] at h
    exact h.prepend hpq

theorem scanFrom_spent (limit : Nat) (ht : t.Sees P) (hcursor : t.cursor = none) :
    Asks P (scanFrom limit) t (limit = 0) stuck fun _ _ => True := by
  cases limit with
  | zero => exact .endless ht rfl
  | succ limit =>
    rw [scanFrom]
    refine .bind_ok (Call.result_get t) ?_
    simp only [hcursor]
    exact .pure ht trivial

/-- A scan takes at least one link for each leaf that it reads. -/
theorem scanFrom_asks {limit : Nat} (hlim : limit ≤ t.walkLimit) (ht : t.Sees P) {pos : Position}
    {l : Leaf} (hcursor : t.cursor = some pos) (hid : t.resident.pageOf? pos.leaf = some p)
    (hl : P p = some (.leaf l)) :
    Asks P (scanFrom limit) t (Goes (P.Walks pick fun _ => True) (limit - 1) p)
      (DeadEnd (P.Walks pick fun _ => True) p)
      fun _ _ => DeadEnd (P.Walks pick fun _ => True) p := by
  induction limit generalizing t p pos l with
  | zero => exact .endless ht .none
  | succ limit ih =>
    rw [scanFrom]
    refine .bind_ok (Call.result_get t) ?_
    simp only [hcursor]
    refine .bind_ok (cursorLeaf_held_leaf (ht.copies.leaf hid hl)) ?_
    refine (place_asks ht _).bind ?_
    rintro _ _ ht₁ rfl
    have hseek : Asks P seekEntry _ (Goes (P.Walks pick fun _ => True) _ p) _ _ :=
      .bind_ok (Call.result_get _)
        (seek_asks (fun _ _ => trivial) _ ht₁.sees rfl hid hl fun _ => trivial)
    refine (hseek.widen (fun h => h.le ?_) fun h => h).bind ?_
    · rw [walkLimit_perused ht₁]
      omega
    intro _ t₂ ht₂ hcame
    have hrest : Asks P (scanFrom limit) t₂ (Goes (P.Walks pick fun _ => True) limit p)
        (DeadEnd (P.Walks pick fun _ => True) p)
        fun _ _ => DeadEnd (P.Walks pick fun _ => True) p := by
      cases hcame with
      | spent hnone hend =>
        refine (scanFrom_spent limit ht₂.sees hnone).mono ?_ (fun h => h) fun _ _ _ _ => hend
        rintro rfl
        exact .none
      | @entry pos' q m hpos hq hm hlt hway =>
        have hpq : TransGen (P.Walks pick fun _ => True) p q := by
          refine hway.resolve_left ?_
          rintro ⟨rfl, hindex⟩
          cases hl.symm.trans hm
          exact Nat.lt_irrefl _ (hindex ▸ hlt)
        have hlim' : limit ≤ t₂.walkLimit := by
          rw [walkLimit_perused (ht₁.trans ht₂)]
          omega
        refine (ih hlim' ht₂.sees hpos hq hm).mono (fun h => (h.after hpq).le (by omega))
          (·.prepend hpq.to_reflTransGen) fun _ _ _ h => h.prepend hpq.to_reflTransGen
    exact hrest.bind fun _ _ ht₃ hend => .pure ht₃.sees hend

theorem scan_asks (ht : t.Sees P) (hroot : t.resident.pageOf? t.rootId = some p) :
    Asks P scan t (Goes (P.Walks (·.children.head?) fun _ => True) (t.walkLimit - 1) p)
      (DeadEnd (P.Walks (·.children.head?) fun _ => True) p)
      fun _ _ => DeadEnd (P.Walks (·.children.head?) fun _ => True) p := by
  refine (toFront_asks (fun _ => True) (fun _ _ => trivial) ht hroot).bind ?_
  rintro _ t₁ ht₁ ⟨q, hpq, hcame⟩
  refine .bind_ok (Call.result_get t₁) ?_
  rw [walkLimit_perused ht₁]
  cases hcame with
  | spent hnone hend =>
    exact (scanFrom_spent _ ht₁.sees hnone).mono (fun h => by simp [walkLimit] at h) (fun h => h)
      fun _ _ _ _ => hend.prepend hpq
  | @entry pos r m hpos hr hm hlt hway =>
    have hpr := hpq.trans (reached_of_way hway)
    exact (scanFrom_asks (Nat.le_of_eq (walkLimit_perused ht₁).symm) ht₁.sees hpos hr hm).mono
      (·.prepend hpr) (·.prepend hpr) fun _ _ _ h => h.prepend hpr

end Tree

end PagedTree
