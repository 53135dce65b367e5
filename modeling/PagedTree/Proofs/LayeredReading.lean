import PagedTree.Proofs.LayeredHandle
import PagedTree.Tree.Cursor
import PagedTree.Tree.Dump

/-! # Reading from a file in layers

Every walk has an end: down from node to node and along the links from leaf to leaf the heights fall, and
the limit of a walk is above them all.
-/
namespace PagedTree.Tree

variable {t : Tree} {L : Layering} {id : NodeId} {p : PageNo}

theorem lookupBelow_steady (key : UInt64) {limit : Nat} (hlim : L.height p < limit)
    (ht : t.Layered L) (hid : t.resident.pageOf? id = some p) :
    Steady L (lookupBelow key limit id) t fun _ _ => True := by
  induction limit generalizing t id p with
  | zero => exact absurd hlim (Nat.not_lt_zero _)
  | succ limit ih =>
    obtain ⟨n, hr, -⟩ := ht.exists_node hid
    rw [lookupBelow]
    refine .bind_ok (held_ok hr) ?_
    cases n with
    | leaf l => exact .pure ht trivial
    | branch b =>
      refine .findSomeM? ht fun slot _ u hu => ?_
      refine (child_steady hu.layered (hu.pages id p hid) slot).bind ?_
      rintro c u₁ hu₁ ⟨q, hc, hq⟩
      exact ih (Nat.lt_of_lt_of_le hq.lt (Nat.le_of_lt_succ hlim)) hu₁.layered hc

/-- A walk down ends at a leaf that is held. -/
theorem leafBelow_steady (slot? : Branch Slot → Option Nat) {limit : Nat}
    (hlim : L.height p < limit) (ht : t.Layered L) (hid : t.resident.pageOf? id = some p) :
    Steady L (leafBelow slot? limit id) t fun x t' => ∃ q, t'.resident.pageOf? x.1 = some q := by
  induction limit generalizing t id p with
  | zero => exact absurd hlim (Nat.not_lt_zero _)
  | succ limit ih =>
    obtain ⟨n, hr, -⟩ := ht.exists_node hid
    rw [leafBelow]
    refine .bind_ok (held_ok hr) ?_
    cases n with
    | leaf l => exact .pure ht ⟨p, hid⟩
    | branch b =>
      refine (Steady.orFault ht _).bind ?_
      rintro slot _ - ⟨rfl, -⟩
      refine (child_steady ht hid slot).bind ?_
      rintro c t₁ ht₁ ⟨q, hc, hq⟩
      exact ih (Nat.lt_of_lt_of_le hq.lt (Nat.le_of_lt_succ hlim)) ht₁.layered hc

/-- A walk that starts at the root. -/
theorem fromRoot_steady {α : Type} (walk : Nat → NodeId → Call Tree α) {good : α → Tree → Prop}
    (ht : t.Layered L) (h : ∀ p, t.resident.pageOf? t.rootId = some p →
      L.height p < t.walkLimit → Steady L (walk t.walkLimit t.rootId) t good) :
    Steady L (do let t ← get; walk t.walkLimit t.rootId) t good := by
  obtain ⟨p, hp, hlim⟩ := ht.exists_root
  exact .bind_ok (Call.result_get t) (h p hp (Nat.lt_of_succ_lt hlim))

theorem get?_steady (key : UInt64) (ht : t.Layered L) :
    Steady L (get? key) t fun _ _ => True :=
  fromRoot_steady _ ht fun _ hp hlim => lookupBelow_steady key hlim ht hp

theorem firstLeaf_steady (ht : t.Layered L) :
    Steady L firstLeaf t fun x t' => ∃ q, t'.resident.pageOf? x.1 = some q :=
  fromRoot_steady _ ht fun _ hp hlim => leafBelow_steady _ hlim ht hp

theorem lastLeaf_steady (ht : t.Layered L) :
    Steady L lastLeaf t fun x t' => ∃ q, t'.resident.pageOf? x.1 = some q :=
  fromRoot_steady _ ht fun _ hp hlim => leafBelow_steady _ hlim ht hp

theorem lastLeafSize_steady (ht : t.Layered L) : Steady L lastLeafSize t fun _ _ => True :=
  (lastLeaf_steady ht).bind fun _ _ ht₁ _ => .pure ht₁.layered trivial

theorem dumpBelow_steady {limit : Nat} (depth : Nat) (hlim : L.height p < limit)
    (ht : t.Layered L) (hid : t.resident.pageOf? id = some p) :
    Steady L (dumpBelow limit depth id) t fun _ _ => True := by
  induction limit generalizing t id p depth with
  | zero => exact absurd hlim (Nat.not_lt_zero _)
  | succ limit ih =>
    obtain ⟨n, hr, -⟩ := ht.exists_node hid
    rw [dumpBelow]
    refine .bind_ok (held_ok hr) ?_
    cases n with
    | leaf l => exact .pure ht trivial
    | branch b =>
      have hbelow : Steady L ((List.range b.children.length).mapM fun slot => do
          dumpBelow limit (depth + 1) (← child id slot)) t fun _ _ => True := by
        refine .mapM ht fun slot _ u hu => ?_
        refine (child_steady hu.layered (hu.pages id p hid) slot).bind ?_
        rintro c u₁ hu₁ ⟨q, hc, hq⟩
        exact ih (depth + 1) (Nat.lt_of_lt_of_le hq.lt (Nat.le_of_lt_succ hlim)) hu₁.layered hc
      exact hbelow.bind fun _ _ ht₁ _ => .pure ht₁.layered trivial

theorem dump_steady (ht : t.Layered L) : Steady L dump t fun _ _ => True :=
  fromRoot_steady (dumpBelow · 0) ht fun _ hp hlim => dumpBelow_steady 0 hlim ht hp

/-! ## The cursor -/

/-- The cursor is used up, or rests on a leaf whose height is below the bound. -/
def CursorUnder (L : Layering) (bound : Nat) (t : Tree) : Prop :=
  ∀ pos, t.cursor = some pos → ∃ p, t.resident.pageOf? pos.leaf = some p ∧ L.height p < bound

theorem place_steady (ht : t.Layered L) (cursor : Option Position) :
    Steady L (place cursor) t fun _ t' => t' = { t with cursor } :=
  .of_ok (Call.result_modify _ t)
    ⟨⟨ht.store, ht.indexed, ht.sits, ht.rooted⟩, fun _ _ => id, rfl⟩ rfl

theorem cursorLeaf_steady (ht : t.Layered L) {pos : Position}
    (hpos : t.resident.pageOf? pos.leaf = some p) : Steady L (cursorLeaf pos) t fun l t' =>
      t' = t ∧ t.resident.nodes[pos.leaf]? = some ⟨p, .leaf l⟩ := by
  obtain ⟨n, hr, -⟩ := ht.exists_node hpos
  rw [cursorLeaf]
  refine .bind_ok (held_ok hr) ?_
  cases n with
  | leaf l => exact .pure ht ⟨rfl, hr⟩
  | branch b => exact .fail ht

/-- Where the cursor goes when the leaf that it rests on has no entry left for it. -/
theorem seekNext_steady {limit bound : Nat} (ht : t.Layered L) {pos : Position} {l : Leaf}
    (hr : t.resident.nodes[pos.leaf]? = some ⟨p, .leaf l⟩) (hbound : L.height p ≤ bound)
    (hseek : ∀ u : Tree, u.Layered L → CursorUnder L bound u →
      Steady L (seek limit) u fun _ t' => CursorUnder L bound t') :
    Steady L (match l.next with
      | none => place none
      | some next => do
        place (some ⟨← resolve next, 0⟩)
        seek limit) t fun _ t' => CursorUnder L bound t' := by
  have hleads : ∀ q, l.next = some q → L.Below q p := (ht.sits _ _ hr).leads
  cases hnext : l.next with
  | none =>
    refine (place_steady ht none).mono ?_
    rintro _ _ - rfl
    exact fun pos hpos => by cases hpos
  | some next =>
    refine (resolve_steady ht next).bind fun c t₁ ht₁ hc => ?_
    refine (place_steady ht₁.layered _).bind ?_
    rintro _ _ ht₂ rfl
    refine hseek _ ht₂.layered ?_
    rintro _ ⟨⟩
    exact ⟨next, hc, Nat.lt_of_lt_of_le (hleads next hnext).lt hbound⟩

theorem seek_steady {limit bound : Nat} (hlim : bound < limit) (ht : t.Layered L)
    (hcursor : CursorUnder L bound t) :
    Steady L (seek limit) t fun _ t' => CursorUnder L bound t' := by
  induction limit generalizing t bound with
  | zero => exact absurd hlim (Nat.not_lt_zero _)
  | succ limit ih =>
    rw [seek]
    refine .bind_ok (Call.result_get t) ?_
    cases hpos : t.cursor with
    | none => exact .pure ht hcursor
    | some pos =>
      obtain ⟨p, hp, hheight⟩ := hcursor pos hpos
      refine (cursorLeaf_steady ht hp).bind ?_
      rintro l _ - ⟨rfl, hr⟩
      split
      · exact .pure ht hcursor
      · refine (seekNext_steady ht hr (Nat.le_refl _) fun u hu hu' => ?_).mono ?_
        · exact ih (Nat.lt_of_lt_of_le hheight (Nat.le_of_lt_succ hlim)) hu hu'
        · intro _ t' _ hlow pos' hpos'
          obtain ⟨q, hq, hlt⟩ := hlow pos' hpos'
          exact ⟨q, hq, Nat.lt_trans hlt hheight⟩

theorem seekEntry_steady {bound : Nat} (hbound : bound < t.walkLimit) (ht : t.Layered L)
    (hcursor : CursorUnder L bound t) :
    Steady L seekEntry t fun _ t' => CursorUnder L bound t' :=
  .bind_ok (Call.result_get t) (seek_steady hbound ht hcursor)

/-- Behind the last entry of a leaf the cursor goes to a lower one. -/
theorem seekEntry_falls (ht : t.Layered L) {pos : Position} {l : Leaf}
    (hpos : t.cursor = some pos) (hr : t.resident.nodes[pos.leaf]? = some ⟨p, .leaf l⟩)
    (hend : l.entries.length ≤ pos.index) :
    Steady L seekEntry t fun _ t' => CursorUnder L (L.height p) t' := by
  have hlim := ht.height_lt (ht.sits _ _ hr).here
  refine .bind_ok (Call.result_get t) ?_
  rw [walkLimit, seek]
  refine .bind_ok (Call.result_get t) ?_
  have hleaf : (cursorLeaf pos).result t = (.ok l, t) := by
    rw [cursorLeaf, Call.result_bind_ok (held_ok hr)]
    rfl
  simp only [hpos]
  refine .bind_ok hleaf ?_
  rw [if_neg (Nat.not_lt.2 hend)]
  refine seekNext_steady ht hr (Nat.le_refl _) fun u hu hu' => seek_steady ?_ hu hu'
  exact Nat.lt_of_succ_lt_succ hlim

theorem scanFrom_steady {limit bound : Nat} (hlim : bound < limit) (ht : t.Layered L)
    (hcursor : CursorUnder L bound t) : Steady L (scanFrom limit) t fun _ _ => True := by
  induction limit generalizing t bound with
  | zero => exact absurd hlim (Nat.not_lt_zero _)
  | succ limit ih =>
    rw [scanFrom]
    refine .bind_ok (Call.result_get t) ?_
    cases hpos : t.cursor with
    | none => exact .pure ht trivial
    | some pos =>
      obtain ⟨p, hp, hheight⟩ := hcursor pos hpos
      refine (cursorLeaf_steady ht hp).bind ?_
      rintro l _ - ⟨rfl, hr⟩
      refine (place_steady ht _).bind ?_
      rintro _ _ ht₁ rfl
      refine (seekEntry_falls ht₁.layered rfl hr (Nat.le_refl _)).bind fun _ t₂ ht₂ hlow => ?_
      have hrest := ih (Nat.lt_of_lt_of_le hheight (Nat.le_of_lt_succ hlim)) ht₂.layered hlow
      exact hrest.bind fun _ _ ht₃ _ => .pure ht₃.layered trivial

theorem Layered.cursorUnder (ht : t.Layered L) {bound : Nat} (hbound : t.store.pageCount ≤ bound)
    (hplaced : ∀ pos, t.cursor = some pos → ∃ p, t.resident.pageOf? pos.leaf = some p) :
    CursorUnder L bound t := by
  intro pos hpos
  obtain ⟨p, hp⟩ := hplaced pos hpos
  obtain ⟨n, -, hn⟩ := ht.exists_node hp
  have hheight := L.bounded p hn.here
  rw [← ht.store.count] at hheight
  exact ⟨p, hp, Nat.lt_of_lt_of_le hheight hbound⟩

theorem toFront_steady (ht : t.Layered L) :
    Steady L toFront t fun _ t' => CursorUnder L t'.store.pageCount t' := by
  refine (firstLeaf_steady ht).bind ?_
  rintro x t₁ ht₁ ⟨q, hq⟩
  refine (place_steady ht₁.layered _).bind ?_
  rintro _ _ ht₂ rfl
  have hcursor : CursorUnder L t₁.store.pageCount { t₁ with cursor := some ⟨x.1, 0⟩ } := by
    refine ht₂.layered.cursorUnder (Nat.le_refl _) ?_
    rintro _ ⟨⟩
    exact ⟨q, hq⟩
  refine (seekEntry_steady (pageCount_lt_walkLimit _) ht₂.layered hcursor).mono ?_
  intro _ t₃ ht₃ hcursor₃
  rwa [ht₃.layered.store.count, ← ht₁.layered.store.count]

theorem scan_steady (ht : t.Layered L) : Steady L scan t fun _ _ => True := by
  refine (toFront_steady ht).bind fun _ t₁ ht₁ hcursor => .bind_ok (Call.result_get t₁) ?_
  exact scanFrom_steady (pageCount_lt_walkLimit _) ht₁.layered hcursor

theorem greatestKey_steady (ht : t.Layered L) : Steady L greatestKey t fun _ _ => True := by
  refine (lastLeaf_steady ht).bind fun x t₁ ht₁ _ => ?_
  cases x.2.keys.getLast? with
  | some key => exact .pure ht₁.layered trivial
  | none => exact (scan_steady ht₁.layered).bind fun _ _ ht₂ _ => .pure ht₂.layered trivial

theorem nextId_steady (ht : t.Layered L) : Steady L nextId t fun _ _ => True := by
  refine (greatestKey_steady ht).bind fun k t₁ ht₁ _ => ?_
  cases k with
  | none => exact .pure ht₁.layered trivial
  | some key => exact (Steady.orFault ht₁.layered _).mono fun _ _ _ _ => trivial

end PagedTree.Tree
