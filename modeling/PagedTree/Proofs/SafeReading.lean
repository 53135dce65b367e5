import PagedTree.Proofs.Intact
import PagedTree.Tree.Cursor
import PagedTree.Tree.Dump

/-! # Reading from any file

No call that reads is undefined, whatever the pages hold and wherever their links lead. Every node that
was held before is held after it, and has only been gone down from.
-/
namespace PagedTree.Tree

variable {t : Tree} {id : NodeId}

theorem endless_safe {α : Type} {A : Set NodeId} {good : α → Tree → Prop} (ht : t.Intact) :
    Safe A (throw .endless) t good := .of_error (Call.result_throw .endless t) (by simp) ht

theorem lookupBelow_safe (key : UInt64) (limit : Nat) (ht : t.Intact) (hid : id < t.resident.size) :
    Safe Set.univ (lookupBelow key limit id) t fun _ _ => True := by
  induction limit generalizing t id with
  | zero => exact endless_safe ht
  | succ limit ih =>
    obtain ⟨⟨p, n⟩, hr⟩ := Intact.exists_held hid
    rw [lookupBelow]
    refine .bind_ok (held_ok hr) ?_
    cases n with
    | leaf l => exact .pure ht trivial
    | branch b =>
      refine .findSomeM? ht fun slot _ u hu => ?_
      exact (descend_safe hu.intact (Nat.lt_of_lt_of_le hid hu.grows) slot).bind
        fun c u₁ hu₁ hc => ih hu₁.intact hc

theorem leafBelow_safe {slot? : Branch Slot → Option Nat}
    (hslot : ∀ b : Branch Slot, b.Shaped → ∃ i, slot? b = some i) (limit : Nat) (ht : t.Intact)
    (hid : id < t.resident.size) :
    Safe Set.univ (leafBelow slot? limit id) t fun x t' => x.1 < t'.resident.size := by
  induction limit generalizing t id with
  | zero => exact endless_safe ht
  | succ limit ih =>
    obtain ⟨⟨p, n⟩, hr⟩ := Intact.exists_held hid
    rw [leafBelow]
    refine .bind_ok (held_ok hr) ?_
    cases n with
    | leaf l => exact .pure ht hid
    | branch b =>
      obtain ⟨slot, hb⟩ := hslot b (ht.proper id _ hr b rfl).1
      simp only [hb]
      refine .bind_ok (Call.result_orFault_some slot t) ?_
      exact (descend_safe ht hid slot).bind fun c t₁ ht₁ hc => ih ht₁.intact hc

theorem firstLeaf_safe (ht : t.Intact) :
    Safe Set.univ firstLeaf t fun x t' => x.1 < t'.resident.size :=
  .bind_ok (Call.result_get t) (leafBelow_safe (fun _ _ => ⟨0, rfl⟩) _ ht ht.rooted)

theorem exists_lastSlot? (b : Branch Slot) (hb : b.Shaped) : ∃ i, lastSlot? b = some i := by
  unfold lastSlot?
  rw [show b.children.length = b.keys.length + 1 from hb]
  exact ⟨_, rfl⟩

theorem lastLeaf_safe (ht : t.Intact) :
    Safe Set.univ lastLeaf t fun x t' => x.1 < t'.resident.size :=
  .bind_ok (Call.result_get t) (leafBelow_safe exists_lastSlot? _ ht ht.rooted)

theorem get?_safe (key : UInt64) (ht : t.Intact) : Safe Set.univ (get? key) t fun _ _ => True :=
  .bind_ok (Call.result_get t) (lookupBelow_safe key _ ht ht.rooted)

theorem lastLeafSize_safe (ht : t.Intact) : Safe Set.univ lastLeafSize t fun _ _ => True :=
  (lastLeaf_safe ht).bind fun _ _ ht₁ _ => .pure ht₁.intact trivial

theorem dumpBelow_safe (limit depth : Nat) (ht : t.Intact) (hid : id < t.resident.size) :
    Safe Set.univ (dumpBelow limit depth id) t fun _ _ => True := by
  induction limit generalizing t id depth with
  | zero => exact endless_safe ht
  | succ limit ih =>
    obtain ⟨⟨p, n⟩, hr⟩ := Intact.exists_held hid
    rw [dumpBelow]
    refine .bind_ok (held_ok hr) ?_
    cases n with
    | leaf l => exact .pure ht trivial
    | branch b =>
      have hbelow : Safe Set.univ ((List.range b.children.length).mapM fun slot => do
          dumpBelow limit (depth + 1) (← child id slot)) t fun _ _ => True := by
        refine .mapM ht fun slot _ u hu => ?_
        exact (descend_safe hu.intact (Nat.lt_of_lt_of_le hid hu.grows) slot).bind
          fun c u₁ hu₁ hc => ih (depth + 1) hu₁.intact hc
      exact hbelow.bind fun _ _ ht₁ _ => .pure ht₁.intact trivial

theorem dump_safe (ht : t.Intact) : Safe Set.univ dump t fun _ _ => True :=
  .bind_ok (Call.result_get t) (dumpBelow_safe _ 0 ht ht.rooted)

/-! ## The cursor -/

theorem place_safe (ht : t.Intact) {cursor : Option Position}
    (h : ∀ pos, cursor = some pos → pos.leaf < t.resident.size) :
    Safe Set.univ (place cursor) t fun _ _ => True :=
  .of_ok (Call.result_modify _ t) (ht.place h) trivial

theorem cursorLeaf_safe (ht : t.Intact) {pos : Position} (hpos : t.cursor = some pos) :
    Safe Set.univ (cursorLeaf pos) t fun _ t' => t' = t := by
  obtain ⟨⟨p, n⟩, hr⟩ := Intact.exists_held (ht.placed pos hpos)
  rw [cursorLeaf]
  refine .bind_ok (held_ok hr) ?_
  cases n with
  | leaf l => exact .pure ht rfl
  | branch b => exact .fail ht

theorem seek_safe (limit : Nat) (ht : t.Intact) : Safe Set.univ (seek limit) t fun _ _ => True := by
  induction limit generalizing t with
  | zero => exact endless_safe ht
  | succ limit ih =>
    rw [seek]
    refine .bind_ok (Call.result_get t) ?_
    cases hcursor : t.cursor with
    | none => exact .pure ht trivial
    | some pos =>
      refine (cursorLeaf_safe ht hcursor).bind ?_
      rintro l _ - rfl
      split
      · exact .pure ht trivial
      cases l.next with
      | none => exact place_safe ht (by simp)
      | some next =>
        refine (resolve_safe ht next).bind fun c t₁ ht₁ hc => ?_
        refine (place_safe ht₁.intact ?_).bind fun _ t₂ ht₂ _ => ih ht₂.intact
        rintro _ ⟨⟩
        exact Arena.lt_size_of_pageOf? hc.1

theorem seekEntry_safe (ht : t.Intact) : Safe Set.univ seekEntry t fun _ _ => True :=
  .bind_ok (Call.result_get t) (seek_safe _ ht)

theorem toFront_safe (ht : t.Intact) : Safe Set.univ toFront t fun _ _ => True := by
  refine (firstLeaf_safe ht).bind fun x t₁ ht₁ hx => ?_
  refine (place_safe ht₁.intact ?_).bind fun _ _ ht₂ _ => seekEntry_safe ht₂.intact
  rintro _ ⟨⟩
  exact hx

theorem toNext_safe (ht : t.Intact) : Safe Set.univ toNext t fun _ _ => True := by
  rw [toNext]
  refine .bind_ok (Call.result_get t) ?_
  cases hcursor : t.cursor with
  | none => exact .pure ht trivial
  | some pos =>
    refine (place_safe ht ?_).bind fun _ _ ht₁ _ => seekEntry_safe ht₁.intact
    rintro _ ⟨⟩
    exact ht.placed pos hcursor

theorem scanFrom_safe (limit : Nat) (ht : t.Intact) :
    Safe Set.univ (scanFrom limit) t fun _ _ => True := by
  induction limit generalizing t with
  | zero => exact endless_safe ht
  | succ limit ih =>
    rw [scanFrom]
    refine .bind_ok (Call.result_get t) ?_
    cases hcursor : t.cursor with
    | none => exact .pure ht trivial
    | some pos =>
      refine (cursorLeaf_safe ht hcursor).bind ?_
      rintro l _ - rfl
      refine (place_safe ht ?_).bind fun _ _ ht₁ _ => ?_
      · rintro _ ⟨⟩
        exact ht.placed pos hcursor
      refine (seekEntry_safe ht₁.intact).bind fun _ _ ht₂ _ => ?_
      exact (ih ht₂.intact).bind fun _ _ ht₃ _ => .pure ht₃.intact trivial

theorem scan_safe (ht : t.Intact) : Safe Set.univ scan t fun _ _ => True :=
  (toFront_safe ht).bind fun _ t₁ ht₁ _ => .bind_ok (Call.result_get t₁) (scanFrom_safe _ ht₁.intact)

theorem greatestKey_safe (ht : t.Intact) : Safe Set.univ greatestKey t fun _ _ => True := by
  refine (lastLeaf_safe ht).bind fun x t₁ ht₁ _ => ?_
  cases x.2.keys.getLast? with
  | some key => exact .pure ht₁.intact trivial
  | none => exact (scan_safe ht₁.intact).bind fun _ _ ht₂ _ => .pure ht₂.intact trivial

/-- A next id is undefined only behind the largest key there is. -/
theorem nextId_ends (ht : t.Intact) : nextId.Ends t (fun _ t' => t.Retains Set.univ t')
    fun i t' => t'.Intact ∧ (i = .fault → ∃ key, greatestKey.result t = (.ok (some key), t') ∧
      key.toNat + 1 = UInt64.size) := by
  have hgreatest := greatestKey_safe ht
  rcases hrun : greatestKey.result t with ⟨r, t₁⟩
  cases r with
  | error i =>
    obtain ⟨hi, ht₁⟩ := hgreatest.bad_of_error hrun
    exact .of_error (Call.result_bind_error hrun _) ⟨ht₁, fun he => absurd he hi⟩
  | ok k =>
    have ht₁ := (hgreatest.good_of_ok hrun).1
    refine .bind_ok hrun ?_
    cases k with
    | none => exact .pure ht₁
    | some key =>
      dsimp only
      split
      · exact .of_ok (Call.result_orFault_some _ t₁) ht₁
      · have hkey : key.toNat < UInt64.size := key.toNat_lt
        exact .of_error (Call.result_orFault_none t₁) ⟨ht₁.intact, fun _ => ⟨key, rfl, by omega⟩⟩

end PagedTree.Tree
