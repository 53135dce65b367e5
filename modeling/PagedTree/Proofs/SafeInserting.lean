import PagedTree.Proofs.Handle
import PagedTree.Proofs.Intact
import PagedTree.Proofs.Leaves
import PagedTree.Tree.Insert

/-! # Inserting into any file

An insertion goes down one path. If the path comes back to a node on it, it never reaches a leaf and the
call has no end; otherwise the nodes on it stay as they are until the call comes back to them, so that the
slot it went down by is still there to take up a split.
-/
namespace PagedTree

namespace NodeOf.Proper

variable {b c l r : Branch Slot} {size : Nat}

theorem absorb (h : Proper (.branch b) size) {slot : Nat} {left right : NodeId}
    (hleft : left < size) (hright : right < size) (hslot : slot ≤ b.keys.length) (key : UInt64) :
    ∃ c, b.absorb? slot (.loaded left) key (.loaded right) = some c ∧ Proper (.branch c) size := by
  obtain ⟨hshaped, hslots⟩ := h b rfl
  obtain ⟨c, hc, hcshaped⟩ := hshaped.absorb? hslot (.loaded left) key (.loaded right)
  refine ⟨c, hc, branch hcshaped fun d hd => ?_⟩
  unfold Branch.absorb? at hc
  split at hc
  · cases hc
    rcases List.eq_or_mem_of_mem_insertIdx hd with he | hd
    · cases he
      exact hright
    rcases List.mem_or_eq_of_mem_set hd with hd | he
    · exact hslots d hd
    · cases he
      exact hleft
  · cases hc

theorem split (h : Proper (.branch b) size) (hkeys : b.keys ≠ []) : ∃ l key r,
    b.split? = some (l, key, r) ∧ Proper (.branch l) size ∧ Proper (.branch r) size := by
  obtain ⟨hshaped, hslots⟩ := h b rfl
  obtain ⟨l, key, r, hsplit, hl, hr, -, hchildren⟩ := hshaped.split? hkeys
  refine ⟨l, key, r, hsplit, branch hl fun d hd => ?_, branch hr fun d hd => ?_⟩
  · exact hslots d (hchildren ▸ List.mem_append_left _ hd)
  · exact hslots d (hchildren ▸ List.mem_append_right _ hd)

end NodeOf.Proper

namespace Tree

variable {A : Set NodeId} {t t' : Tree} {id : NodeId} {p : PageNo}

/-! ## Splitting -/

/-- Both halves are held. -/
def Split.Held (s : Split) (t : Tree) : Prop := s.left < t.resident.size ∧ s.right < t.resident.size

theorem putHalves_safe (ht : t.Intact) (hid : id < t.resident.size) (hA : id ∉ A) {right : PageNo}
    (hnew : ∀ j, t.resident.pageOf? j ≠ some right) (hp : right.toNat < t.store.pageCount)
    {l r : NodeOf Slot} (hl : l.Proper t.resident.size) (hr : r.Proper t.resident.size)
    (key : UInt64) : Safe A (putHalves id right (l, key, r)) t fun s t' => s.Held t' := by
  rw [putHalves]
  refine (put_safe ht hl fun h => absurd h hA).bind ?_
  rintro _ t₁ ht₁ rfl
  refine (keep_safe ht₁.intact ?_ hp (hr.mono ht₁.grows)).bind ?_
  · intro j
    rw [Arena.pageOf?_put]
    exact hnew j
  rintro new t₂ ht₂ ⟨hnewlt, -⟩
  have hid₂ : id < t₂.resident.size := Nat.lt_of_lt_of_le hid (ht₁.grows.trans ht₂.grows)
  refine (write_safe ht₂.intact hnewlt).bind ?_
  rintro _ _ ht₃ ⟨s, rfl⟩
  refine (write_safe ht₃.intact hid₂).bind ?_
  rintro _ _ ht₄ ⟨s', rfl⟩
  exact .pure ht₄.intact ⟨hid₂, hnewlt⟩

theorem splitLeaf_safe (ht : t.Intact) (hA : id ∉ A) {l : Leaf}
    (hr : t.resident.nodes[id]? = some ⟨p, .leaf l⟩) (hlen : 2 ≤ l.entries.length) :
    Safe A (splitLeaf id) t fun s t' => s.Held t' := by
  rw [splitLeaf]
  refine (allocate_safe ht).bind ?_
  rintro right t₁ ht₁ ⟨hsame, hp, hnew⟩
  obtain ⟨a, key, b, hsplit, -⟩ := Leaf.split?_ok hlen right
  have hr₁ : t₁.resident.nodes[id]? = some ⟨p, .leaf l⟩ := hsame ▸ hr
  refine .bind_ok (heldLeaf_ok hr₁) ?_
  rw [hsplit]
  refine .bind_ok (Call.result_orFault_some _ t₁) ?_
  exact putHalves_safe ht₁.intact (Array.getElem?_eq_some_iff.1 hr₁).1 hA (hsame ▸ hnew) hp
    (.leaf a _) (.leaf b _) key

theorem splitBranch_safe (ht : t.Intact) (hA : id ∉ A) {b : Branch Slot}
    (hr : t.resident.nodes[id]? = some ⟨p, .branch b⟩) (hkeys : b.keys ≠ []) :
    Safe A (splitBranch id) t fun s t' => s.Held t' := by
  rw [splitBranch]
  refine (allocate_safe ht).bind ?_
  rintro right t₁ ht₁ ⟨hsame, hp, hnew⟩
  have hr₁ : t₁.resident.nodes[id]? = some ⟨p, .branch b⟩ := hsame ▸ hr
  obtain ⟨l, key, r, hsplit, hl, hr'⟩ := (ht₁.intact.proper id _ hr₁).split hkeys
  refine .bind_ok (heldBranch_ok hr₁) ?_
  rw [hsplit]
  refine .bind_ok (Call.result_orFault_some _ t₁) ?_
  exact putHalves_safe ht₁.intact (Array.getElem?_eq_some_iff.1 hr₁).1 hA (hsame ▸ hnew) hp hl hr' key

theorem insertIntoLeaf_safe (e : Entry) (ht : t.Intact) (hA : id ∉ A) {l : Leaf}
    (hr : t.resident.nodes[id]? = some ⟨p, .leaf l⟩) :
    Safe A (insertIntoLeaf id e) t fun r t' => ∀ s, r = some s → s.Held t' := by
  have hid := (Array.getElem?_eq_some_iff.1 hr).1
  rw [insertIntoLeaf]
  refine .bind_ok (heldLeaf_ok hr) ?_
  refine (put_safe ht (.leaf _ _) fun h => absurd h hA).bind ?_
  rintro _ t₁ ht₁ rfl
  split
  · rename_i hfull
    have hlen : 2 ≤ (l.insert e).entries.length := Nat.le_trans (by decide) (of_decide_eq_true hfull)
    refine (splitLeaf_safe ht₁.intact hA (Arena.getElem?_put_self hr) hlen).bind fun s t₂ ht₂ hs => ?_
    refine .pure ht₂.intact ?_
    rintro _ ⟨⟩
    exact hs
  · refine (write_safe ht₁.intact (Nat.lt_of_lt_of_le hid ht₁.grows)).bind fun _ t₂ ht₂ _ => ?_
    exact .pure ht₂.intact (by simp)

theorem absorb_safe (ht : t.Intact) (hA : id ∉ A) {b : Branch Slot}
    (hr : t.resident.nodes[id]? = some ⟨p, .branch b⟩) {slot : Nat} (hslot : slot ≤ b.keys.length)
    {s : Split} (hs : s.Held t) :
    Safe A (absorb id slot s) t fun r t' => ∀ s, r = some s → s.Held t' := by
  have hid := (Array.getElem?_eq_some_iff.1 hr).1
  obtain ⟨c, hc, hproper⟩ := (ht.proper id _ hr).absorb hs.1 hs.2 hslot s.key
  rw [absorb]
  refine .bind_ok (heldBranch_ok hr) ?_
  rw [hc]
  refine .bind_ok (Call.result_orFault_some c t) ?_
  refine (put_safe ht hproper fun h => absurd h hA).bind ?_
  rintro _ t₁ ht₁ rfl
  split
  · rename_i hfull
    have hkeys : c.keys ≠ [] := by
      rintro he
      simp [Branch.isFull, he, order] at hfull
    refine (splitBranch_safe ht₁.intact hA (Arena.getElem?_put_self hr) hkeys).bind fun s' t₂ ht₂ hs' => ?_
    refine .pure ht₂.intact ?_
    rintro _ ⟨⟩
    exact hs'
  · refine (write_safe ht₁.intact (Nat.lt_of_lt_of_le hid ht₁.grows)).bind fun _ t₂ ht₂ _ => ?_
    exact .pure ht₂.intact (by simp)

/-! ## Going down -/

theorem child_loaded {b : Branch Slot} {slot : Nat} {c : NodeId}
    (hr : t.resident.nodes[id]? = some ⟨p, .branch b⟩) (hc : b.children[slot]? = some (.loaded c)) :
    (child id slot).result t = (.ok c, t) := by
  rw [child, Call.result_bind_ok (held_ok hr)]
  simp only [hc, Call.result_pure]

/-- The slot that a key is routed to leads from one node to the other. -/
def RoutesTo (t : Tree) (key : UInt64) (id c : NodeId) : Prop :=
  ∃ p b, t.resident.nodes[id]? = some ⟨p, .branch b⟩ ∧
    b.children[b.slotOf key]? = some (.loaded c)

theorem RoutesTo.keep {key : UInt64} {c : NodeId} (h : t.RoutesTo key id c) (ht : t.Retains A t')
    (hid : id ∈ A) : t'.RoutesTo key id c := by
  obtain ⟨p, b, hr, hc⟩ := h
  obtain ⟨b', hr', hkeys, -, hloaded⟩ := ht.keeps.branch hid hr
  refine ⟨p, b', hr', ?_⟩
  rw [Branch.slotOf, hkeys]
  exact hloaded _ _ hc

/-- Where the way down leads round in a circle it has no end. -/
theorem insertBelow_endless {e : Entry} (h : ∀ a ∈ A, ∃ c ∈ A, t.RoutesTo e.key a c) (limit : Nat)
    (hid : id ∈ A) : (insertBelow e limit id).result t = (.error .endless, t) := by
  induction limit generalizing id with
  | zero => rfl
  | succ limit ih =>
    obtain ⟨c, hc, p, b, hr, hslot⟩ := h id hid
    rw [insertBelow, Call.result_bind_ok (held_ok hr)]
    dsimp only
    rw [Call.result_bind_ok (child_loaded hr hslot), Call.result_bind_error (ih hc)]

/-- The set is that of the nodes that the call has come down by; each leads to another of them or to
the node that it has come to. -/
theorem insertBelow_safe (e : Entry) (limit : Nat) (ht : t.Intact) (hid : id < t.resident.size)
    (hA : ∀ a ∈ A, ∃ c ∈ A ∪ {id}, t.RoutesTo e.key a c) :
    Safe A (insertBelow e limit id) t fun r t' => ∀ s, r = some s → s.Held t' := by
  induction limit generalizing t id A with
  | zero => exact .of_error (Call.result_throw .endless t) (by simp) ht
  | succ limit ih =>
    by_cases hmem : id ∈ A
    · rw [Set.union_eq_self_of_subset_right (Set.singleton_subset_iff.2 hmem)] at hA
      exact .of_error (insertBelow_endless hA (limit + 1) hmem) (by simp) ht
    obtain ⟨⟨p, n⟩, hr⟩ := Intact.exists_held hid
    rw [insertBelow]
    refine .bind_ok (held_ok hr) ?_
    cases n with
    | leaf l => exact insertIntoLeaf_safe e ht hmem hr
    | branch b =>
      refine (child_safe ht hr (b.slotOf e.key)).bind_of (Set.subset_univ A) ?_
      rintro c t₁ ht₁ ⟨hc, b₁, hr₁, hslot⟩
      obtain ⟨_, hr₁', hkeys, -, -⟩ := ht₁.keeps.branch (Set.mem_univ id) hr
      cases hr₁.symm.trans hr₁'
      have hhere : t₁.RoutesTo e.key id c := by
        refine ⟨p, b₁, hr₁, ?_⟩
        rw [Branch.slotOf, hkeys]
        exact hslot
      have hA₁ : ∀ a ∈ A ∪ {id}, ∃ d ∈ A ∪ {id} ∪ {c}, t₁.RoutesTo e.key a d := by
        rintro a (ha | rfl)
        · obtain ⟨d, hd, hroutes⟩ := hA a ha
          exact ⟨d, .inl hd, hroutes.keep ht₁ (Set.mem_univ a)⟩
        · exact ⟨c, .inr rfl, hhere⟩
      refine (ih ht₁.intact hc hA₁).bind_of Set.subset_union_left fun r t₂ ht₂ hs => ?_
      cases r with
      | none => exact .pure ht₂.intact (by simp)
      | some s =>
        obtain ⟨b₂, hr₂, hkeys₂, -⟩ := ht₂.keeps.branch (.inr rfl) hr₁
        refine absorb_safe ht₂.intact hmem hr₂ ?_ (hs s rfl)
        rw [hkeys₂, hkeys]
        exact b.slotOf_le e.key

/-! ## The root -/

theorem raiseRoot_safe (ht : t.Intact) {s : Split} (hs : s.Held t) :
    Safe ∅ (raiseRoot s) t fun _ _ => True := by
  obtain ⟨r, hr⟩ := Intact.exists_held hs.1
  have hleft := Arena.pageOf?_of_getElem? hr
  rw [raiseRoot]
  refine .bind_ok (held_ok hr) ?_
  refine (allocate_safe ht).bind ?_
  rintro moved t₁ ht₁ ⟨hsame, hp, hnew⟩
  refine (writeTo_safe ht₁.intact (hsame ▸ hs.1) moved).bind ?_
  rintro _ _ ht₂ ⟨s₂, rfl⟩
  obtain ⟨a, hrebind, hmoved, ha⟩ := Arena.rebind?_ok ht.indexed hleft hnew
  have hrun : (rebind s.left moved).result { t₁ with store := s₂ } =
      (.ok (), { t₁ with store := s₂, resident := a }) := by
    simp only [rebind, Call.result_bind, Call.result_get, hsame, hrebind, Call.result_orFault_some,
      Call.result_set]
  have hrebound : Safe ∅ (rebind s.left moved) { t₁ with store := s₂ } fun _ t' =>
      t' = { t₁ with store := s₂, resident := a } :=
    .of_ok hrun (ht₂.intact.move (hsame.symm ▸ hmoved) ha (Nat.lt_of_lt_of_le hp ht₂.counts)) rfl
  refine hrebound.bind ?_
  rintro _ _ ht₃ rfl
  have hfree : ∀ j, a.pageOf? j ≠ some r.page := by
    intro j hj
    by_cases hjleft : j = s.left
    · subst hjleft
      rw [hmoved.pageOf?_same hleft] at hj
      exact hnew s.left (hleft.trans hj.symm)
    · rw [hmoved.pageOf?_other hjleft] at hj
      exact hjleft (ht.indexed.inj hj hleft)
  have hsize := hmoved.size
  have hpage : r.page.toNat < s₂.pageCount :=
    Nat.lt_of_lt_of_le (ht.allocated s.left r hr) (ht₁.counts.trans ht₂.counts)
  refine (keep_safe (r := ⟨r.page, .branch ⟨[s.key], [.loaded s.left, .loaded s.right]⟩⟩)
    ht₃.intact hfree hpage ?_).bind ?_
  · refine .branch rfl fun c hc => ?_
    simp only [List.mem_cons, Slot.loaded.injEq, List.not_mem_nil, or_false] at hc
    rcases hc with rfl | rfl
    · exact hsize ▸ hs.1
    · exact hsize ▸ hs.2
  rintro id t₄ ht₄ ⟨hid, -⟩
  refine (write_safe ht₄.intact hid).bind ?_
  rintro _ _ ht₅ ⟨s₅, rfl⟩
  exact .of_ok (Call.result_modify _ _) (ht₅.intact.crown hid) trivial

theorem insert_safe (key : UInt64) (value : ByteArray) (ht : t.Intact) :
    Safe ∅ (insert key value) t fun _ _ => True := by
  rw [insert]
  split
  · exact .of_error (Call.result_bind_error (Call.result_fail _ t) _) (by simp) ht
  refine .bind_ok (Call.result_get t) ?_
  refine (insertBelow_safe _ _ ht ht.rooted (by simp)).bind fun r t₁ ht₁ hs => ?_
  cases r with
  | none => exact .pure ht₁.intact trivial
  | some s => exact raiseRoot_safe ht₁.intact (hs s rfl)

end Tree

end PagedTree
