import PagedTree.Proofs.SafeInserting
import PagedTree.Proofs.Search
import PagedTree.Tree.Erase
import Mathlib.Tactic.Choose

/-! # Erasing from any file

An erasure tries one path after the other. What it has found nothing below stays as it is, so if the call
comes back to a node that it is below of, it takes the same way from there as before and has no end.
Otherwise that node is as it was when the call went down from it, and the slot it went down by is there.
-/
namespace PagedTree

namespace NodeOf.Proper

variable {b : Branch Slot} {size slot : Nat}

theorem unlink (h : Proper (.branch b) size) (hkeys : b.keys ≠ []) (hslot : slot < b.children.length) :
    ∃ c, b.unlink? slot = some c ∧ Proper (.branch c) size := by
  obtain ⟨hshaped, hslots⟩ := h b rfl
  obtain ⟨c, hc, hcshaped⟩ := hshaped.unlink? hkeys hslot
  refine ⟨c, hc, branch hcshaped fun d hd => hslots d ?_⟩
  simp only [Branch.unlink?, Option.ite_none_right_eq_some, Option.some.injEq] at hc
  obtain ⟨-, rfl⟩ := hc
  exact List.mem_of_mem_eraseIdx hd

theorem replace (h : Proper (.branch b) size) (hslot : slot < b.children.length) {s : Slot}
    (hs : ∀ c, s = .loaded c → c < size) :
    ∃ c, b.replace? slot s = some c ∧ Proper (.branch c) size := by
  obtain ⟨hshaped, hslots⟩ := h b rfl
  obtain ⟨c, hc, hcshaped⟩ := hshaped.replace? hslot s
  refine ⟨c, hc, branch hcshaped fun d hd => ?_⟩
  rw [Branch.replace?, if_pos hslot] at hc
  cases hc
  rcases List.mem_or_eq_of_mem_set hd with hd | he
  · exact hslots d hd
  · exact hs d he.symm

end NodeOf.Proper

namespace Call

variable {σ β : Type} {f : β → Call σ Bool} {x : β} {xs pre post : List β} {s : σ}

/-- The call finds nothing, or has no end, and changes nothing. -/
def Misses (c : Call σ Bool) (s : σ) : Prop :=
  c.result s = (.ok false, s) ∨ c.result s = (.error .endless, s)

theorem anyM_misses (h : ∀ x ∈ xs, (f x).Misses s) : (xs.anyM f).Misses s := by
  induction xs with
  | nil => exact .inl rfl
  | cons x xs ih =>
    rw [List.anyM]
    rcases h x List.mem_cons_self with hx | hx
    · rw [Misses, result_bind_ok hx]
      exact ih fun y hy => h y (List.mem_cons_of_mem _ hy)
    · exact .inr (result_bind_error hx _)

theorem anyM_endless (hpre : ∀ x ∈ pre, (f x).Misses s)
    (hx : (f x).result s = (.error .endless, s)) :
    ((pre ++ x :: post).anyM f).result s = (.error .endless, s) := by
  induction pre with
  | nil => exact result_bind_error hx _
  | cons y pre ih =>
    rw [List.cons_append, List.anyM]
    rcases hpre y List.mem_cons_self with hy | hy
    · rw [result_bind_ok hy]
      exact ih fun z hz => hpre z (List.mem_cons_of_mem _ hz)
    · exact result_bind_error hy _

end Call

namespace Tree

variable {A : Set NodeId} {t t' : Tree} {id c : NodeId} {p : PageNo} {b : Branch Slot} {key : UInt64}

/-! ## Where there is nothing to erase -/

/-- Below the node no leaf holds the key, and every slot that may lead to it has been gone down. -/
inductive Barren (key : UInt64) (t : Tree) : NodeId → Prop where
  | leaf {id : NodeId} {p : PageNo} {l : Leaf} : t.resident.nodes[id]? = some ⟨p, .leaf l⟩ →
      l.entries.any (·.key == key) = false → Barren key t id
  | branch {id : NodeId} {p : PageNo} {b : Branch Slot} (child : Nat → NodeId) :
      t.resident.nodes[id]? = some ⟨p, .branch b⟩ →
      (∀ slot ∈ b.slotsFor key, b.children[slot]? = some (.loaded (child slot))) →
      (∀ slot ∈ b.slotsFor key, Barren key t (child slot)) → Barren key t id

theorem Barren.keep (h : Barren key t id) (ht : t.Retains Set.univ t') : Barren key t' id := by
  induction h with
  | @leaf id p l hr hany => exact .leaf (ht.keeps.leaf (Set.mem_univ id) hr) hany
  | @branch id p b child hr hslots _ ih =>
    obtain ⟨b', hr', hkeys, -, hloaded⟩ := ht.keeps.branch (Set.mem_univ id) hr
    have hsame : b'.slotsFor key = b.slotsFor key := by
      rw [Branch.slotsFor, Branch.slotOf, hkeys]
      rfl
    exact .branch child hr' (fun s hs => hloaded _ _ (hslots s (hsame ▸ hs)))
      fun s hs => ih s (hsame ▸ hs)

theorem Barren.misses (h : Barren key t id) (limit : Nat) : (eraseBelow key limit id).Misses t := by
  induction h generalizing limit with
  | leaf hr hany =>
    cases limit with
    | zero => exact .inr rfl
    | succ limit =>
      rw [Call.Misses, eraseBelow, Call.result_bind_ok (held_ok hr)]
      simp [hany]
  | branch child hr hslots _ ih =>
    cases limit with
    | zero => exact .inr rfl
    | succ limit =>
      rw [Call.Misses, eraseBelow, Call.result_bind_ok (held_ok hr)]
      refine Call.anyM_misses fun slot hslot => ?_
      rw [Call.Misses, Call.result_bind_ok (child_loaded hr (hslots slot hslot))]
      rcases ih slot hslot limit with hrun | hrun
      · rw [Call.result_bind_ok hrun]
        exact .inl rfl
      · exact .inr (Call.result_bind_error hrun _)

/-! ## Going round in a circle -/

/-- The first slot that may lead to the key, but for some that have been gone down in vain, leads from
one node to the other. -/
def LeadsTo (t : Tree) (key : UInt64) (id c : NodeId) : Prop :=
  ∃ p b pre slot post, t.resident.nodes[id]? = some ⟨p, .branch b⟩ ∧
    b.slotsFor key = pre ++ slot :: post ∧ b.children[slot]? = some (.loaded c) ∧
    ∀ s ∈ pre, ∃ d, b.children[s]? = some (.loaded d) ∧ Barren key t d

theorem LeadsTo.keep (h : t.LeadsTo key id c) (ht : t.Retains Set.univ t') : t'.LeadsTo key id c := by
  obtain ⟨p, b, pre, slot, post, hr, hslots, hc, hpre⟩ := h
  obtain ⟨b', hr', hkeys, -, hloaded⟩ := ht.keeps.branch (Set.mem_univ id) hr
  refine ⟨p, b', pre, slot, post, hr', ?_, hloaded _ _ hc, fun s hs => ?_⟩
  · rw [← hslots, Branch.slotsFor, Branch.slotOf, hkeys]
    rfl
  · obtain ⟨d, hd, hbarren⟩ := hpre s hs
    exact ⟨d, hloaded _ _ hd, hbarren.keep ht⟩

theorem eraseBelow_endless (h : ∀ a ∈ A, ∃ c ∈ A, t.LeadsTo key a c) (limit : Nat) (hid : id ∈ A) :
    (eraseBelow key limit id).result t = (.error .endless, t) := by
  induction limit generalizing id with
  | zero => rfl
  | succ limit ih =>
    obtain ⟨c, hc, p, b, pre, slot, post, hr, hslots, hslot, hpre⟩ := h id hid
    rw [eraseBelow, Call.result_bind_ok (held_ok hr)]
    dsimp only
    rw [hslots]
    refine Call.anyM_endless (fun s hs => ?_) ?_
    · obtain ⟨d, hd, hbarren⟩ := hpre s hs
      rw [Call.Misses, Call.result_bind_ok (child_loaded hr hd)]
      rcases hbarren.misses limit with hrun | hrun
      · rw [Call.result_bind_ok hrun]
        exact .inl rfl
      · exact .inr (Call.result_bind_error hrun _)
    · rw [Call.result_bind_ok (child_loaded hr hslot), Call.result_bind_error (ih hc)]

/-! ## Tidying up -/

theorem updateBranch_safe (ht : t.Intact) (hA : id ∉ A)
    (hr : t.resident.nodes[id]? = some ⟨p, .branch b⟩) {f : Branch Slot → Option (Branch Slot)}
    (hf : ∃ c, f b = some c ∧ NodeOf.Proper (.branch c) t.resident.size) :
    Safe A (updateBranch id f) t fun _ _ => True := by
  obtain ⟨c, hc, hproper⟩ := hf
  rw [updateBranch]
  refine .bind_ok (held_ok hr) ?_
  simp only [hc]
  refine .bind_ok (Call.result_orFault_some c t) ?_
  exact update_safe ht (Array.getElem?_eq_some_iff.1 hr).1 hproper hA

theorem tidy_safe (ht : t.Intact) (hA : id ∉ A) (hr : t.resident.nodes[id]? = some ⟨p, .branch b⟩)
    {slot : Nat} (hslot : slot < b.children.length) (hc : c < t.resident.size) :
    Safe A (tidy id slot c) t fun _ _ => True := by
  have hproper := ht.proper id _ hr
  obtain ⟨⟨q, n⟩, hrc⟩ := Intact.exists_held hc
  rw [tidy]
  refine .bind_ok (held_ok hrc) ?_
  cases n with
  | leaf l =>
    dsimp only
    split
    · refine .bind_ok (held_ok hr) ?_
      dsimp only
      split
      · rename_i hkeys
        exact updateBranch_safe ht hA hr (hproper.unlink (by simpa using hkeys) hslot)
      · exact .pure ht trivial
    · exact .pure ht trivial
  | branch d =>
    dsimp only
    split
    · obtain ⟨hshaped, hslots⟩ := ht.proper c _ hrc d rfl
      cases hd : d.children with
      | nil => simp [Branch.Shaped, hd] at hshaped
      | cons s rest =>
        refine .bind_ok (Call.result_orFault_some s t) ?_
        refine updateBranch_safe ht hA hr (hproper.replace hslot ?_)
        rintro c' rfl
        exact hslots c' (hd ▸ List.mem_cons_self)
    · exact .pure ht trivial

/-! ## The whole erasure -/

/-- Some slots of a branch have been gone down in vain. -/
def Tried (t : Tree) (key : UInt64) (id : NodeId) (slots : List Nat) (u : Tree) : Prop :=
  t.Retains Set.univ u ∧ ∀ p b, u.resident.nodes[id]? = some ⟨p, .branch b⟩ → ∀ s ∈ slots,
    ∃ d, b.children[s]? = some (.loaded d) ∧ Barren key u d

theorem Tried.barren {u : Tree} (h : t.Tried key id (b.slotsFor key) u)
    (hr : t.resident.nodes[id]? = some ⟨p, .branch b⟩) : Barren key u id := by
  obtain ⟨b', hr', hkeys, -⟩ := h.1.keeps.branch (Set.mem_univ id) hr
  have hsame : b'.slotsFor key = b.slotsFor key := by
    rw [Branch.slotsFor, Branch.slotOf, hkeys]
    rfl
  have hslots := h.2 p b' hr'
  rw [← hsame] at hslots
  choose! child hchild using hslots
  exact .branch child hr' (fun s hs => (hchild s hs).1) fun s hs => (hchild s hs).2

/-- How an erasure below a node ends well: either the nodes in the set are kept, or there was nothing
to erase. -/
def Passed (A : Set NodeId) (key : UInt64) (id : NodeId) (t : Tree) (erased : Bool) (t' : Tree) : Prop :=
  if erased then t.Retains A t' else t.Retains Set.univ t' ∧ Barren key t' id

/-- One slot of a branch is gone down, and the branch is tidied up if something was erased there. -/
theorem eraseAt_ends {f : NodeId → Call Tree Bool} {pre post : List Nat} {slot : Nat} {u : Tree}
    (ht : t.Intact) (hr : t.resident.nodes[id]? = some ⟨p, .branch b⟩) (hmem : id ∉ A)
    (hA : ∀ a ∈ A, ∃ c ∈ A ∪ {id}, t.LeadsTo key a c) (hslots : b.slotsFor key = pre ++ slot :: post)
    (hf : ∀ u c, u.Intact → c < u.resident.size →
      (∀ a ∈ A ∪ {id}, ∃ d ∈ A ∪ {id} ∪ {c}, u.LeadsTo key a d) →
      (f c).Ends u (Passed (A ∪ {id}) key c u) fun i u' => i ≠ .fault ∧ u'.Intact)
    (hu : t.Tried key id pre u) :
    Call.Ends (do
        let c ← child id slot
        let erased ← f c
        if erased then tidy id slot c
        return erased) u
      (fun r u' => if r then t.Retains A u' else t.Tried key id (pre ++ [slot]) u')
      fun i u' => i ≠ .fault ∧ u'.Intact := by
  obtain ⟨hu, hpre⟩ := hu
  obtain ⟨b₀, hr₀, hkeys₀, hlen₀, -⟩ := hu.keeps.branch (Set.mem_univ id) hr
  refine Call.Ends.bind (child_safe hu.intact hr₀ slot) ?_
  rintro c u₁ ⟨hu₁, hc, b₁, hr₁, hslot⟩
  obtain ⟨_, hr₁', hkeys₁, hlen₁, hloaded₁⟩ := hu₁.keeps.branch (Set.mem_univ id) hr₀
  cases hr₁.symm.trans hr₁'
  have hpre₁ : ∀ s ∈ pre, ∃ d, b₁.children[s]? = some (.loaded d) ∧ Barren key u₁ d := by
    intro s hs
    obtain ⟨d, hd, hbarren⟩ := hpre p b₀ hr₀ s hs
    exact ⟨d, hloaded₁ _ _ hd, hbarren.keep hu₁⟩
  have hhere : u₁.LeadsTo key id c := by
    refine ⟨p, b₁, pre, slot, post, hr₁, ?_, hslot, hpre₁⟩
    rw [← hslots, Branch.slotsFor, Branch.slotOf, hkeys₁, hkeys₀]
    rfl
  have hA₁ : ∀ a ∈ A ∪ {id}, ∃ d ∈ A ∪ {id} ∪ {c}, u₁.LeadsTo key a d := by
    rintro a (ha | rfl)
    · obtain ⟨d, hd, hleads⟩ := hA a ha
      exact ⟨d, .inl hd, hleads.keep (hu.trans hu₁)⟩
    · exact ⟨c, .inr rfl, hhere⟩
  refine Call.Ends.bind (hf u₁ c hu₁.intact hc hA₁) fun r u₂ hu₂ => ?_
  have hfar : t.Retains A u₁ := (hu.trans hu₁).mono (Set.subset_univ A)
  cases r with
  | true =>
    obtain ⟨b₂, hr₂, -, hlen₂, -⟩ := hu₂.keeps.branch (.inr rfl) hr₁
    have hlt : slot < b₂.children.length := by
      have hmemslot : slot ∈ b.slotsFor key := hslots ▸ List.mem_append_right _ List.mem_cons_self
      have hle := Branch.le_of_mem_slotsFor hmemslot
      have hlen := (ht.proper id _ hr b rfl).1
      unfold Branch.Shaped at hlen
      omega
    have hc₂ : c < u₂.resident.size := Nat.lt_of_lt_of_le hc hu₂.grows
    refine Call.Ends.bind (tidy_safe hu₂.intact hmem hr₂ hlt hc₂) fun _ u₃ hu₃ => ?_
    exact .pure ((hfar.trans (hu₂.mono Set.subset_union_left)).trans hu₃.1)
  | false =>
    obtain ⟨hu₂, hbarren⟩ := hu₂
    refine .pure ⟨(hu.trans hu₁).trans hu₂, fun q b₂ hr₂ s hs => ?_⟩
    obtain ⟨_, hr₂', -, -, hloaded₂⟩ := hu₂.keeps.branch (Set.mem_univ id) hr₁
    cases hr₂.symm.trans hr₂'
    rcases List.mem_append.1 hs with hs | hs
    · obtain ⟨d, hd, hbarren'⟩ := hpre₁ s hs
      exact ⟨d, hloaded₂ _ _ hd, hbarren'.keep hu₂⟩
    · obtain rfl := List.mem_singleton.1 hs
      exact ⟨c, hloaded₂ _ _ hslot, hbarren⟩

/-- The set is that of the nodes that the call has come down by; each leads to another of them or to
the node that it has come to. -/
theorem eraseBelow_ends (limit : Nat) (ht : t.Intact) (hid : id < t.resident.size)
    (hA : ∀ a ∈ A, ∃ c ∈ A ∪ {id}, t.LeadsTo key a c) :
    (eraseBelow key limit id).Ends t (Passed A key id t) fun i t' => i ≠ .fault ∧ t'.Intact := by
  induction limit generalizing t id A with
  | zero => exact .of_error (Call.result_throw .endless t) ⟨by simp, ht⟩
  | succ limit ih =>
    by_cases hmem : id ∈ A
    · rw [Set.union_eq_self_of_subset_right (Set.singleton_subset_iff.2 hmem)] at hA
      exact .of_error (eraseBelow_endless hA (limit + 1) hmem) ⟨by simp, ht⟩
    obtain ⟨⟨p, n⟩, hr⟩ := Intact.exists_held hid
    rw [eraseBelow]
    refine .bind_ok (held_ok hr) ?_
    cases n with
    | leaf l =>
      dsimp only
      split
      · exact Call.Ends.bind (update_safe ht hid (.leaf _ _) hmem) fun _ t₁ ht₁ => .pure ht₁.1
      · rename_i hany
        exact .pure ⟨.refl ht _, .leaf hr (by simpa using hany)⟩
    | branch b =>
      refine (Call.Ends.anyM (t.Tried key id) (t.Retains A) ⟨.refl ht _, by simp⟩ ?_).mono ?_
        fun _ _ h => h
      · intro pre slot post hslots u hu
        exact eraseAt_ends ht hr hmem hA hslots (fun _ _ hv hc hA' => ih hv hc hA') hu
      · rintro (_ | _) u hu
        · exact ⟨hu.1, hu.barren hr⟩
        · exact hu

theorem erase_safe (key : UInt64) (ht : t.Intact) : Safe ∅ (erase key) t fun _ _ => True := by
  refine .bind_ok (Call.result_get t) ?_
  refine (eraseBelow_ends (A := ∅) _ ht ht.rooted (by simp)).mono ?_ fun _ _ h => h
  rintro (_ | _) t' h
  · exact ⟨h.1.mono (Set.empty_subset _), trivial⟩
  · exact ⟨h, trivial⟩

end Tree

end PagedTree
