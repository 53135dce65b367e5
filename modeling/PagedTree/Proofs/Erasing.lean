import PagedTree.Proofs.Answers
import PagedTree.Proofs.Branches
import PagedTree.Proofs.Tidying
import PagedTree.Tree.Erase

/-! # What an erasure does to a handle and its file

An erasure either finds no entry with the key, and then has only read, or runs through the steps of
an erasure of the tree, each of which is one write, and leaves a coherent handle.
-/
namespace PagedTree.Tree

variable {t t' : Tree} {id cid : NodeId} {p : PageNo} {s s' : Shape} {key : UInt64}
  {ws : List (PageNo × Node)}

theorem Holds.erased (h : t.Holds id s) (ht : t.Coherent) (hd : s.pages.Nodup)
    (he : Erasure key s ws s') (hadv : t.Advanced [] ws t') : t'.Holds id s' := by
  refine ⟨?_, ?_, he.small h.small, fun hmem => h.free ?_⟩
  · rw [he.page]
    exact hadv.pages _ _ h.here
  · exact (he.on h.on hd).mono fun q _ n hn => hadv.wrote.view ht.sound q n hn
  · rw [hadv.root ht] at hmem
    have hsub := he.pages
    rw [s'.pages_eq, s.pages_eq, he.page, List.cons_sublist_cons] at hsub
    exact hsub.subset hmem

theorem updateBranch_ok {keys keys' : List UInt64} {kids' : List Shape}
    {slots slots' : List Slot} {f : Branch Slot → Option (Branch Slot)} (ht : t.Coherent)
    (hid : t.resident.nodes[id]? = some ⟨p, .branch ⟨keys, slots⟩⟩)
    (hf : f ⟨keys, slots⟩ = some ⟨keys', slots'⟩)
    (hslots : slots'.map t.resident.slotPage? = kids'.map (some ∘ Shape.page))
    (hfree : .loaded t.rootId ∉ slots') (hsmall : (Shape.branch p keys' kids').Small) :
    ∃ t', (updateBranch id f).result t = (.ok (), t') ∧
      t.Advanced [] [(p, .branch ⟨keys', kids'.map Shape.page⟩)] t' := by
  obtain ⟨t', hrun, hadv⟩ := update_ok ht (Arena.pageOf?_of_getElem? hid) (onPage?_kids hslots)
    hsmall.fitsPage (rootFree_branch hfree)
  refine ⟨t', ?_, hadv⟩
  rw [updateBranch, Call.result_bind_ok (held_ok hid)]
  simp only [hf, Call.result_bind_ok (Call.result_orFault_some _ t), hrun]

section
variable {ks ls : List UInt64} {cs ds : List Shape}

theorem unlink_ok {q : PageNo} {l : Leaf} (ht : t.Coherent)
    (h : t.Holds id (.branch p (ks ++ ls) (cs ++ .leaf q l :: ds))) (hcs : cs.length = ks.length)
    (hl : l.entries = []) (hkeys : ks ++ ls ≠ []) : ∃ ws s' t',
      Tidied p cs ks ls ds (.leaf q l) ws s' ∧
      (updateBranch id (·.unlink? ks.length)).result t = (.ok (), t') ∧ t.Advanced [] ws t' := by
  obtain ⟨slots, hr, hslots, hfree⟩ := h.branch ht
  obtain ⟨ss, x, ts, rfl, hss, hssmap, -, htsmap⟩ := slots_cut hslots
  have hrow : (ss ++ ts).map t.resident.slotPage? = (cs ++ ds).map (some ∘ Shape.page) := by
    rw [List.map_append, hssmap, htsmap, List.map_append]
  have hfree' : .loaded t.rootId ∉ ss ++ ts :=
    fun hmem => hfree (((List.sublist_cons_self x ts).append_left ss).subset hmem)
  rw [← hcs, ← hss]
  cases ls with
  | cons k ls =>
    have hstep : ErasureStep none (.branch p (ks ++ k :: ls) (cs ++ .leaf q l :: ds)) _ _ :=
      .unlink hcs hl
    obtain ⟨t', hrun, hadv⟩ := updateBranch_ok (f := (·.unlink? ss.length)) ht hr
      (Branch.unlink?_cut (hss.trans hcs)) hrow hfree' (hstep.small h.small)
    exact ⟨_, _, t', .unlink hl, hrun, hadv⟩
  | nil =>
    -- the last child goes with the separator on its left
    obtain ⟨ks, k, rfl⟩ := (List.eq_nil_or_concat ks).resolve_left (by simpa using hkeys)
    have hlen := (Shape.small_branch.1 h.small).1.1
    simp only [List.concat_eq_append, List.append_nil, List.length_append, List.length_cons,
      List.length_nil] at *
    obtain rfl : ds = [] := List.length_eq_zero_iff.1 (by omega)
    obtain rfl : ts = [] := by simpa using htsmap
    have hstep : ErasureStep none (.branch p (ks ++ [k]) (cs ++ [.leaf q l])) _ _ :=
      .unlinkLast (by simpa using hcs) hl
    rw [List.append_nil] at hfree' hrow
    rw [List.append_nil] at hrow
    obtain ⟨t', hrun, hadv⟩ := updateBranch_ok (f := (·.unlink? ss.length)) ht hr
      (Branch.unlink?_last (by simpa [hss] using hcs)) hrow hfree' (hstep.small h.small)
    exact ⟨_, _, t', .unlinkLast hl, hrun, hadv⟩

theorem collapse_ok {q : PageNo} {d : Shape} {only : Slot} (ht : t.Coherent)
    (h : t.Holds id (.branch p (ks ++ ls) (cs ++ .branch q [] [d] :: ds)))
    (hcs : cs.length = ks.length) (honly : t.resident.slotPage? only = some d.page)
    (hfree : only ≠ .loaded t.rootId) : ∃ ws s' t',
      Tidied p cs ks ls ds (.branch q [] [d]) ws s' ∧
      (updateBranch id (·.replace? ks.length only)).result t = (.ok (), t') ∧
      t.Advanced [] ws t' := by
  obtain ⟨slots, hr, hslots, hfree'⟩ := h.branch ht
  obtain ⟨ss, x, ts, rfl, hss, hssmap, -, htsmap⟩ := slots_cut hslots
  have hrow : (ss ++ only :: ts).map t.resident.slotPage? =
      (cs ++ d :: ds).map (some ∘ Shape.page) := by
    simp [hssmap, htsmap, honly]
  have hfree'' : .loaded t.rootId ∉ ss ++ only :: ts := by
    simp only [List.mem_append, List.mem_cons, not_or] at hfree' ⊢
    exact ⟨hfree'.1, Ne.symm hfree, hfree'.2.2⟩
  have hstep : ErasureStep none (.branch p (ks ++ ls) (cs ++ .branch q [] [d] :: ds)) _ _ :=
    .collapse hcs
  rw [← hcs, ← hss]
  obtain ⟨t', hrun, hadv⟩ := updateBranch_ok (f := (·.replace? ss.length only)) ht hr
    (Branch.replace?_cut (ks ++ ls)) hrow hfree'' (hstep.small h.small)
  exact ⟨_, _, t', .collapse, hrun, hadv⟩

theorem tidy_ok {c : Shape} (ht : t.Coherent)
    (h : t.Holds id (.branch p (ks ++ ls) (cs ++ c :: ds))) (hcs : cs.length = ks.length)
    (hcid : t.resident.pageOf? cid = some c.page) : ∃ ws s' t', Tidied p cs ks ls ds c ws s' ∧
      (tidy id ks.length cid).result t = (.ok (), t') ∧ t.Advanced [] ws t' := by
  obtain ⟨slots, hr, hslots, hfree⟩ := h.branch ht
  have hchild := h.below (by simp) hcid
  rw [tidy]
  cases c with
  | leaf q l =>
    rw [Call.result_bind_ok (held_ok (hchild.leaf ht))]
    simp only
    by_cases hl : l.entries.isEmpty = true
    · rw [if_pos hl, Call.result_bind_ok (held_ok hr)]
      rw [List.isEmpty_iff] at hl
      by_cases hkeys : ks ++ ls = []
      · obtain ⟨rfl, rfl⟩ := List.append_eq_nil_iff.1 hkeys
        exact ⟨_, _, t, .only hl, rfl, .refl ht⟩
      · obtain ⟨ws, s', t', htidied, hrun, hadv⟩ := unlink_ok ht h hcs hl hkeys
        refine ⟨ws, s', t', htidied, ?_, hadv⟩
        simp only [List.isEmpty_eq_false_iff.2 hkeys]
        exact hrun
    · rw [if_neg hl]
      rw [List.isEmpty_iff] at hl
      exact ⟨_, _, t, .kept hl, rfl, .refl ht⟩
  | branch q keys kids =>
    obtain ⟨cslots, hcr, hcslots, hcfree⟩ := hchild.branch ht
    rw [Call.result_bind_ok (held_ok hcr)]
    simp only
    by_cases hkeys : keys.isEmpty = true
    · rw [if_pos hkeys]
      rw [List.isEmpty_iff] at hkeys
      subst hkeys
      obtain ⟨d, rfl⟩ : ∃ d, kids = [d] :=
        List.length_eq_one_iff.1 (Shape.small_branch.1 hchild.small).1.1
      obtain ⟨only, rfl, honly⟩ := List.map_eq_singleton_iff.1 hcslots
      obtain ⟨ws, s', t', htidied, hrun, hadv⟩ := collapse_ok ht h hcs honly
        fun he => hcfree (by simp [he])
      exact ⟨ws, s', t', htidied, hrun, hadv⟩
    · rw [if_neg hkeys]
      rw [List.isEmpty_iff] at hkeys
      exact ⟨_, _, t, .kept hkeys, rfl, .refl ht⟩

end

/-- A search that stops at the first success: up to there it has only read. -/
theorem anyM_ok {α : Type} {f : α → Call Tree Bool} {absent : α → Prop} {found : α → Tree → Prop}
    {xs : List α} (ht : t.Coherent) (hf : ∀ x ∈ xs, ∀ t₁, t.Advanced [] [] t₁ →
      (∃ t₂, (f x).result t₁ = (.ok false, t₂) ∧ t₁.Advanced [] [] t₂ ∧ absent x) ∨
      ∃ t₂, (f x).result t₁ = (.ok true, t₂) ∧ found x t₂) :
    (∃ t', (xs.anyM f).result t = (.ok false, t') ∧ t.Advanced [] [] t' ∧ ∀ x ∈ xs, absent x) ∨
      ∃ t', (xs.anyM f).result t = (.ok true, t') ∧
        ∃ pre x post, xs = pre ++ x :: post ∧ (∀ y ∈ pre, absent y) ∧ found x t' := by
  induction xs generalizing t with
  | nil => exact .inl ⟨t, rfl, .refl ht, by simp⟩
  | cons x xs ih =>
    rw [List.anyM]
    rcases hf x List.mem_cons_self t (.refl ht) with ⟨t₁, hx, hadv, habsent⟩ | ⟨t₁, hx, hfound⟩
    · rw [Call.result_bind_ok hx]
      rcases ih hadv.coherent fun y hy t₂ h => hf y (List.mem_cons_of_mem _ hy) t₂ (hadv.trans h) with
        ⟨t₂, hrest, hadv', hall⟩ | ⟨t₂, hrest, pre, y, post, rfl, hall, hfound⟩
      · exact .inl ⟨t₂, hrest, hadv.trans hadv', List.forall_mem_cons.2 ⟨habsent, hall⟩⟩
      · exact .inr ⟨t₂, hrest, x :: pre, y, post, rfl, List.forall_mem_cons.2 ⟨habsent, hall⟩, hfound⟩
    · rw [Call.result_bind_ok hx]
      exact .inr ⟨t₁, rfl, [], x, xs, rfl, by simp, hfound⟩

theorem eraseBelow_ok {limit : Nat} (hlim : s.parts.length ≤ limit) (hd : s.pages.Nodup)
    (ht : t.Coherent) (h : t.Holds id s) :
    (∃ t', (eraseBelow key limit id).result t = (.ok false, t') ∧ t.Advanced [] [] t' ∧
      s.find? key = none) ∨
    ∃ t', (eraseBelow key limit id).result t = (.ok true, t') ∧
      ∃ v ws s', Erased key v s ws s' ∧ t.Advanced [] ws t' := by
  induction s using Shape.induct generalizing limit t id with
  | leaf p l =>
    obtain ⟨limit, rfl⟩ := Shape.exists_limit hlim
    rw [eraseBelow, Call.result_bind_ok (held_ok (h.leaf ht)), Shape.find?_leaf]
    simp only [Leaf.any_key]
    cases hfind : l.get? key with
    | none => exact .inl ⟨t, rfl, .refl ht, rfl⟩
    | some v =>
      have hstep : ErasureStep (some key) (.leaf p l) _ _ := .take hfind
      obtain ⟨t', hrun, hadv⟩ := update_ok ht h.here Arena.onPage?_leaf
        (hstep.small h.small).fitsPage (rootFree_leaf (l.erase key))
      refine .inr ⟨t', ?_, v, _, _, .leaf hfind, hadv⟩
      simp only [Option.isSome_some, if_true, Call.result_bind_ok hrun, Call.result_pure]
  | branch p keys kids ih =>
    obtain ⟨limit, rfl⟩ := Shape.exists_limit hlim
    obtain ⟨⟨hlen, -⟩, -⟩ := Shape.small_branch.1 h.small
    obtain ⟨slots, hr, -, -⟩ := h.branch ht
    rw [eraseBelow, Call.result_bind_ok (held_ok hr), Shape.find?_branch, List.findSome?_eq_none_iff]
    refine (@anyM_ok t Nat _ _ (fun i t' => ∃ v ws s', (Shape.StopsAt key keys kids i →
      Erased key v (.branch p keys kids) ws s') ∧ t.Advanced [] ws t') _ ht ?_).imp_right ?_
    · intro i hi t₁ hadv₁
      have hle : i ≤ keys.length := Branch.le_of_mem_slotsFor hi
      obtain ⟨ks, ls, rfl, rfl⟩ : ∃ ks ls, keys = ks ++ ls ∧ ks.length = i :=
        ⟨_, _, (List.take_append_drop i keys).symm, List.length_take_of_le hle⟩
      have hlt : ks.length < kids.length := by omega
      obtain ⟨cs, c, ds, rfl, hcs⟩ := exists_cut hlt
      have hslot : (cs ++ c :: ds)[ks.length]? = some c := by simp [← hcs]
      have hhold₁ := h.advance ht hadv₁
      obtain ⟨cid, t₂, hchild, hadv₂, hhold₂⟩ := hhold₁.child hadv₁.coherent hslot
      have hlim' : c.parts.length ≤ limit := Shape.length_parts_kid hlim (by simp)
      obtain ⟨-, hdc, -⟩ := Shape.distinct_kids hd
      rw [Call.result_bind_ok hchild]
      rcases ih c (by simp) hlim' hdc hadv₂.coherent hhold₂ with
        ⟨t₃, hbelow, hadv₃, hnone⟩ | ⟨t₃, hbelow, v, ws, c', herased, hadv₃⟩
      · refine .inl ⟨t₃, ?_, hadv₂.trans hadv₃, by rw [hslot]; exact hnone⟩
        rw [Call.result_bind_ok hbelow]
        rfl
      · have hinside : Erasure key (.branch p (ks ++ ls) (cs ++ c :: ds)) ws
            (.branch p (ks ++ ls) (cs ++ c' :: ds)) := herased.erasure.inside hcs
        have hadv := hadv₂.trans hadv₃
        have hhold₃ := hhold₁.erased hadv₁.coherent hd hinside hadv
        have hcid : t₃.resident.pageOf? cid = some c'.page := by
          rw [herased.erasure.page]
          exact hadv₃.pages _ _ hhold₂.here
        obtain ⟨vs, s', t₄, htidied, htidy, hadv₄⟩ := tidy_ok hadv₃.coherent hhold₃ hcs hcid
        refine .inr ⟨t₄, ?_, v, ws ++ vs, s', fun hstop => .branch hcs hstop herased htidied,
          hadv₁.trans (hadv.trans hadv₄)⟩
        rw [Call.result_bind_ok hbelow]
        simp only [if_true, Call.result_bind_ok htidy, Call.result_pure]
    · rintro ⟨t', hrun, before, i, behind, hslots, habsent, v, ws, s', herased, hadv⟩
      exact ⟨t', hrun, v, ws, s', herased ⟨before, behind, hslots, habsent⟩, hadv⟩

/-- An erasure finds an entry if a lookup does, and takes that one out. -/
theorem Represents.erased_ok (h : t.Represents s) (key : UInt64) :
    (∃ t', (erase key).result t = (.ok false, t') ∧ t.Advanced [] [] t' ∧ s.find? key = none) ∨
    ∃ t', (erase key).result t = (.ok true, t') ∧ ∃ v ws s', Erased key v s ws s' ∧
      t.store.Wrote [] ws t'.store ∧ t'.Represents s' := by
  rw [erase, Call.result_bind_ok (Call.result_get t)]
  rcases eraseBelow_ok h.length_parts_le h.stands.distinct h.coherent h.holds with
    hnone | ⟨t', hrun, v, ws, s', herased, hadv⟩
  · exact .inl hnone
  · have hsteps := herased.erasure
    refine .inr ⟨t', hrun, v, ws, s', herased, hadv.wrote, hadv.coherent, ?_, ?_,
      hadv.synced h.synced⟩
    · rw [hsteps.page, hadv.root h.coherent, h.page]
    · exact (hsteps.stands h.stands).mono (hadv.wrote.view h.coherent.sound)

/-- An erasure finds an entry if the tree has one with the key. -/
theorem Represents.erase_ok (h : t.Represents s) (key : UInt64) :
    (∃ t', (erase key).result t = (.ok false, t') ∧ t.Advanced [] [] t' ∧ s.find? key = none) ∨
    ∃ t', (erase key).result t = (.ok true, t') ∧ ∃ ws s', Erasure key s ws s' ∧
      t.store.Wrote [] ws t'.store ∧ t'.Represents s' :=
  (h.erased_ok key).imp_right fun ⟨t', hrun, _, ws, s', herased, hwrote, hrep⟩ =>
    ⟨t', hrun, ws, s', herased.erasure, hwrote, hrep⟩

end PagedTree.Tree
