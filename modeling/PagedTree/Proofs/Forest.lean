import PagedTree.Proofs.Confinement

/-! # Trees that share a file

Trees stand side by side in a file if no page is reachable from two of their roots. They stay apart,
because the pages that a tree asks for were not handed out before, and a change to one of them leaves
all others standing.
-/
namespace PagedTree

namespace PageStore

/-- Trees that stand on one file, of which no two have a page in common. -/
structure Forest (s : PageStore) (trees : List Shape) : Prop where
  sound : s.header.Sound
  synced : trees ≠ [] → s.Synced
  distinct : (trees.map Shape.page).Nodup
  standing : ∀ c ∈ trees, c.Stands s.view
  apart : ∀ c ∈ trees, ∀ d ∈ trees, c.page ≠ d.page →
    ∀ p, s.view.Reachable c.page p → ¬s.view.Reachable d.page p

variable {s t : PageStore} {root : PageNo} {trees trees' as bs : List Shape} {c c' d : Shape}

/-- A tree that has no page in common with the one that is changed. -/
theorem Tended.keeps (h : s.Tended root t) (hc : c.Stands s.view)
    (hfar : ∀ p, s.view.Reachable c.page p → ¬s.view.Reachable root p) : c.Stands t.view ∧
      ∀ p, s.view.Reachable c.page p ↔ t.view.Reachable c.page p := by
  have hnode : ∀ p, s.view.Reachable c.page p → ∃ n, s.view p = some n :=
    fun p hp => hc.reachable_node hp
  have hsame : ∀ p n, s.view.Reachable c.page p → s.view p = some n → t.view p = some n := by
    intro p n hp hn
    have hlt := lt_of_view hn
    exact view_congr (Nat.lt_of_lt_of_le hlt h.grows) (h.spares p hlt (hfar p hp)) hn
  exact ⟨hc.carry hsame, fun p => ⟨fun hp => hp.carry hsame, fun hp => hp.carry_back hnode hsame⟩⟩

namespace Forest

theorem lt (h : s.Forest trees) (hc : c ∈ trees) {p : PageNo} (hp : s.view.Reachable c.page p) :
    p.toNat < s.pageCount := by
  obtain ⟨n, hn⟩ := (h.standing c hc).reachable_node hp
  exact lt_of_view hn

theorem of_subset (h : s.Forest trees) (hsub : ∀ c ∈ trees', c ∈ trees)
    (hdistinct : (trees'.map Shape.page).Nodup) : s.Forest trees' := by
  refine ⟨h.sound, fun hne => h.synced ?_, hdistinct, fun c hc => h.standing c (hsub c hc),
    fun c hc d hd => h.apart c (hsub c hc) d (hsub d hd)⟩
  obtain ⟨c, hc⟩ := List.exists_mem_of_ne_nil _ hne
  exact List.ne_nil_of_mem (hsub c hc)

/-- In a file with the same nodes and more. -/
theorem mono (h : s.Forest trees) (hsound : t.header.Sound) (hsynced : t.Synced)
    (hview : s.view.Within t.view) : t.Forest trees := by
  have hback : ∀ c ∈ trees, ∀ p, t.view.Reachable c.page p → s.view.Reachable c.page p :=
    fun c hc p hp => hp.carry_back (fun q hq => (h.standing c hc).reachable_node hq)
      fun q n _ => hview q n
  exact ⟨hsound, fun _ => hsynced, h.distinct, fun c hc => (h.standing c hc).mono hview,
    fun c hc d hd hne p hp hp' => h.apart c hc d hd hne p (hback c hc p hp) (hback d hd p hp')⟩

/-- After changes to one tree, which may be new or left out. -/
theorem change (h : s.Forest trees) (htended : s.Tended root t)
    (hfar : ∀ c ∈ trees, c.page ≠ root → ∀ p, s.view.Reachable c.page p → ¬s.view.Reachable root p)
    (hsynced : t.Synced) (htrees : ∀ c ∈ trees', c.page = root ∧ c.Stands t.view ∨
      c ∈ trees ∧ c.page ≠ root) (hdistinct : (trees'.map Shape.page).Nodup) : t.Forest trees' := by
  have hother : ∀ c ∈ trees, c.page ≠ root → ∀ p, t.view.Reachable c.page p →
      s.view.Reachable c.page p ∧ ¬t.view.Reachable root p := by
    intro c hc hne p hp
    have hold := ((htended.keeps (h.standing c hc) (hfar c hc hne)).2 p).2 hp
    refine ⟨hold, fun hp' => ?_⟩
    rcases htended.reaches p hp' with hp' | hnew
    · exact hfar c hc hne p hold hp'
    · exact absurd (h.lt hc hold) (Nat.not_lt.2 hnew)
  refine ⟨htended.sound, fun _ => hsynced, hdistinct, ?_, ?_⟩
  · intro c hc
    rcases htrees c hc with ⟨-, hstands⟩ | ⟨hc, hne⟩
    · exact hstands
    · exact (htended.keeps (h.standing c hc) (hfar c hc hne)).1
  · intro c hc d hd hne p hp hp'
    rcases htrees c hc with ⟨hroot, -⟩ | ⟨hc, hcroot⟩
    · rcases htrees d hd with ⟨hroot', -⟩ | ⟨hd, hdroot⟩
      · exact hne (hroot.trans hroot'.symm)
      · exact (hother d hd hdroot p hp').2 (hroot ▸ hp)
    · have hold := (hother c hc hcroot p hp).1
      rcases htrees d hd with ⟨hroot', -⟩ | ⟨hd, hdroot⟩
      · exact (hother c hc hcroot p hp).2 (hroot' ▸ hp')
      · exact h.apart c hc d hd hne p hold (hother d hd hdroot p hp').1

theorem far (h : s.Forest trees) (hc : c ∈ trees) : ∀ d ∈ trees, d.page ≠ c.page →
    ∀ p, s.view.Reachable d.page p → ¬s.view.Reachable c.page p :=
  fun d hd hne => h.apart d hd c hc hne

/-- A page that has not been handed out belongs to no tree. -/
theorem far_of_new (h : s.Forest trees) (hnew : s.pageCount ≤ root.toNat) :
    ∀ d ∈ trees, d.page ≠ root → ∀ p, s.view.Reachable d.page p → ¬s.view.Reachable root p := by
  intro d hd _ p hp hp'
  have hempty : ∀ n, s.view root = some n → n.links = [] := by simp [view_of_le hnew]
  rw [hp'.eq_root hempty] at hp
  exact absurd (h.lt hd hp) (Nat.not_lt.2 hnew)

theorem page_ne_of_new (h : s.Forest trees) (hnew : s.pageCount ≤ root.toNat) (hd : d ∈ trees) :
    d.page ≠ root := by
  rintro rfl
  exact absurd (h.lt hd .root) (Nat.not_lt.2 hnew)

/-- After changes to one of the trees. -/
theorem replace (h : s.Forest (as ++ c :: bs)) (htended : s.Tended c.page t)
    (hpage : c'.page = c.page) (hstands : c'.Stands t.view) (hsynced : t.Synced) :
    t.Forest (as ++ c' :: bs) := by
  have hpages : (as ++ c' :: bs).map Shape.page = (as ++ c :: bs).map Shape.page := by simp [hpage]
  refine h.change htended (h.far (by simp)) hsynced ?_ (hpages ▸ h.distinct)
  have hdistinct := h.distinct
  rw [List.map_append, List.map_cons, List.perm_middle.nodup_iff, List.nodup_cons,
    ← List.map_append] at hdistinct
  have hother : ∀ d ∈ as ++ bs, d.page ≠ c.page :=
    fun d hd he => hdistinct.1 (List.mem_map.2 ⟨d, hd, he⟩)
  intro d hd
  rcases List.mem_append.1 hd with hd | hd
  · exact .inr ⟨by simp [hd], hother d (by simp [hd])⟩
  rcases List.mem_cons.1 hd with rfl | hd
  · exact .inl ⟨hpage, hstands⟩
  · exact .inr ⟨by simp [hd], hother d (by simp [hd])⟩

/-- With a tree more, on a page that was new. -/
theorem plant (h : s.Forest trees) (htended : s.Tended c.page t) (hnew : s.pageCount ≤ c.page.toNat)
    (hstands : c.Stands t.view) (hsynced : t.Synced) : t.Forest (c :: trees) := by
  refine h.change htended (h.far_of_new hnew) hsynced ?_ ?_
  · intro d hd
    rcases List.mem_cons.1 hd with rfl | hd
    · exact .inl ⟨rfl, hstands⟩
    · exact .inr ⟨hd, h.page_ne_of_new hnew hd⟩
  · refine List.nodup_cons.2 ⟨fun hmem => ?_, h.distinct⟩
    obtain ⟨d, hd, he⟩ := List.mem_map.1 hmem
    exact h.page_ne_of_new hnew hd he

end Forest

end PageStore

/-- A new tree has a page of its own and nothing else. -/
theorem Tree.create_tended {root : PageNo} {store store' : PageStore} (hs : store.header.Sound)
    (hrun : Tree.create.result store = (.ok root, store')) :
    store.Tended root store' ∧ store.pageCount ≤ root.toNat := by
  obtain ⟨hroot, hwrote⟩ := create_wrote hs hrun
  have hnew : store.pageCount ≤ root.toNat := ((hwrote.fresh hs).2 root (by simp)).1
  have hcount := hwrote.pageCount_eq hs
  have hnode : store'.view root = some (.leaf .empty) := by
    apply hwrote.view hs
    simp
  refine ⟨⟨hwrote.sound hs, by omega, ?_, ?_⟩, hnew⟩
  · intro p hp _
    apply hwrote.read
    rintro w hw rfl
    rw [List.mem_singleton.1 hw] at hp
    exact absurd hp (Nat.not_lt.2 hnew)
  · intro p hp
    rw [hp.eq_root fun n hn => by cases hnode.symm.trans hn; rfl]
    exact .inr hnew

end PagedTree
