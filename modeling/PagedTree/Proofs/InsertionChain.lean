import PagedTree.Proofs.Insertion

/-! # The chain of leaves during an insertion

The writes of an insertion begin with those of the leaf that takes the entry in. Once they are done
the links show the new entries, and every later write keeps the first child of the branch it
changes, so a scan sees the entries of before or those of afterwards wherever the writes end.
-/
namespace PagedTree

/-- A write onto a page that has been asked for, or onto a branch that keeps its first child. -/
def KeepsWay (P : Pages) (fs : List PageNo) (w : PageNo × Node) : Prop :=
  w.1 ∈ fs ∨ ∃ b, P w.1 = some (.branch b) ∧ NodeOf.SameWay (.branch b) w.2

theorem sameWay_of_keepsWay {P Q : Pages} {fs : List PageNo} {ws : List (PageNo × Node)}
    (hQ : ∀ q b, P q = some (.branch b) → Q q = some (.branch b)) (hfs : ∀ f ∈ fs, Q f = none)
    (h : ∀ w ∈ ws, KeepsWay P fs w) : Q.SameWay (Q.write ws) := by
  apply Pages.sameWay_write
  intro w hw n hn
  rcases h w hw with hf | ⟨b, hb, hsame⟩
  · simp [hfs _ hf] at hn
  · rw [hQ _ _ hb] at hn
    cases hn
    exact hsame

/-- An insertion that comes to the leaf `l` on page `p`, between the leaves `as` and `bs`. -/
inductive Reaches (P : Pages) (e : Entry) (p : PageNo) (l : Leaf) (as bs : List (PageNo × Leaf)) :
    List PageNo → Growth → List (PageNo × Node) → Prop where
  | nothing {kept held : Shape} : Reaches P e p l as bs [] (.stopped kept held) []
  | leaf {fs gs : List PageNo} {g g' : Growth} {ws vs : List (PageNo × Node)} :
      LeafInserted e p l fs g ws → (∀ v ∈ vs, KeepsWay P gs v) →
      (g'.Going → g'.trees.flatMap Shape.leaves = as ++ (g.trees.flatMap Shape.leaves ++ bs)) →
      Reaches P e p l as bs (fs ++ gs) g' (ws ++ vs)

section
variable {e : Entry} {p : PageNo} {ks ls : List UInt64} {cs ds : List Shape} {c : Shape}
  {fs gs : List PageNo} {g g' : Growth} {ws vs : List (PageNo × Node)} {P : Pages}

theorem Absorbed.leaves (h : Absorbed p ks ls cs ds g gs g' vs) (hg : g'.Going) :
    g'.trees.flatMap Shape.leaves = (cs ++ (g.trees ++ ds)).flatMap Shape.leaves := by
  cases h with
  | whole c => simp [Growth.trees]
  | fits => simp [Growth.trees]
  | splits _ htrees => simp [Growth.trees, ← List.flatMap_append, htrees]
  | full => simp at hg
  | stopped => simp at hg

theorem Absorbed.keepsWay (h : Absorbed p ks ls cs ds g gs g' vs)
    (hp : P p = some (.branch ⟨ks ++ ls, (cs ++ c :: ds).map Shape.page⟩))
    (hc : ∀ t ∈ g.trees.head?, t.page = c.page) : ∀ v ∈ vs, KeepsWay P gs v := by
  have hhead : ∀ (a : Shape) (ts : List Shape), a.page = c.page →
      ((cs ++ a :: ts).map Shape.page).head? = ((cs ++ c :: ds).map Shape.page).head? := by
    intro a ts ha
    cases cs <;> simp [ha]
  cases h with
  | whole => simp
  | @fits a b key =>
    intro v hv
    rw [List.mem_singleton.1 hv]
    exact .inr ⟨_, hp, (hhead a (b :: ds) (hc a rfl)).symm⟩
  | @splits a b q key mid lks rks lcs rcs _ htrees hlen =>
    intro v hv
    rcases List.mem_cons.1 hv with rfl | hv
    · exact .inl List.mem_cons_self
    · rw [List.mem_singleton.1 hv]
      refine .inr ⟨_, hp, ?_⟩
      have hfirst := hhead a (b :: ds) (hc a rfl)
      rw [← htrees] at hfirst
      cases lcs with
      | nil => simp at hlen
      | cons d lcs => exact hfirst.symm
  | full => simp
  | stopped => simp

theorem LeafInserted.entries {l : Leaf} (h : LeafInserted e p l fs g ws) :
    (g.trees.flatMap Shape.leaves).flatMap (·.2.entries) = (l.insert e).entries := by
  cases h with
  | fits => simp [Growth.trees]
  | splits _ hsplit => simp [Growth.trees, (Leaf.entries_split? hsplit).1]

end

theorem Inserted.reaches {e : Entry} {s : Shape} {fs : List PageNo} {g : Growth}
    {ws : List (PageNo × Node)} (h : Inserted e s fs g ws) {P : Pages} (hs : s.On P) :
    ∃ as p l bs, s.leaves = as ++ (p, l) :: bs ∧ s.entriesWith e =
        as.flatMap (·.2.entries) ++ ((l.insert e).entries ++ bs.flatMap (·.2.entries)) ∧
      Reaches P e p l as bs fs g ws := by
  induction h with
  | @leaf p l fs g ws h =>
    have hreach : Reaches P e p l [] [] (fs ++ []) g (ws ++ []) := .leaf h (by simp) (by simp)
    exact ⟨[], p, l, [], by simp, by simp, by simpa using hreach⟩
  | @full p l => exact ⟨[], p, l, [], by simp, by simp, .nothing⟩
  | @branch p ks ls cs ds c fs gs g g' ws vs hlen hroute hchild habs ih =>
    obtain ⟨htop, hkids⟩ := Shape.on_branch.1 hs
    obtain ⟨as, q, l, bs, hleaves, hentries, hreach⟩ := ih (hkids c (by simp))
    have hassoc : ∀ xs : List Shape, (xs.flatMap Shape.leaves).flatMap (·.2.entries) =
        xs.flatMap Shape.entries := fun xs => List.flatMap_assoc
    refine ⟨cs.flatMap Shape.leaves ++ as, q, l, bs ++ ds.flatMap Shape.leaves, ?_, ?_, ?_⟩
    · simp [hleaves]
    · rw [Shape.entriesWith_branch hlen hroute, hentries]
      simp [hassoc]
    · cases hreach with
      | nothing =>
        cases habs
        exact .nothing
      | @leaf fs₀ gs₀ g₀ _ ws₀ vs₀ hleaf hkeeps hrow =>
        rw [List.append_assoc, List.append_assoc]
        refine .leaf hleaf ?_ ?_
        · intro v hv
          rcases List.mem_append.1 hv with hv | hv
          · exact (hkeeps v hv).imp_left (List.mem_append_left _)
          · exact (habs.keepsWay htop hchild.page v hv).imp_left (List.mem_append_right _)
        · intro hg
          rw [habs.leaves hg]
          simp [hrow (habs.going hg)]

namespace LeafInserted

variable {e : Entry} {p : PageNo} {l : Leaf} {fs : List PageNo} {g : Growth}
  {ws : List (PageNo × Node)} {P : Pages}

theorem write_other (h : LeafInserted e p l fs g ws) (hfs : ∀ f ∈ fs, P f = none) {q : PageNo}
    {m : Node} (hq : q ≠ p) (hm : P q = some m) : P.write ws q = some m := by
  rw [Pages.write_other, hm]
  rintro w hw rfl
  rcases List.mem_cons.1 (h.written w hw) with he | hf
  · exact hq he
  · simp [hfs _ hf] at hm

theorem write_branch (h : LeafInserted e p l fs g ws) (hfs : ∀ f ∈ fs, P f = none)
    (hp : P p = some (.leaf l)) (q : PageNo) (b : Branch PageNo) (hb : P q = some (.branch b)) :
    P.write ws q = some (.branch b) := by
  refine h.write_other hfs ?_ hb
  rintro rfl
  simp [hp] at hb

theorem write_fresh (h : LeafInserted e p l fs g ws) (hp : P p = some (.leaf l))
    {gs : List PageNo} (hfs : ∀ f ∈ fs ++ gs, P f = none) (hd : (fs ++ gs).Nodup) :
    ∀ f ∈ gs, P.write ws f = none := by
  intro f hf
  rw [Pages.write_other, hfs f (List.mem_append_right _ hf)]
  rintro w hw rfl
  rcases List.mem_cons.1 (h.written w hw) with he | hmem
  · rw [← he, hfs _ (List.mem_append_right _ hf)] at hp
    cases hp
  · exact (List.nodup_append.1 hd).2.2 _ hmem _ hf rfl

theorem head (h : LeafInserted e p l fs g ws) (as bs : List (PageNo × Leaf)) :
    (as ++ (g.trees.flatMap Shape.leaves ++ bs)).head?.map Prod.fst =
      (as ++ (p, l) :: bs).head?.map Prod.fst := by
  cases as with
  | nil => cases h <;> simp [Growth.trees]
  | cons => rfl

/-- The links run through what takes the place of the leaf and on to where it led. -/
theorem linked (h : LeafInserted e p l fs g ws) (hp : P p = some (.leaf l))
    (hfs : ∀ f ∈ fs, P f = none) :
    Linked (P.write ws) (some p) (g.trees.flatMap Shape.leaves) l.next := by
  cases h with
  | fits => simp [Growth.trees, Linked]
  | @splits q a b key _ hsplit =>
    obtain ⟨-, hnext, hnext', -⟩ := Leaf.entries_split? hsplit
    have hq : q ≠ p := by
      rintro rfl
      simp [hfs q List.mem_cons_self] at hp
    simp [Growth.trees, Linked, hnext, hnext', Pages.set_other _ hq]

/-- Writing the leaf, or its halves, puts the links through what takes its place. -/
theorem chained (h : LeafInserted e p l fs g ws) {as bs : List (PageNo × Leaf)}
    (hchain : Chained P (as ++ (p, l) :: bs)) (hp : P p = some (.leaf l))
    (hfs : ∀ f ∈ fs, P f = none) :
    Chained (P.write ws) (as ++ (g.trees.flatMap Shape.leaves ++ bs)) := by
  obtain ⟨chain, hpadded, hlinks⟩ := hchain
  obtain ⟨cs, ds, rfl, hcs, hds⟩ := hpadded.cut
  refine ⟨cs ++ (g.trees.flatMap Shape.leaves ++ ds), hcs.append ((Padded.refl _).append hds), ?_⟩
  rw [h.head]
  exact hlinks.replace (fun q m hq hm => h.write_other hfs hq hm) (h.linked hp hfs)

theorem leftmost (h : LeafInserted e p l fs g ws) (hp : P p = some (.leaf l))
    (hfs : ∀ f ∈ fs, P f = none) {d : Nat} {root f : PageNo} (hdown : Leftmost P d root f) :
    Leftmost (P.write ws) d root f := by
  obtain ⟨m, hm⟩ := hdown.end_leaf
  obtain ⟨k, hk⟩ : ∃ k, P.write ws f = some (.leaf k) := by
    by_cases hf : f = p
    · subst hf
      cases h with
      | fits => exact ⟨_, Pages.set_same ..⟩
      | splits => exact ⟨_, Pages.set_same ..⟩
    · exact ⟨m, h.write_other hfs hf hm⟩
  exact hdown.change_leaf (h.write_branch hfs hp) hk

/-- Until the last write of a leaf nothing has changed on a page that was there. -/
theorem sameWay_of_cut (h : LeafInserted e p l fs g ws) (hfs : ∀ f ∈ fs, P f = none)
    {pre post : List (PageNo × Node)} {w : PageNo × Node} (hcut : ws = pre ++ w :: post) :
    P.SameWay (P.write pre) := by
  apply Pages.sameWay_write
  intro v hv n hn
  cases h with
  | fits => cases pre <;> simp_all
  | splits =>
    match pre, hcut with
    | [], _ => simp at hv
    | [u], hcut =>
      simp only [List.singleton_append, List.cons.injEq] at hcut
      rw [List.mem_singleton.1 hv, ← hcut.1, hfs _ List.mem_cons_self] at hn
      cases hn
    | _ :: _ :: _, hcut => simp at hcut

end LeafInserted

section
variable {e : Entry} {s : Shape} {p : PageNo} {l : Leaf} {as bs : List (PageNo × Leaf)}
  {fs gs : List PageNo} {g : Growth} {ws : List (PageNo × Node)} {P : Pages}

theorem Reaches.chained (h : Reaches P e p l as bs fs g ws) (hg : g.Going)
    (hchain : Chained P (as ++ (p, l) :: bs)) (hp : P p = some (.leaf l))
    (hfs : ∀ f ∈ fs, P f = none) (hd : fs.Nodup) :
    Chained (P.write ws) (g.trees.flatMap Shape.leaves) := by
  cases h with
  | nothing => simp at hg
  | @leaf fs gs g₀ g ws vs hleaf hkeeps hrow =>
    rw [hrow hg, Pages.write_append]
    have hfs' : ∀ f ∈ fs, P f = none := fun f hf => hfs f (List.mem_append_left _ hf)
    have hway := sameWay_of_keepsWay (hleaf.write_branch hfs' hp) (hleaf.write_fresh hp hfs hd)
      hkeeps
    exact (hleaf.chained hchain hp hfs').mono fun _ _ => hway.leaf

/-- Once the leaf, or its halves, has been written a scan shows the new entry, whatever branches are
written then. -/
theorem LeafInserted.scans (h : LeafInserted e p l fs g ws) (hs : s.Stands P)
    (hleaves : s.leaves = as ++ (p, l) :: bs) (hfs : ∀ f ∈ fs ++ gs, P f = none)
    (hd : (fs ++ gs).Nodup) {vs : List (PageNo × Node)} (hvs : ∀ v ∈ vs, KeepsWay P gs v) :
    Scans (P.write (ws ++ vs)) s.page
      (as.flatMap (·.2.entries) ++ ((l.insert e).entries ++ bs.flatMap (·.2.entries))) := by
  have hp : P p = some (.leaf l) := hs.on.leaf (x := (p, l)) (by simp [hleaves])
  have hfs' : ∀ f ∈ fs, P f = none := fun f hf => hfs f (List.mem_append_left _ hf)
  obtain ⟨d, x, ls, hls, hdown⟩ := hs.ordered.leftmost hs.on
  have hscans := (h.chained (hleaves ▸ hs.chained) hp hfs').scans (h.leftmost hp hfs' hdown)
    (by rw [h.head, ← hleaves, hls]; rfl)
  rw [List.flatMap_append, List.flatMap_append, h.entries] at hscans
  rw [Pages.write_append]
  exact hscans.sameWay
    (sameWay_of_keepsWay (h.write_branch hfs' hp) (h.write_fresh hp hfs hd) hvs)

/-- An insertion that has written something has written the leaf. -/
theorem Reaches.scans_all (h : Reaches P e p l as bs fs g ws) (hs : s.Stands P)
    (hleaves : s.leaves = as ++ (p, l) :: bs) (hfs : ∀ f ∈ fs, P f = none) (hd : fs.Nodup)
    (hws : ws ≠ []) : Scans (P.write ws) s.page
      (as.flatMap (·.2.entries) ++ ((l.insert e).entries ++ bs.flatMap (·.2.entries))) := by
  cases h with
  | nothing => exact absurd rfl hws
  | leaf hleaf hkeeps => exact hleaf.scans hs hleaves hfs hd hkeeps

/-- Wherever the writes end, a scan shows the entries as they were or with the new one. -/
theorem Reaches.scans (h : Reaches P e p l as bs fs g ws) (hs : s.Stands P)
    (hleaves : s.leaves = as ++ (p, l) :: bs) (hfs : ∀ f ∈ fs, P f = none) (hd : fs.Nodup)
    {pre post : List (PageNo × Node)} (hcut : ws = pre ++ post) :
    Scans (P.write pre) s.page s.entries ∨ Scans (P.write pre) s.page
      (as.flatMap (·.2.entries) ++ ((l.insert e).entries ++ bs.flatMap (·.2.entries))) := by
  cases h with
  | nothing =>
    obtain ⟨rfl, rfl⟩ := List.append_eq_nil_iff.1 hcut.symm
    exact .inl hs.scans
  | @leaf fs gs g₀ g ws vs hleaf hkeeps hrow =>
    have hfs' : ∀ f ∈ fs, P f = none := fun f hf => hfs f (List.mem_append_left _ hf)
    rcases List.append_eq_append_iff.1 hcut with ⟨vs', rfl, rfl⟩ | ⟨ws', hws, rfl⟩
    · exact .inr (hleaf.scans hs hleaves hfs hd fun v hv => hkeeps v (List.mem_append_left _ hv))
    · cases ws' with
      | nil =>
        rw [List.append_nil] at hws
        rw [← hws, ← List.append_nil ws]
        exact .inr (hleaf.scans hs hleaves hfs hd (by simp))
      | cons w ws' => exact .inl (hs.scans.sameWay (hleaf.sameWay_of_cut hfs' hws))

end

end PagedTree
