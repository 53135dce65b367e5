import PagedTree.Proofs.Erasing
import PagedTree.Proofs.Frames
import PagedTree.Proofs.Raising

/-! # The way of a cursor

A cursor may rest on a leaf that the tree has dropped, and its leaf may be split or moved. Yet the
links from it always lead through leaves to an end: a change puts a link onto a fresh page at most,
and the only page that a leaf leaves for a branch is the root page, to which no link leads.
-/
namespace PagedTree

namespace Linked

variable {P : Pages} {start stop : Option PageNo} {p : PageNo} {xs : List (PageNo × Leaf)}
  {x : PageNo × Leaf}

/-- Where the links go on behind one of the leaves. -/
theorem after (h : Linked P start xs none) (hx : x ∈ xs) :
    ∃ ys, Linked P x.2.next ys none ∧ ys.length < xs.length := by
  obtain ⟨as, bs, rfl⟩ := List.append_of_mem hx
  obtain ⟨mid, -, hfrom⟩ := append.1 h
  refine ⟨bs, hfrom.2.2, ?_⟩
  rw [List.length_append, List.length_cons]
  omega

theorem leaf_of_next (h : Linked P start xs none) (hx : x ∈ xs) (hnext : x.2.next = some p) :
    ∃ l, P p = some (.leaf l) := by
  obtain ⟨ys, hys, -⟩ := h.after hx
  rw [hnext] at hys
  cases ys with
  | nil => cases hys
  | cons y ys =>
    obtain rfl : p = y.1 := Option.some.inj hys.1
    exact ⟨y.2, hys.2.1⟩

/-- No leaf leads back to where the links start. -/
theorem next_ne_start (h : Linked P (some p) xs none) : ∀ x ∈ xs, x.2.next ≠ some p := by
  intro x hx hnext
  obtain ⟨ys, hys, hlt⟩ := h.after hx
  rw [hnext] at hys
  rw [hys.unique h] at hlt
  exact Nat.lt_irrefl _ hlt

/-- Every leaf is where the links start or where another leaf leads. -/
theorem start_or_next (h : Linked P start xs stop) (hx : x ∈ xs) :
    start = some x.1 ∨ ∃ y ∈ xs, y.2.next = some x.1 := by
  induction xs generalizing start with
  | nil => simp at hx
  | cons y ys ih =>
    rcases List.mem_cons.1 hx with rfl | hx
    · exact .inl h.1
    · rcases ih h.2.2 hx with hnext | ⟨z, hz, hnext⟩
      · exact .inr ⟨y, List.mem_cons_self, hnext⟩
      · exact .inr ⟨z, List.mem_cons_of_mem _ hz, hnext⟩

end Linked

/-! ## What a change does to the links -/

/-- Links that come to an end on the first pages do so on the second, and lead nowhere that they did
not lead before but to the pages in the list. -/
def Pages.KeepsLinks (P : Pages) (fs : List PageNo) (Q : Pages) : Prop :=
  ∀ start xs, Linked P start xs none → ∃ ys, Linked Q start ys none ∧
    ∀ y ∈ ys, (∃ x ∈ xs, y.2.next = x.2.next) ∨ ∃ f ∈ fs, y.2.next = some f

namespace Pages.KeepsLinks

variable {P Q R : Pages} {fs gs : List PageNo} {p : PageNo} {l : Leaf}

/-- Every leaf stays. -/
theorem of_leaves (h : ∀ p l, P p = some (.leaf l) → Q p = some (.leaf l)) : P.KeepsLinks [] Q :=
  fun _ xs hxs => ⟨xs, hxs.mono fun x _ => h x.1 x.2, fun y hy => .inl ⟨y, hy, rfl⟩⟩

theorem trans (h : P.KeepsLinks fs Q) (h' : Q.KeepsLinks gs R) : P.KeepsLinks (fs ++ gs) R := by
  intro start xs hxs
  obtain ⟨ys, hys, hfrom⟩ := h start xs hxs
  obtain ⟨zs, hzs, hfrom'⟩ := h' start ys hys
  refine ⟨zs, hzs, fun z hz => ?_⟩
  rcases hfrom' z hz with ⟨y, hy, hnext⟩ | ⟨f, hf, hnext⟩
  · rw [hnext]
    exact (hfrom y hy).imp_right fun ⟨f, hf, he⟩ => ⟨f, List.mem_append_left _ hf, he⟩
  · exact .inr ⟨f, List.mem_append_right _ hf, hnext⟩

theorem mono (h : P.KeepsLinks fs Q) (hfs : fs ⊆ gs) : P.KeepsLinks gs Q := by
  intro start xs hxs
  obtain ⟨ys, hys, hfrom⟩ := h start xs hxs
  exact ⟨ys, hys, fun y hy => (hfrom y hy).imp_right fun ⟨f, hf, he⟩ => ⟨f, hfs hf, he⟩⟩

theorem within (h : P.KeepsLinks fs Q) (hQR : Q.Within R) : P.KeepsLinks fs R := by
  have hboth := h.trans (.of_leaves fun p l hl => hQR p _ hl)
  rwa [List.append_nil] at hboth

/-- A leaf gives way to others, which lead on to where it led. -/
theorem detour {new : List (PageNo × Leaf)} (hp : P p = some (.leaf l))
    (hPQ : ∀ q m, q ≠ p → P q = some m → Q q = some m) (hnew : Linked Q (some p) new l.next)
    (hnext : ∀ y ∈ new, y.2.next = l.next ∨ ∃ f ∈ fs, y.2.next = some f) : P.KeepsLinks fs Q := by
  intro start xs hxs
  by_cases hmem : (p, l) ∈ xs
  · obtain ⟨as, bs, rfl⟩ := List.append_of_mem hmem
    refine ⟨as ++ (new ++ bs), hxs.replace hPQ hnew, fun y hy => ?_⟩
    rcases List.mem_append.1 hy with hy | hy
    · exact .inl ⟨y, List.mem_append_left _ hy, rfl⟩
    rcases List.mem_append.1 hy with hy | hy
    · exact (hnext y hy).imp_left fun he => ⟨(p, l), hmem, he⟩
    · exact .inl ⟨y, List.mem_append_right _ (List.mem_cons_of_mem _ hy), rfl⟩
  · refine ⟨xs, hxs.mono fun x hx hl => hPQ x.1 _ ?_ hl, fun y hy => .inl ⟨y, hy, rfl⟩⟩
    rintro rfl
    obtain rfl : l = x.2 := by simpa using hp.symm.trans hl
    exact hmem hx

end Pages.KeepsLinks

section
variable {P : Pages} {e : Entry} {p : PageNo} {l : Leaf} {as bs : List (PageNo × Leaf)}
  {s s' : Shape} {fs : List PageNo} {g : Growth} {ws : List (PageNo × Node)}

theorem LeafInserted.keepsLinks (h : LeafInserted e p l fs g ws) (hp : P p = some (.leaf l))
    (hfs : ∀ f ∈ fs, P f = none) : P.KeepsLinks fs (P.write ws) := by
  refine .detour hp (fun q m hq hm => h.write_other hfs hq hm) (h.linked hp hfs) ?_
  cases h with
  | fits => simp [Growth.trees, Leaf.insert]
  | splits _ hsplit =>
    obtain ⟨-, hnext, hnext', -⟩ := Leaf.entries_split? hsplit
    simp [Growth.trees, hnext, hnext', Leaf.insert]

theorem Reaches.keepsLinks (h : Reaches P e p l as bs fs g ws) (hp : P p = some (.leaf l))
    (hfs : ∀ f ∈ fs, P f = none) (hd : fs.Nodup) : P.KeepsLinks fs (P.write ws) := by
  cases h with
  | nothing => exact .of_leaves fun _ _ hl => hl
  | @leaf fs gs g₀ _ ws vs hleaf hkeeps _ =>
    have hfs' : ∀ f ∈ fs, P f = none := fun f hf => hfs f (List.mem_append_left _ hf)
    have hway := sameWay_of_keepsWay (hleaf.write_branch hfs' hp) (hleaf.write_fresh hp hfs hd)
      hkeeps
    rw [Pages.write_append]
    exact ((hleaf.keepsLinks hp hfs').trans (.of_leaves fun _ _ => hway.leaf)).mono (by simp)

theorem Inserted.keepsLinks (h : Inserted e s fs g ws) (hs : s.On P) (hfs : ∀ f ∈ fs, P f = none)
    (hd : fs.Nodup) : P.KeepsLinks fs (P.write ws) := by
  obtain ⟨as, p, l, bs, hleaves, -, hreach⟩ := h.reaches hs
  have hp : P p = some (.leaf l) := hs.leaf (x := (p, l)) (by simp [hleaves])
  exact hreach.keepsLinks hp hfs hd

theorem ErasureStep.keepsLinks {key : Option UInt64} {w : PageNo × Node}
    (h : ErasureStep key s w s') (hs : s.On P) : P.KeepsLinks [] (P.set w.1 w.2) := by
  cases key with
  | some key =>
    obtain ⟨as, p, l, v, bs, hleaves, -, -, rfl⟩ := h.taken
    have hp : P p = some (.leaf l) := hs.leaf (x := (p, l)) (by simp [hleaves])
    have hnew : Linked (P.set p (.leaf (l.erase key))) (some p) [(p, l.erase key)] l.next :=
      ⟨rfl, Pages.set_same .., Leaf.next_erase l key⟩
    refine .detour hp (fun q m hq hm => by rw [Pages.set_other _ hq, hm]) hnew fun y hy => ?_
    rw [List.mem_singleton.1 hy]
    exact .inl (Leaf.next_erase l key)
  | none =>
    obtain ⟨⟨b, hb⟩, -⟩ := h.tidied hs
    refine .of_leaves fun q l hl => ?_
    rw [Pages.set_other, hl]
    rintro rfl
    simp [hb] at hl

theorem Erasure.keepsLinks {key : UInt64} (h : Erasure key s ws s') (hs : s.Stands P) :
    P.KeepsLinks [] (P.write ws) := by
  induction h with
  | take hstep => exact hstep.keepsLinks hs.on
  | tidy h hstep ih =>
    rw [Pages.write_append]
    exact ih.trans (hstep.keepsLinks (h.stands hs).on)

end

/-! ## The cursor of a handle -/

namespace Tree

variable {t t' : Tree} {s : Shape} {fs : List PageNo} {ws : List (PageNo × Node)}

/-- The cursor is used up or rests on a leaf from which the links come to an end and do not lead to the
root page. -/
def Threaded (t : Tree) : Prop :=
  ∃ chain i, t.RestsOn chain i ∧ ∀ x ∈ chain, x.2.next ≠ some t.root

theorem Threaded.of_none (h : t.cursor = none) : t.Threaded := ⟨[], 0, ⟨rfl, h⟩, by simp⟩

theorem Threaded.advance (h : t.Threaded) (ht : t.Coherent) (hadv : t.Advanced fs ws t')
    (hcursor : t'.cursor = t.cursor) (hlinks : t.store.view.KeepsLinks fs t'.store.view) :
    t'.Threaded := by
  obtain ⟨xs, i, ⟨hlinked, hat⟩, hnext⟩ := h
  cases xs with
  | nil => exact .of_none (hcursor.trans hat)
  | cons x xs =>
    obtain ⟨id, hpos, hid⟩ := hat
    obtain ⟨ys, hys, hfrom⟩ := hlinks _ _ hlinked
    obtain ⟨y, ys, rfl⟩ : ∃ y zs, ys = y :: zs := by
      cases ys with
      | nil => cases hys
      | cons y zs => exact ⟨y, zs, rfl⟩
    have hpage : x.1 = y.1 := Option.some.inj hys.1
    refine ⟨y :: ys, i, ⟨?_, id, hcursor.trans hpos, hpage ▸ hadv.pages id _ hid⟩, ?_⟩
    · rw [List.head?_cons, Option.map_some] at hys ⊢
      rwa [← hpage]
    · intro z hz he
      rw [hadv.root ht] at he
      rcases hfrom z hz with ⟨w, hw, hsame⟩ | ⟨f, hf, hfresh⟩
      · exact hnext w hw (hsame.symm.trans he)
      · -- the page of the root was there before
        obtain ⟨n, hn⟩ := ht.exists_view ht.rooted
        have hunseen := hadv.wrote.unseen ht.sound f hf
        rw [Option.some.inj (hfresh.symm.trans he), hn] at hunseen
        cases hunseen

/-- A call that only reads and does not walk along the leaves. -/
theorem Threaded.read (h : t.Threaded) (ht : t.Coherent) (hadv : t.Advanced [] [] t')
    (hcursor : t'.cursor = t.cursor) : t'.Threaded := by
  refine h.advance ht hadv hcursor (.of_leaves fun p l hl => ?_)
  rwa [hadv.store_eq]

/-- A walk goes on along the links that were before the cursor. -/
theorem Threaded.of_suffix {chain chain' : List (PageNo × Leaf)} {i : Nat}
    (hnext : ∀ x ∈ chain, x.2.next ≠ some t.root) (hroot : t'.root = t.root)
    (hrests : t'.RestsOn chain' i) (hsuffix : chain' <:+ chain) : t'.Threaded :=
  ⟨chain', i, hrests, fun x hx => hroot ▸ hnext x (hsuffix.subset hx)⟩

/-! ## Walks -/

theorem Coherent.toNext_ok (ht : t.Coherent) (h : t.Threaded) :
    ∃ t', toNext.result t = (.ok (), t') ∧ t'.Threaded := by
  obtain ⟨chain, i, hrests, hnext⟩ := h
  cases chain with
  | nil => exact ⟨t, toNext_used hrests.cursor, .of_none hrests.cursor⟩
  | cons x xs =>
    obtain ⟨id, hcursor, hid⟩ := hrests.cursor
    obtain ⟨-, hadv⟩ := place_ok ht (some ⟨id, i + 1⟩)
    have hrests' : RestsOn { t with cursor := some ⟨id, i + 1⟩ } (x :: xs) (i + 1) :=
      ⟨hrests.linked, id, rfl, hid⟩
    obtain ⟨t', chain', i', hseek, hadv', hrests'', -, hsuffix, -⟩ :=
      seekEntry_ok hadv.coherent hrests'
    exact ⟨t', (toNext_at hcursor).trans hseek, .of_suffix hnext ((hadv.trans hadv').root ht) hrests'' hsuffix⟩

theorem Represents.toFront_threaded (h : t.Represents s) :
    ∃ t', toFront.result t = (.ok (), t') ∧ t'.Threaded := by
  obtain ⟨d, f, chain, hdown, hlinks, -⟩ := h.stands.scans
  rw [h.page] at hdown
  have hnext : ∀ x ∈ chain, x.2.next ≠ some t.root := by
    cases hdown with
    | leaf => exact hlinks.next_ne_start
    | branch hb =>
      intro x hx he
      obtain ⟨l, hl⟩ := hlinks.leaf_of_next hx he
      simp [hb] at hl
  obtain ⟨t', chain', i, hrun, hadv, hrests, -, hsuffix⟩ := toFront_ok h.coherent hdown hlinks
  exact ⟨t', hrun, .of_suffix hnext (hadv.root h.coherent) hrests hsuffix⟩

theorem scanFrom_cursor {limit : Nat} {es : List Entry}
    (hrun : (scanFrom limit).result t = (.ok es, t')) : t'.cursor = none := by
  induction limit generalizing t es with
  | zero => cases hrun
  | succ limit ih =>
    rw [scanFrom, Call.result_bind_ok (Call.result_get t)] at hrun
    cases hcursor : t.cursor with
    | none =>
      rw [hcursor] at hrun
      cases hrun
      exact hcursor
    | some pos =>
      rw [hcursor] at hrun
      obtain ⟨l, _, -, hrun⟩ := Call.exists_of_bind_ok hrun
      obtain ⟨⟨⟩, _, -, hrun⟩ := Call.exists_of_bind_ok hrun
      obtain ⟨⟨⟩, _, -, hrun⟩ := Call.exists_of_bind_ok hrun
      obtain ⟨rest, _, hrest, hrun⟩ := Call.exists_of_bind_ok hrun
      cases hrun
      exact ih hrest

/-- A scan uses the cursor up. -/
theorem scan_cursor {es : List Entry} (hrun : scan.result t = (.ok es, t')) : t'.cursor = none := by
  obtain ⟨⟨⟩, _, -, hrun⟩ := Call.exists_of_bind_ok hrun
  obtain ⟨_, _, -, hrun⟩ := Call.exists_of_bind_ok hrun
  exact scanFrom_cursor hrun

theorem greatestKey_cursor {key : Option UInt64} (hrun : greatestKey.result t = (.ok key, t')) :
    t'.cursor = t.cursor ∨ t'.cursor = none := by
  obtain ⟨last, u, hlast, hrun⟩ := Call.exists_of_bind_ok hrun
  have hcursor := lastLeaf_leaves t
  rw [hlast] at hcursor
  cases hkey : last.2.keys.getLast? with
  | some key =>
    rw [hkey] at hrun
    cases hrun
    exact .inl hcursor
  | none =>
    rw [hkey] at hrun
    obtain ⟨es, _, hscan, hrun⟩ := Call.exists_of_bind_ok hrun
    cases hrun
    exact .inr (scan_cursor hscan)

/-! ## Changes -/

theorem Represents.erase_threaded (h : t.Represents s) (hthread : t.Threaded) {key : UInt64}
    {erased : Bool} (hrun : (erase key).result t = (.ok erased, t')) : t'.Threaded := by
  have hcursor := erase_leaves key t
  rw [hrun] at hcursor
  rw [erase, Call.result_bind_ok (Call.result_get t)] at hrun
  rcases eraseBelow_ok h.length_parts_le h.stands.distinct h.coherent h.holds with
    ⟨u, hbelow, hadv, -⟩ | ⟨u, hbelow, v, ws, s', herased, hadv⟩
  · cases hrun.symm.trans hbelow
    exact hthread.read h.coherent hadv hcursor
  · cases hrun.symm.trans hbelow
    exact hthread.advance h.coherent hadv hcursor
      ((herased.erasure.keepsLinks h.stands).within (hadv.wrote.view h.coherent.sound))

/-- The root page is written over once its node stands on another page as well. -/
theorem raised_view (ht : t.Coherent) {n m : Node} (hn : t.store.view t.root = some n)
    (hwrote : t.store.Wrote [.ofNat t.store.pageCount] [(.ofNat t.store.pageCount, n), (t.root, m)]
      t'.store) : t'.store.view (.ofNat t.store.pageCount) = some n ∧
        ∀ p k, p ≠ t.root → t.store.view p = some k → t'.store.view p = some k := by
  have hview := hwrote.view ht.sound
  have hunseen : t.store.view (.ofNat t.store.pageCount) = none :=
    hwrote.unseen ht.sound _ (by simp)
  constructor
  · apply hview
    have hne : .ofNat t.store.pageCount ≠ t.root := by
      intro he
      simp [he, hn] at hunseen
    rw [Pages.write_cons, Pages.write_cons, Pages.write_nil, Pages.set_other _ hne, Pages.set_same]
  · intro p k hp hk
    apply hview
    rw [Pages.write_other, hk]
    intro w hw he
    rcases List.mem_cons.1 hw with rfl | hw
    · simp [← he, hunseen] at hk
    · rw [List.mem_singleton.1 hw] at he
      exact hp he.symm

/-- The leaf under the cursor may be the root, which then goes to another page with the cursor. -/
theorem Threaded.raiseRoot (h : t.Threaded) (ht : t.Coherent) {n : Node}
    (hn : t.store.view t.root = some n) (hfit : Node.FitsPage n) {new : NodeId} {q : PageNo}
    (hq : t.resident.pageOf? new = some q) (hnew : new ≠ t.rootId) {key : UInt64}
    (hrun : (raiseRoot ⟨key, t.rootId, new⟩).result t = (.ok (), t')) : t'.Threaded := by
  have hcursor := raiseRoot_leaves ⟨key, t.rootId, new⟩ t
  rw [hrun] at hcursor
  by_cases hroom : t.store.HasRoom
  · obtain ⟨u, hraise, hwrote, -, hroot, -, hmoved, hstay⟩ :=
      raiseRoot_ok ht hn hfit hq hnew hroom key
    cases hrun.symm.trans hraise
    obtain ⟨chain, i, hrests, hnext⟩ := h
    cases chain with
    | nil => exact .of_none (hcursor.trans hrests.cursor)
    | cons x xs =>
      obtain ⟨p, l⟩ := x
      obtain ⟨id, hpos, hid⟩ := hrests.cursor
      obtain ⟨-, hl, hlinks⟩ := hrests.linked
      obtain ⟨hcopied, hkeep⟩ := raised_view ht hn hwrote
      have hrest : Linked t'.store.view l.next xs none := by
        refine hlinks.mono fun y hy hyl => hkeep y.1 _ ?_ hyl
        intro he
        rcases hlinks.start_or_next hy with hfirst | ⟨z, hz, hled⟩
        · exact hnext (p, l) List.mem_cons_self (he ▸ hfirst)
        · exact hnext z (List.mem_cons_of_mem _ hz) (he ▸ hled)
      by_cases hidroot : id = t.rootId
      · subst hidroot
        obtain rfl : p = t.root := Option.some.inj (hid.symm.trans ht.rooted)
        obtain rfl : n = .leaf l := Option.some.inj (hn.symm.trans hl)
        refine ⟨(.ofNat t.store.pageCount, l) :: xs, i,
          ⟨⟨rfl, hcopied, hrest⟩, t.rootId, hcursor.trans hpos, hmoved⟩, fun y hy => ?_⟩
        rw [hroot]
        rcases List.mem_cons.1 hy with rfl | hy
        · exact hnext (t.root, l) List.mem_cons_self
        · exact hnext y (List.mem_cons_of_mem _ hy)
      · have hp : p ≠ t.root := by
          rintro rfl
          exact hidroot (ht.indexed.inj hid ht.rooted)
        exact ⟨(p, l) :: xs, i, ⟨⟨rfl, hkeep p _ hp hl, hrest⟩, id, hcursor.trans hpos,
          hstay id p hidroot hid⟩, fun y hy => hroot ▸ hnext y hy⟩
  · cases hrun.symm.trans (raiseRoot_full ht.rooted hroom key new)

theorem Represents.insert_threaded (h : t.Represents s) (hthread : t.Threaded) {key : UInt64}
    {value : ByteArray} (hrun : (insert key value).result t = (.ok (), t')) : t'.Threaded := by
  by_cases hv : maxValueSize < value.size
  · cases hrun.symm.trans (insert_tooLarge hv key)
  have hsound := h.coherent.sound
  have hcursor := insert_leaves key value t
  rw [hrun] at hcursor
  simp only [insert, if_neg hv, Call.result_bind_ok (Call.result_get t)] at hrun
  obtain ⟨fs, g, ws, hins, hgrew⟩ := insertBelow_ok (e := ⟨key, value⟩) (Nat.not_lt.1 hv)
    h.length_parts_le h.stands.distinct h.coherent h.holds
  have hlinks : ∀ {u : Tree}, t.Advanced fs ws u → t.store.view.KeepsLinks fs u.store.view := by
    intro u hadv
    have hkeeps := hins.keepsLinks h.stands.on (hadv.wrote.unseen hsound) (hadv.wrote.fresh hsound).1
    exact hkeeps.within (hadv.wrote.view hsound)
  cases g with
  | stopped kept held =>
    obtain ⟨u, hbelow, -⟩ := hgrew
    rw [Call.result_bind_error hbelow] at hrun
    cases hrun
  | whole s' =>
    obtain ⟨u, hbelow, hadv⟩ := hgrew
    rw [Call.result_bind_ok hbelow] at hrun
    cases hrun
    exact hthread.advance h.coherent hadv hcursor (hlinks hadv)
  | halves a mid b =>
    obtain ⟨new, u, hbelow, hadv, hnew, hnewroot⟩ := hgrew
    have hcursor' := insertBelow_leaves ⟨key, value⟩ t.walkLimit t.rootId t
    rw [hbelow] at hcursor'
    have hthread' := hthread.advance h.coherent hadv hcursor' (hlinks hadv)
    obtain ⟨hpage, hon, hfit⟩ := h.left_half (Nat.not_lt.1 hv) hins hadv
    rw [Call.result_bind_ok hbelow, ← hadv.rootId] at hrun
    exact hthread'.raiseRoot hadv.coherent (hpage ▸ hon.top) hfit hnew (hadv.rootId ▸ hnewroot) hrun

end Tree

end PagedTree
