import PagedTree.Proofs.Handle
import PagedTree.Tree.Cursor
import PagedTree.Tree.Dump

/-! # What reading calls answer

On a coherent handle a call that reads answers from the tree on the file, whatever the handle has
read before, and leaves the file as it is and the handle coherent.
-/
namespace PagedTree.Tree

/-- The handle knows the top of the tree as node `id`, and the root is not below it. -/
structure Holds (t : Tree) (id : NodeId) (s : Shape) : Prop where
  here : t.resident.pageOf? id = some s.page
  on : s.On t.store.view
  small : s.Small
  free : t.root ∉ s.pages.tail

variable {t t' : Tree} {id : NodeId} {s : Shape} {p : PageNo} {keys : List UInt64}
  {kids : List Shape}

theorem Holds.advance (h : t.Holds id s) (ht : t.Coherent) (hadv : t.Advanced [] [] t') :
    t'.Holds id s := by
  refine ⟨hadv.pages _ _ h.here, ?_, h.small, ?_⟩
  · rw [hadv.store_eq]
    exact h.on
  · rw [hadv.root ht]
    exact h.free

theorem Holds.leaf {l : Leaf} (h : t.Holds id (.leaf p l)) (ht : t.Coherent) :
    t.resident.nodes[id]? = some ⟨p, .leaf l⟩ := ht.leaf h.here (Shape.on_leaf.1 h.on)

theorem Holds.branch (h : t.Holds id (.branch p keys kids)) (ht : t.Coherent) :
    ∃ slots, t.resident.nodes[id]? = some ⟨p, .branch ⟨keys, slots⟩⟩ ∧
      slots.map t.resident.slotPage? = kids.map (some ∘ Shape.page) ∧
      .loaded t.rootId ∉ slots := by
  obtain ⟨slots, hr, hslots, hfree⟩ := ht.branch h.here (Shape.on_branch.1 h.on).1
  exact ⟨slots, hr, by simpa using hslots, hfree⟩

theorem Holds.root_notMem (h : t.Holds id (.branch p keys kids)) {c : Shape} (hc : c ∈ kids) :
    t.root ∉ c.pages := by
  have hfree := h.free
  simp only [Shape.pages_branch, List.tail_cons, List.mem_flatMap, not_exists, not_and] at hfree
  exact hfree c hc

theorem Holds.below (h : t.Holds id (.branch p keys kids)) {c : Shape} (hc : c ∈ kids)
    {cid : NodeId} (hcid : t.resident.pageOf? cid = some c.page) : t.Holds cid c :=
  ⟨hcid, (Shape.on_branch.1 h.on).2 c hc, (Shape.small_branch.1 h.small).2 c hc,
    fun hmem => h.root_notMem hc (List.mem_of_mem_tail hmem)⟩

theorem Holds.child (h : t.Holds id (.branch p keys kids)) (ht : t.Coherent) {slot : Nat}
    {c : Shape} (hc : kids[slot]? = some c) : ∃ cid t', (child id slot).result t = (.ok cid, t') ∧
      t.Advanced [] [] t' ∧ t'.Holds cid c := by
  have hmem := List.mem_of_getElem? hc
  obtain ⟨htop, hkids⟩ := Shape.on_branch.1 h.on
  have hroot : c.page ≠ t.root := fun he => h.root_notMem hmem (he ▸ c.page_mem_pages)
  obtain ⟨cid, t', hrun, hadv, hhere⟩ :=
    child_ok ht h.here htop (by rw [List.getElem?_map, hc]; rfl) (hkids c hmem).top hroot
  exact ⟨cid, t', hrun, hadv, (h.advance ht hadv).below hmem hhere⟩

/-! ## The ends of the tree -/

theorem leafBelow_ok {slot? : Branch Slot → Option Nat} {pick : Branch PageNo → Option PageNo}
    (hpick : ∀ (rb : Branch Slot) (b : Branch PageNo) (c : PageNo),
      rb.children.length = b.children.length → pick b = some c →
      ∃ i, slot? rb = some i ∧ b.children[i]? = some c)
    {P : Pages} {d e limit : Nat} {f : PageNo} (hdown : Descent P pick d p f)
    (hroot : Descent P pick e t.root f) (hde : d ≤ e) (hlim : d < limit) (ht : t.Coherent)
    (hP : t.store.view = P) (hid : t.resident.pageOf? id = some p) :
    ∃ id' l t', (leafBelow slot? limit id).result t = (.ok (id', l), t') ∧ t.Advanced [] [] t' ∧
      t'.resident.pageOf? id' = some f ∧ P f = some (.leaf l) := by
  induction hdown generalizing t id limit with
  | @leaf p l hl =>
    obtain ⟨limit, rfl⟩ := Nat.exists_eq_add_one.2 (Nat.zero_lt_of_lt hlim)
    rw [leafBelow, Call.result_bind_ok (held_ok (ht.leaf hid (hP ▸ hl)))]
    exact ⟨id, l, t, rfl, .refl ht, hid, hl⟩
  | @branch d p c f b hb hc hrest ih =>
    obtain ⟨limit, rfl⟩ := Nat.exists_eq_add_one.2 (Nat.zero_lt_of_lt hlim)
    obtain ⟨slots, hr, hslots, -⟩ := ht.branch hid (hP ▸ hb)
    have hlen : slots.length = b.children.length := by simpa using congrArg List.length hslots
    obtain ⟨i, hi, hslot⟩ := hpick ⟨b.keys, slots⟩ b c hlen hc
    have hne : c ≠ t.root := by
      rintro rfl
      have heq := (hrest.unique hroot).1
      omega
    obtain ⟨n, hn⟩ : ∃ n, P c = some n := by
      cases hrest with
      | leaf hl => exact ⟨_, hl⟩
      | branch hb' => exact ⟨_, hb'⟩
    obtain ⟨cid, t₁, hrun, hadv, hcid⟩ := child_ok ht hid (hP ▸ hb) hslot (hP ▸ hn) hne
    have hroot' : Descent P pick e t₁.root f := by
      rw [hadv.root ht]
      exact hroot
    have hlim' : d < limit := by omega
    obtain ⟨id', l, t₂, hbelow, hadv', hid', hl⟩ := ih hroot' (by omega) hlim' hadv.coherent
      (by rw [hadv.store_eq, hP]) hcid
    refine ⟨id', l, t₂, ?_, hadv.trans hadv', hid', hl⟩
    rw [leafBelow, Call.result_bind_ok (held_ok hr)]
    simp only [hi, Call.result_bind_ok (Call.result_orFault_some i t), Call.result_bind_ok hrun,
      hbelow]

theorem firstLeaf_ok (ht : t.Coherent) {d : Nat} {f : PageNo}
    (hdown : Leftmost t.store.view d t.root f) : ∃ id l t', firstLeaf.result t = (.ok (id, l), t') ∧
      t.Advanced [] [] t' ∧ t'.resident.pageOf? id = some f ∧ t.store.view f = some (.leaf l) := by
  have hlt := hdown.lt fun q m hm => PageStore.lt_of_view hm
  rw [firstLeaf, Call.result_bind_ok (Call.result_get t)]
  refine leafBelow_ok (fun rb b c _ hc => ⟨0, rfl, ?_⟩) hdown hdown (Nat.le_refl d) ?_ ht rfl
    ht.rooted
  · rw [← hc, List.head?_eq_getElem?]
  · unfold walkLimit
    omega

/-- The way down to the rightmost leaf. -/
theorem exists_rightmost {P : Pages} {lo hi : UInt64} (hon : s.On P) (hordered : s.Ordered lo hi) :
    ∃ d x ls, s.leaves = ls ++ [x] ∧
      Descent P (fun b => b.children.getLast?) d s.page x.1 := by
  induction s using Shape.induct generalizing lo hi with
  | leaf p l => exact ⟨0, (p, l), [], by simp, .leaf (Shape.on_leaf.1 hon)⟩
  | branch p keys kids ih =>
    obtain ⟨htop, hkids⟩ := Shape.on_branch.1 hon
    have hlen := hordered.separated.1
    rcases List.eq_nil_or_concat kids with rfl | ⟨cs, c, rfl⟩
    · simp at hlen
    · rw [List.concat_eq_append] at *
      obtain ⟨a, b, -, -, hc⟩ := (Shape.ordered_branch.1 hordered).mem (c := c) (by simp)
      obtain ⟨d, x, ls, hls, hdown⟩ := ih c (by simp) (hkids c (by simp)) hc
      exact ⟨d + 1, x, cs.flatMap Shape.leaves ++ ls, by simp [hls], .branch htop (by simp) hdown⟩

theorem lastLeaf_ok {lo hi : UInt64} (ht : t.Coherent) (hs : s.On t.store.view)
    (hordered : s.Ordered lo hi) (hroot : s.page = t.root) : ∃ ls f l id t',
      s.leaves = ls ++ [(f, l)] ∧ lastLeaf.result t = (.ok (id, l), t') ∧ t.Advanced [] [] t' := by
  obtain ⟨d, ⟨f, m⟩, ls, hls, hdown⟩ := exists_rightmost hs hordered
  rw [hroot] at hdown
  have hlt := hdown.lt fun q m hm => PageStore.lt_of_view hm
  have hf : t.store.view f = some (.leaf m) := hs.leaf (x := (f, m)) (by simp [hls])
  have hpick : ∀ (rb : Branch Slot) (b : Branch PageNo) (c : PageNo),
      rb.children.length = b.children.length → b.children.getLast? = some c →
      ∃ i, lastSlot? rb = some i ∧ b.children[i]? = some c := by
    intro rb b c hlen hc
    rw [List.getLast?_eq_getElem?] at hc
    have hpos : b.children ≠ [] := by
      rintro hnil
      simp [hnil] at hc
    have hlast := List.length_pos_iff.2 hpos
    refine ⟨b.children.length - 1, ?_, hc⟩
    unfold lastSlot?
    rw [hlen]
    obtain ⟨k, hk⟩ : ∃ k, b.children.length = k + 1 := ⟨b.children.length - 1, by omega⟩
    simp [hk]
  obtain ⟨id, l, t', hrun, hadv, -, hl⟩ := leafBelow_ok hpick hdown hdown (Nat.le_refl d)
    (Nat.lt_of_lt_of_le hlt (Nat.le_add_right _ 2)) ht rfl ht.rooted
  rw [hf] at hl
  cases hl
  refine ⟨ls, f, m, id, t', hls, ?_, hadv⟩
  rw [lastLeaf, Call.result_bind_ok (Call.result_get t)]
  exact hrun

/-! ## The cursor -/

theorem result_place (t : Tree) (cursor : Option Position) :
    (place cursor).result t = (.ok (), { t with cursor }) := rfl

theorem toNext_used (h : t.cursor = none) : toNext.result t = (.ok (), t) := by
  rw [toNext, Call.result_bind_ok (Call.result_get t), h]
  rfl

theorem toNext_at {pos : Position} (hpos : t.cursor = some pos) : toNext.result t =
    seekEntry.result { t with cursor := some { pos with index := pos.index + 1 } } := by
  rw [toNext, Call.result_bind_ok (Call.result_get t), hpos]
  exact Call.result_bind_ok (result_place t _) _

theorem place_ok (ht : t.Coherent) (cursor : Option Position) :
    (place cursor).result t = (.ok (), { t with cursor }) ∧ t.Advanced [] [] { t with cursor } :=
  ⟨result_place t cursor, .refl _, ⟨ht.sound, ht.indexed, ht.agrees, ht.rootFree, ht.rooted⟩,
    fun _ _ h => h, rfl, fun h => h⟩

/-- The cursor is at index `i` of the first of the leaves, or used up if there is none. -/
def CursorAt (t : Tree) (i : Nat) : List (PageNo × Leaf) → Prop
  | [] => t.cursor = none
  | x :: _ => ∃ id, t.cursor = some ⟨id, i⟩ ∧ t.resident.pageOf? id = some x.1

/-- What the cursor still has before it: a chain of leaves from index `i` of the first one on. -/
structure RestsOn (t : Tree) (chain : List (PageNo × Leaf)) (i : Nat) : Prop where
  linked : Linked t.store.view (chain.head?.map Prod.fst) chain none
  cursor : t.CursorAt i chain

/-- The entries of a chain from index `i` of its first leaf on. -/
def entriesFrom (i : Nat) : List (PageNo × Leaf) → List Entry
  | [] => []
  | x :: xs => x.2.entries.drop i ++ xs.flatMap (·.2.entries)

theorem cursorLeaf_of_held {pos : Position} {l : Leaf}
    (hl : t.resident.nodeOf? pos.leaf = some (.leaf l)) :
    (cursorLeaf pos).result t = (.ok l, t) := by
  obtain ⟨⟨p, n⟩, hr, hn⟩ := Option.map_eq_some_iff.1 hl
  obtain rfl : n = .leaf l := hn
  rw [cursorLeaf, Call.result_bind_ok (held_ok hr)]
  rfl

theorem cursorLeaf_ok (ht : t.Coherent) (hid : t.resident.pageOf? id = some p) {l : Leaf}
    (hl : t.store.view p = some (.leaf l)) (i : Nat) :
    (cursorLeaf ⟨id, i⟩).result t = (.ok l, t) := by
  refine cursorLeaf_of_held ?_
  rw [Arena.nodeOf?, ht.leaf hid hl]
  rfl

/-- Moving on along the links loses no entry and comes to rest on one, if there is one left. -/
theorem seek_ok {chain : List (PageNo × Leaf)} {i limit : Nat} (hlim : chain.length < limit)
    (ht : t.Coherent) (h : t.RestsOn chain i) : ∃ t' chain' i', (seek limit).result t = (.ok (), t') ∧
      t.Advanced [] [] t' ∧ t'.RestsOn chain' i' ∧ entriesFrom i' chain' = entriesFrom i chain ∧
      chain' <:+ chain ∧
      ∀ x ∈ chain.head?, x.2.entries.length ≤ i → chain'.length < chain.length := by
  induction chain generalizing t i limit with
  | nil =>
    obtain ⟨limit, rfl⟩ := Nat.exists_eq_add_one.2 (Nat.zero_lt_of_lt hlim)
    have hcursor : t.cursor = none := h.cursor
    refine ⟨t, [], i, ?_, .refl ht, h, rfl, List.suffix_rfl, by simp⟩
    rw [seek, Call.result_bind_ok (Call.result_get t)]
    simp only [hcursor, Call.result_pure]
  | cons x xs ih =>
    obtain ⟨limit, rfl⟩ := Nat.exists_eq_add_one.2 (Nat.zero_lt_of_lt hlim)
    obtain ⟨p, l⟩ := x
    obtain ⟨id, hcursor, hid⟩ := h.cursor
    obtain ⟨-, hl, hlinks⟩ := h.linked
    rw [seek, Call.result_bind_ok (Call.result_get t)]
    simp only [hcursor, Call.result_bind_ok (cursorLeaf_ok ht hid hl i)]
    by_cases hi : i < l.entries.length
    · rw [if_pos hi]
      refine ⟨t, (p, l) :: xs, i, rfl, .refl ht, h, rfl, List.suffix_rfl, ?_⟩
      intro y hy hle
      cases hy
      exact absurd hi (Nat.not_lt.2 hle)
    · rw [if_neg hi]
      have hrest : entriesFrom i ((p, l) :: xs) = xs.flatMap (·.2.entries) := by
        simp [entriesFrom, List.drop_eq_nil_of_le (Nat.not_lt.1 hi)]
      cases xs with
      | nil =>
        have hnext : l.next = none := hlinks
        obtain ⟨hplace, hadv⟩ := place_ok ht none
        refine ⟨{ t with cursor := none }, [], 0, ?_, hadv, ⟨rfl, rfl⟩, by rw [hrest]; rfl,
          List.nil_suffix, by simp⟩
        simp only [hnext, hplace]
      | cons y ys =>
        have hnext : l.next = some y.1 := hlinks.1
        obtain ⟨id', t₁, hresolve, hadv, hid'⟩ := resolve_ok ht hlinks.2.1
        obtain ⟨hplace, hadv'⟩ := place_ok hadv.coherent (some ⟨id', 0⟩)
        have hlinked : Linked t₁.store.view (some y.1) (y :: ys) none := by
          rw [hadv.store_eq, ← hnext]
          exact hlinks
        have hlim' : (y :: ys).length < limit := by simpa using hlim
        obtain ⟨t₂, chain', i', hseek, hadv'', hrests, hentries, hsuffix, -⟩ :=
          ih hlim' hadv'.coherent ⟨hlinked, id', rfl, hid'⟩
        refine ⟨t₂, chain', i', ?_, hadv.trans (hadv'.trans hadv''), hrests, ?_,
          hsuffix.trans (List.suffix_cons _ _), ?_⟩
        · simp only [hnext, Call.result_bind_ok hresolve, Call.result_bind_ok hplace, hseek]
        · rw [hentries, hrest]
          simp [entriesFrom]
        · intro _ _ _
          have hle := hsuffix.length_le
          rw [List.length_cons]
          omega

theorem RestsOn.length_lt {chain : List (PageNo × Leaf)} {i : Nat} (h : t.RestsOn chain i) :
    chain.length < t.walkLimit := by
  have hle := h.linked.length_le fun q m hm => PageStore.lt_of_view hm
  unfold walkLimit
  omega

theorem seekEntry_ok {chain : List (PageNo × Leaf)} {i : Nat} (ht : t.Coherent)
    (h : t.RestsOn chain i) : ∃ t' chain' i', seekEntry.result t = (.ok (), t') ∧
      t.Advanced [] [] t' ∧ t'.RestsOn chain' i' ∧ entriesFrom i' chain' = entriesFrom i chain ∧
      chain' <:+ chain ∧
      ∀ x ∈ chain.head?, x.2.entries.length ≤ i → chain'.length < chain.length := by
  obtain ⟨t', chain', i', hseek, hadv, hrests, hentries, hsuffix, hshort⟩ := seek_ok h.length_lt ht h
  refine ⟨t', chain', i', ?_, hadv, hrests, hentries, hsuffix, hshort⟩
  rw [seekEntry, Call.result_bind_ok (Call.result_get t), hseek]

theorem scanFrom_ok {chain : List (PageNo × Leaf)} {i limit : Nat} (hlim : chain.length < limit)
    (ht : t.Coherent) (h : t.RestsOn chain i) : ∃ t', (scanFrom limit).result t =
      (.ok (entriesFrom i chain), t') ∧ t.Advanced [] [] t' := by
  induction limit generalizing t chain i with
  | zero => omega
  | succ limit ih =>
    rw [scanFrom, Call.result_bind_ok (Call.result_get t)]
    cases chain with
    | nil =>
      have hcursor : t.cursor = none := h.cursor
      simp only [hcursor]
      exact ⟨t, rfl, .refl ht⟩
    | cons x xs =>
      obtain ⟨p, l⟩ := x
      obtain ⟨id, hcursor, hid⟩ := h.cursor
      obtain ⟨hplace, hadv⟩ := place_ok ht (some ⟨id, l.entries.length⟩)
      have hrests : RestsOn { t with cursor := some ⟨id, l.entries.length⟩ } ((p, l) :: xs)
          l.entries.length := ⟨h.linked, id, rfl, hid⟩
      obtain ⟨t₁, chain', i', hseek, hadv', hrests', hentries, -, hshort⟩ :=
        seekEntry_ok hadv.coherent hrests
      have hlt := hshort (p, l) rfl (Nat.le_refl _)
      obtain ⟨t₂, hrest, hadv''⟩ := ih (by omega) hadv'.coherent hrests'
      refine ⟨t₂, ?_, hadv.trans (hadv'.trans hadv'')⟩
      simp only [hcursor, Call.result_bind_ok (cursorLeaf_ok ht hid h.linked.2.1 i),
        Call.result_bind_ok hplace, Call.result_bind_ok hseek, Call.result_bind_ok hrest, hentries]
      simp [entriesFrom]

theorem toFront_ok (ht : t.Coherent) {d : Nat} {f : PageNo} {chain : List (PageNo × Leaf)}
    (hdown : Leftmost t.store.view d t.root f) (hlinks : Linked t.store.view (some f) chain none) :
    ∃ t' chain' i', toFront.result t = (.ok (), t') ∧ t.Advanced [] [] t' ∧ t'.RestsOn chain' i' ∧
      entriesFrom i' chain' = chain.flatMap (·.2.entries) ∧ chain' <:+ chain := by
  obtain ⟨id, l, t₁, hfirst, hadv, hid, hl⟩ := firstLeaf_ok ht hdown
  obtain ⟨hplace, hadv'⟩ := place_ok hadv.coherent (some ⟨id, 0⟩)
  have hrests : RestsOn { t₁ with cursor := some ⟨id, 0⟩ } chain 0 := by
    cases chain with
    | nil => exact absurd hlinks (by simp [Linked])
    | cons x xs =>
      obtain rfl : f = x.1 := Option.some.inj hlinks.1
      refine ⟨?_, id, rfl, hid⟩
      simp only [hadv.store_eq]
      exact hlinks
  obtain ⟨t₂, chain', i', hseek, hadv₂, hrests', hentries, hsuffix, -⟩ :=
    seekEntry_ok hadv'.coherent hrests
  refine ⟨t₂, chain', i', ?_, hadv.trans (hadv'.trans hadv₂), hrests', ?_, hsuffix⟩
  · simp only [toFront, Call.result_bind_ok hfirst, Call.result_bind_ok hplace, hseek]
  · rw [hentries]
    cases chain <;> simp [entriesFrom]

/-- A scan answers what the leaves show. -/
theorem scan_ok (ht : t.Coherent) {es : List Entry} (h : Scans t.store.view t.root es) :
    ∃ t', scan.result t = (.ok es, t') ∧ t.Advanced [] [] t' := by
  obtain ⟨d, f, chain, hdown, hlinks, rfl⟩ := h
  obtain ⟨t₁, chain', i', hfront, hadv, hrests, hentries, -⟩ := toFront_ok ht hdown hlinks
  obtain ⟨t₂, hscan, hadv'⟩ := scanFrom_ok hrests.length_lt hadv.coherent hrests
  refine ⟨t₂, ?_, hadv.trans hadv'⟩
  rw [scan, Call.result_bind_ok hfront, Call.result_bind_ok (Call.result_get t₁), hscan, hentries]

/-! ## The cursor on any leaf -/

theorem cursorLeaf_state (pos : Position) : ((cursorLeaf pos).result t).2 = t := by
  rw [cursorLeaf, held]
  simp only [Call.result_bind, Call.result_get]
  cases t.resident.nodes[pos.leaf]? with
  | none => rfl
  | some r =>
    obtain ⟨q, n⟩ := r
    cases n <;> rfl

/-- The cursor may rest on a leaf that the tree has dropped, so the walk may fail, but it keeps the
handle coherent. -/
theorem seek_keeps (ht : t.Coherent) (limit : Nat) : t.Advanced [] [] ((seek limit).result t).2 := by
  induction limit generalizing t with
  | zero => exact .refl ht
  | succ limit ih =>
    rw [seek, Call.result_bind_ok (Call.result_get t)]
    cases hcursor : t.cursor with
    | none => exact .refl ht
    | some pos =>
      have hstate := cursorLeaf_state (t := t) pos
      rcases hleaf : (cursorLeaf pos).result t with ⟨r, t₁⟩
      rw [hleaf] at hstate
      obtain rfl : t₁ = t := hstate
      cases r with
      | error i =>
        simp only [Call.result_bind_error hleaf]
        exact .refl ht
      | ok l =>
        simp only [Call.result_bind_ok hleaf]
        split
        · exact .refl ht
        · cases l.next with
          | none => exact (place_ok ht none).2
          | some next =>
            rcases resolve_keeps ht next with ⟨i, hrun⟩ | ⟨id, t₂, hrun, hadv⟩
            · simp only [Call.result_bind_error hrun]
              exact .refl ht
            · obtain ⟨hplace, hadv'⟩ := place_ok hadv.coherent (some ⟨id, 0⟩)
              simp only [Call.result_bind_ok hrun, Call.result_bind_ok hplace]
              exact hadv.trans (hadv'.trans (ih hadv'.coherent))

theorem toNext_keeps (ht : t.Coherent) : t.Advanced [] [] (toNext.result t).2 := by
  cases hpos : t.cursor with
  | none =>
    rw [toNext_used hpos]
    exact .refl ht
  | some pos =>
    obtain ⟨-, hadv⟩ := place_ok ht (some { pos with index := pos.index + 1 })
    rw [toNext_at hpos, seekEntry, Call.result_bind_ok (Call.result_get _)]
    exact hadv.trans (seek_keeps hadv.coherent _)

end PagedTree.Tree
