import PagedTree.Proofs.RootGrowth
import PagedTree.Proofs.Tidying

/-! # Separators above everything before them

A leaf is split between two different keys unless all its keys are equal. As long as no key fills a
leaf, a separator is therefore greater than every key below the child in front of it, and each key
has all its entries in one leaf. A search then comes to the first of them.
-/
namespace PagedTree

namespace Shape

/-- The keys below each child are smaller than the separator behind the child. -/
def Capped (keys : List UInt64) (kids : List Shape) : Prop :=
  ∀ x ∈ keys.zip kids, ∀ e ∈ x.2.entries, e.key < x.1

/-- No separator of the tree is the key of an entry in front of it. -/
def Strict (s : Shape) : Prop := ∀ p keys kids, branch p keys kids ∈ s.parts → Capped keys kids

section
variable {p m : PageNo} {l : Leaf} {keys ks ls : List UInt64} {kids cs ds : List Shape}
  {s c : Shape} {k key : UInt64} {lo hi : UInt64}

@[simp] theorem capped_nil : Capped [] kids := by simp [Capped]

@[simp] theorem capped_cons :
    Capped (k :: ks) (c :: cs) ↔ (∀ e ∈ c.entries, e.key < k) ∧ Capped ks cs := by
  simp [Capped]

/-- A row is capped if its parts are. -/
theorem capped_append (hlen : cs.length = ks.length) :
    Capped (ks ++ ls) (cs ++ ds) ↔ Capped ks cs ∧ Capped ls ds := by
  simp only [Capped, List.zip_append hlen.symm, List.mem_append, or_imp, forall_and]

theorem Capped.getElem? (h : Capped keys kids) {i : Nat} (hk : keys[i]? = some k)
    (hc : kids[i]? = some c) : ∀ e ∈ c.entries, e.key < k :=
  h (k, c) (List.mem_of_getElem? (List.getElem?_zip_eq_some.2 ⟨hk, hc⟩))

@[simp] theorem strict_leaf : (leaf p l).Strict := by simp [Strict]

@[simp] theorem strict_branch :
    (branch p keys kids).Strict ↔ Capped keys kids ∧ ∀ c ∈ kids, c.Strict := by
  simp only [Strict, parts_branch, List.mem_cons, List.mem_flatMap]
  constructor
  · intro h
    exact ⟨h p keys kids (.inl rfl), fun c hc q ks cs ht => h q ks cs (.inr ⟨c, hc, ht⟩)⟩
  · rintro ⟨htop, hkids⟩ q ks cs (he | ⟨c, hc, ht⟩)
    · cases he
      exact htop
    · exact hkids c hc q ks cs ht

theorem Strict.moveTo (h : s.Strict) : (s.moveTo m).Strict := by
  cases s with
  | leaf p l => exact strict_leaf
  | branch p keys kids => exact strict_branch.2 (strict_branch.1 h)

/-- The keys below a child are smaller than those below every child behind it. -/
theorem Capped.pairwise (h : Capped keys kids) (hrow : Between Ordered lo keys kids hi) :
    kids.Pairwise fun c d => ∀ x ∈ c.entries, ∀ y ∈ d.entries, x.key < y.key := by
  induction keys generalizing lo kids with
  | nil =>
    match kids, hrow with
    | [c], _ => simp
  | cons k keys ih =>
    match kids, hrow with
    | c :: kids, hrow =>
      obtain ⟨hc, hrest⟩ := capped_cons.1 h
      refine List.pairwise_cons.2 ⟨?_, ih hrest hrow.2.2⟩
      intro d hd x hx y hy
      obtain ⟨a, b, ha, -, hR⟩ := hrow.2.2.mem hd
      exact UInt64.lt_of_lt_of_le (hc x hx) (UInt64.le_trans ha (hR.bound y hy).1)

theorem Capped.exists_key (h : Capped ks cs) (hlen : cs.length ≤ ks.length) (hc : c ∈ cs) :
    ∃ k ∈ ks, ∀ e ∈ c.entries, e.key < k := by
  obtain ⟨i, hi, rfl⟩ := List.getElem_of_mem hc
  have hk : i < ks.length := Nat.lt_of_lt_of_le hi hlen
  exact ⟨ks[i], List.getElem_mem hk,
    h.getElem? (List.getElem?_eq_getElem hk) (List.getElem?_eq_getElem hi)⟩

/-- All keys in front of a separator are smaller than it. -/
theorem Capped.front (h : Capped (ks ++ k :: ls) (cs ++ ds)) (hlen : cs.length = ks.length + 1)
    (hsorted : (ks ++ k :: ls).Pairwise (· ≤ ·)) : ∀ c ∈ cs, ∀ e ∈ c.entries, e.key < k := by
  intro c hc e he
  rw [List.append_cons] at h hsorted
  have hlen' : cs.length = (ks ++ [k]).length := by simpa using hlen
  obtain ⟨m, hm, hlt⟩ := ((capped_append hlen').1 h).1.exists_key (Nat.le_of_eq hlen') hc
  refine UInt64.lt_of_lt_of_le (hlt e he) ?_
  rcases List.mem_append.1 hm with hm | hm
  · exact (List.pairwise_append.1 (List.pairwise_append.1 hsorted).1).2.2 m hm k (by simp)
  · exact List.mem_singleton.1 hm ▸ UInt64.le_refl _

/-- A row cut at a separator. -/
theorem Capped.cut (h : Capped (ks ++ k :: ls) (cs ++ ds)) (hlen : cs.length = ks.length + 1) :
    Capped ks cs ∧ Capped ls ds := by
  obtain ⟨cs, c, rfl⟩ := (List.eq_nil_or_concat cs).resolve_left (by rintro rfl; simp at hlen)
  rw [List.concat_eq_append, List.length_append, List.length_singleton,
    Nat.add_right_cancel_iff] at hlen
  rw [List.concat_eq_append, List.append_assoc, List.singleton_append] at h
  obtain ⟨hleft, hright⟩ := (capped_append hlen).1 h
  have hnew : Capped (ks ++ []) (cs ++ [c]) := (capped_append hlen).2 ⟨hleft, capped_nil⟩
  rw [List.append_nil] at hnew
  exact ⟨by rwa [List.concat_eq_append], (capped_cons.1 hright).2⟩

theorem Capped.keep {c' : Shape} (h : Capped (ks ++ ls) (cs ++ c :: ds)) (hlen : cs.length = ks.length)
    (hc : c'.entries ⊆ c.entries) : Capped (ks ++ ls) (cs ++ c' :: ds) := by
  obtain ⟨hleft, hright⟩ := (capped_append hlen).1 h
  refine (capped_append hlen).2 ⟨hleft, ?_⟩
  cases ls with
  | nil => exact capped_nil
  | cons k ls =>
    obtain ⟨hlt, hrest⟩ := capped_cons.1 hright
    exact capped_cons.2 ⟨fun e he => hlt e (hc he), hrest⟩

/-- A search finds the first entry with the key. -/
theorem Strict.place?_eq (h : s.Strict) (hs : s.Ordered lo hi) (key : UInt64) :
    s.place? key = s.entries.findIdx? (·.key == key) := by
  induction s using induct generalizing lo hi with
  | leaf p l => rw [place?_leaf, entries_leaf]
  | branch p keys kids ih =>
    obtain ⟨hcapped, hstrict⟩ := strict_branch.1 h
    have hrow := ordered_branch.1 hs
    cases hplace : (branch p keys kids).place? key with
    | none =>
      have hnone := hs.find?_eq_none (place?_eq_none.1 hplace)
      exact (List.findIdx?_eq_none_iff.2 (by simpa using hnone)).symm
    | some j =>
      rw [place?_branch] at hplace
      obtain ⟨-, i, -, -, hi, -⟩ := List.findSome?_eq_some_iff.1 hplace
      obtain ⟨c, hc, hi⟩ := Option.bind_eq_some_iff.1 hi
      obtain ⟨j, hj, rfl⟩ := Option.map_eq_some_iff.1 hi
      obtain ⟨cs, ds, rfl, rfl⟩ := exists_cut_getElem? hc
      obtain ⟨a, b, -, -, hR⟩ := hrow.mem (c := c) (by simp)
      rw [ih c (by simp) (hstrict c (by simp)) hR] at hj
      -- the children before it have smaller keys only
      have hbefore : (cs.flatMap entries).findIdx? (·.key == key) = none := by
        rw [List.findIdx?_eq_none_iff]
        intro x hx
        obtain ⟨d, hd, hx⟩ := List.mem_flatMap.1 hx
        obtain ⟨hlt, hkey, -⟩ := List.findIdx?_eq_some_iff_getElem.1 hj
        have hless := (List.pairwise_append.1 (hcapped.pairwise hrow)).2.2 d hd c List.mem_cons_self x hx
          _ (List.getElem_mem hlt)
        rw [eq_of_beq hkey] at hless
        simpa using UInt64.ne_of_lt hless
      rw [List.take_left, entries_branch, List.flatMap_append, List.flatMap_cons,
        List.findIdx?_append, hbefore, Option.none_or, List.findIdx?_append, hj, Option.some_or,
        Option.map_some, Nat.add_comm]

theorem Strict.first (h : s.Strict) (hs : s.Ordered lo hi) {i : Nat} {e : Entry}
    (hplace : s.place? key = some i) (hentry : s.entries[i]? = some e) :
    ∃ pre post, s.entries = pre ++ e :: post ∧ pre.length = i ∧ ∀ x ∈ pre, x.key ≠ key := by
  rw [h.place?_eq hs] at hplace
  obtain ⟨_, -, hnot⟩ := List.findIdx?_eq_some_iff_getElem.1 hplace
  obtain ⟨pre, post, hcut, rfl⟩ := exists_cut_getElem? hentry
  refine ⟨pre, post, hcut, rfl, fun x hx => ?_⟩
  obtain ⟨j, hj, rfl⟩ := List.getElem_of_mem hx
  have hother := hnot j hj
  simp only [hcut, List.getElem_append_left hj, beq_iff_eq] at hother
  exact hother

/-- A lookup finds the value that stands first under the key. -/
theorem Strict.find?_eq (h : s.Strict) (hs : s.Ordered lo hi) (key : UInt64) :
    s.find? key = (valuesUnder key s.entries).head? := by
  have hboth := s.find?_place? key
  generalize hfind : s.find? key = v at hboth ⊢
  generalize hplace : s.place? key = i at hboth
  cases hboth with
  | none =>
    rw [valuesUnder_eq_nil.2 (hs.find?_eq_none hfind)]
    rfl
  | @some v i hentry =>
    obtain ⟨pre, post, hcut, -, hpre⟩ := h.first hs hplace hentry
    rw [hcut, valuesUnder_cut hpre]
    rfl

/-- All entries with a key are in one leaf. -/
theorem Strict.leaf_unique (h : s.Strict) (hs : s.Ordered lo hi) {x y : PageNo × Leaf}
    (hx : x ∈ s.leaves) (hy : y ∈ s.leaves) (hkx : key ∈ x.2.keys) (hky : key ∈ y.2.keys) :
    x = y := by
  induction s using induct generalizing lo hi with
  | leaf p l =>
    rw [leaves_leaf, List.mem_singleton] at hx hy
    rw [hx, hy]
  | branch p keys kids ih =>
    obtain ⟨hcapped, hstrict⟩ := strict_branch.1 h
    have hrow := ordered_branch.1 hs
    have hmem : ∀ {c : Shape} {z : PageNo × Leaf}, z ∈ c.leaves → key ∈ z.2.keys →
        ∃ e ∈ c.entries, e.key = key := by
      intro c z hz hk
      obtain ⟨e, he, hek⟩ := List.mem_map.1 hk
      exact ⟨e, by rw [entries_eq]; exact List.mem_flatMap.2 ⟨z, hz, he⟩, hek⟩
    rw [leaves_branch] at hx hy
    obtain ⟨c, hc, hxc⟩ := List.mem_flatMap.1 hx
    obtain ⟨d, hd, hyd⟩ := List.mem_flatMap.1 hy
    obtain ⟨e, he, hek⟩ := hmem hxc hkx
    obtain ⟨f, hf, hfk⟩ := hmem hyd hky
    obtain ⟨cs, ds, rfl⟩ := List.append_of_mem hc
    obtain ⟨-, hbehind, hbefore⟩ := List.pairwise_append.1 (hcapped.pairwise hrow)
    rcases List.mem_append.1 hd with hd | hd
    · have hlt := hbefore d hd c List.mem_cons_self f hf e he
      exact absurd (hfk.trans hek.symm) (UInt64.ne_of_lt hlt)
    rcases List.mem_cons.1 hd with rfl | hd
    · obtain ⟨a, b, -, -, hR⟩ := hrow.mem hc
      exact ih d hc (hstrict d hc) hR hxc hyd
    · have hlt := List.rel_of_pairwise_cons hbehind hd e he f hf
      exact absurd (hek.trans hfk.symm) (UInt64.ne_of_lt hlt)

/-- A new entry stands before all with its key. -/
theorem Strict.entriesWith (h : s.Strict) (hs : s.Ordered lo hi) (e : Entry) :
    ∃ pre post, s.entries = pre ++ post ∧ s.entriesWith e = pre ++ e :: post ∧
      ∀ x ∈ pre, x.key < e.key := by
  induction s using induct generalizing lo hi with
  | leaf p l =>
    obtain ⟨pre, post, hentries, hwith, hpre⟩ := Leaf.exists_insert l e
    exact ⟨pre, post, by rwa [entries_leaf], by rwa [entriesWith_leaf], hpre⟩
  | branch p keys kids ih =>
    obtain ⟨hcapped, hstrict⟩ := strict_branch.1 h
    have hrow := ordered_branch.1 hs
    obtain ⟨ks, ls, cs, c, ds, rfl, rfl, hlen, hroute⟩ := Branch.exists_routed hrow.length e.key
    obtain ⟨a, b, -, -, hR⟩ := hrow.mem (c := c) (by simp)
    obtain ⟨pre, post, hentries, hwith, hpre⟩ := ih c (by simp) (hstrict c (by simp)) hR
    refine ⟨cs.flatMap entries ++ pre, post ++ ds.flatMap entries, ?_, ?_, ?_⟩
    · simp [hentries]
    · simp [entriesWith_branch hlen hroute, hwith]
    · intro x hx
      rcases List.mem_append.1 hx with hx | hx
      · obtain ⟨d, hd, hx⟩ := List.mem_flatMap.1 hx
        obtain ⟨k, hk, hlt⟩ := ((capped_append hlen).1 hcapped).1.exists_key (Nat.le_of_eq hlen) hd
        exact UInt64.lt_of_lt_of_le (hlt x hx) (hroute.1 k hk)
      · exact hpre x hx

end

end Shape

/-! ## Inserting -/

section
variable {e : Entry} {s s' : Shape} {fs gs : List PageNo} {g g' : Growth}
  {ws vs : List (PageNo × Node)} {p : PageNo} {ks ls : List UInt64} {cs ds : List Shape}
  {lo hi : UInt64} {P : Pages}

/-- A leaf that no key fills is split between two keys. -/
theorem LeafInserted.capped {l : Leaf} (h : LeafInserted e p l fs g ws)
    (hs : (Shape.leaf p l).Ordered lo hi)
    (hcount : (l.insert e).entries.countP (·.key == e.key) < order) :
    Shape.Capped g.keys g.trees := by
  cases h with
  | fits => exact Shape.capped_nil
  | @splits q a b key hfull hsplit =>
    have hsorted := Leaf.sorted_insert (Shape.ordered_leaf.1 hs).1 e
    obtain ⟨-, -, hle, -, -⟩ := Leaf.sorted_split hsplit hsorted
    obtain ⟨-, -, -, hhead⟩ := Leaf.entries_split? hsplit
    refine Shape.capped_cons.2 ⟨fun x hx => ?_, Shape.capped_nil⟩
    have hxa : x.key ∈ a.keys := List.mem_map_of_mem (by simpa using hx)
    refine UInt64.lt_of_le_of_ne (hle x.key hxa) fun he => ?_
    -- otherwise all keys are equal, and they fill the leaf
    have hall := Leaf.apart_split hsplit hsorted (he ▸ hxa) (List.mem_of_mem_head? hhead)
    have hkeys : ∀ y ∈ (l.insert e).entries, y.key = e.key := by
      intro y hy
      rw [hall y.key (List.mem_map_of_mem hy),
        hall e.key (List.mem_map_of_mem (Leaf.mem_insert.2 (.inl rfl)))]
    have hfull' : order ≤ (l.insert e).entries.length := of_decide_eq_true hfull
    rw [List.countP_eq_length.2 (by simpa using hkeys)] at hcount
    omega

/-- The row of a branch in which a child has grown. -/
theorem Growth.capped_row {c : Shape} (h : Shape.Capped (ks ++ ls) (cs ++ c :: ds))
    (hlen : cs.length = ks.length) (hg : g.Going) (hcapped : Shape.Capped g.keys g.trees)
    (hlast : ∀ k ∈ ls.head?, ∀ t ∈ g.trees, ∀ x ∈ t.entries, x.key < k) :
    Shape.Capped (ks ++ (g.keys ++ ls)) (cs ++ (g.trees ++ ds)) := by
  obtain ⟨hleft, hright⟩ := (Shape.capped_append hlen).1 h
  refine (Shape.capped_append hlen).2 ⟨hleft, ?_⟩
  cases g with
  | stopped => simp at hg
  | whole c' =>
    cases ls with
    | nil => exact Shape.capped_nil
    | cons k ls =>
      exact Shape.capped_cons.2 ⟨hlast k rfl c' (by simp [Growth.trees]), (Shape.capped_cons.1 hright).2⟩
  | halves a key b =>
    refine Shape.capped_cons.2 ⟨(Shape.capped_cons.1 hcapped).1, ?_⟩
    cases ls with
    | nil => exact Shape.capped_nil
    | cons k ls =>
      exact Shape.capped_cons.2 ⟨hlast k rfl b (by simp [Growth.trees]), (Shape.capped_cons.1 hright).2⟩

theorem Absorbed.strict (h : Absorbed p ks ls cs ds g gs g' vs)
    (hsorted : (ks ++ (g.keys ++ ls)).Pairwise (· ≤ ·))
    (hrow : Shape.Capped (ks ++ (g.keys ++ ls)) (cs ++ (g.trees ++ ds)))
    (hall : ∀ t ∈ cs ++ (g.trees ++ ds), t.Strict) :
    (∀ t ∈ g'.trees, t.Strict) ∧ Shape.Capped g'.keys g'.trees := by
  cases h with
  | whole c =>
    exact ⟨Growth.forall_mem_whole.2 (Shape.strict_branch.2 ⟨hrow, hall⟩), Shape.capped_nil⟩
  | fits =>
    exact ⟨Growth.forall_mem_whole.2 (Shape.strict_branch.2 ⟨hrow, hall⟩), Shape.capped_nil⟩
  | @splits a b q key mid lks rks lcs rcs hkeys htrees hlen =>
    have hcut : Shape.Capped (lks ++ mid :: rks) (lcs ++ rcs) := by
      rw [hkeys, htrees]
      exact hrow
    have hall' : ∀ t ∈ lcs ++ rcs, t.Strict := by
      rw [htrees]
      exact hall
    obtain ⟨hlcs, hrcs⟩ := List.forall_mem_append.1 hall'
    obtain ⟨hleft, hright⟩ := hcut.cut hlen
    refine ⟨Growth.forall_mem_halves.2
      ⟨Shape.strict_branch.2 ⟨hleft, hlcs⟩, Shape.strict_branch.2 ⟨hright, hrcs⟩⟩,
      Shape.capped_cons.2 ⟨fun x hx => ?_, Shape.capped_nil⟩⟩
    rw [Shape.entries_branch] at hx
    obtain ⟨c, hc, hx⟩ := List.mem_flatMap.1 hx
    exact hcut.front hlen (by rw [hkeys]; exact hsorted) c hc x hx
  | full => exact ⟨Growth.forall_mem_stopped, Shape.capped_nil⟩
  | stopped => exact ⟨Growth.forall_mem_stopped, Shape.capped_nil⟩

/-- A tree that an entry goes into stays strict as long as the copies of its key do not fill a leaf. -/
theorem Inserted.strict (h : Inserted e s fs g ws) (hstrict : s.Strict) (hs : s.Ordered lo hi)
    (hon : s.On P) (hlo : lo ≤ e.key) (hhi : e.key ≤ hi)
    (hcount : (s.entriesWith e).countP (·.key == e.key) < order) :
    (∀ t ∈ g.trees, t.Strict) ∧ Shape.Capped g.keys g.trees := by
  induction h generalizing lo hi with
  | @leaf p l fs g ws h =>
    refine ⟨?_, h.capped hs (by simpa using hcount)⟩
    cases h with
    | fits => exact Growth.forall_mem_whole.2 Shape.strict_leaf
    | splits => exact Growth.forall_mem_halves.2 ⟨Shape.strict_leaf, Shape.strict_leaf⟩
  | full => exact ⟨Growth.forall_mem_stopped, Shape.capped_nil⟩
  | @branch p ks ls cs ds c fs gs g g' ws vs hlen hroute hchild habs ih =>
    rcases g'.going_or_stopped with hg | ⟨kept, held, rfl⟩
    case inr => exact ⟨Growth.forall_mem_stopped, Shape.capped_nil⟩
    have hgoing := habs.going hg
    obtain ⟨hcapped, hkids⟩ := Shape.strict_branch.1 hstrict
    have hkidsOn := (Shape.on_branch.1 hon).2
    obtain ⟨a, b, hak, hkb, hc, hrow⟩ :=
      Shape.between_routed hlen hroute (Shape.ordered_branch.1 hs) hlo hhi
    rw [Shape.entriesWith_branch hlen hroute, List.countP_append, List.countP_append] at hcount
    obtain ⟨hgrown, hcappedNew⟩ := ih (hkids c (by simp)) hc (hkidsOn c (by simp)) hak hkb (by omega)
    have hsorted := (hrow (hchild.ordered hgoing hc hak hkb)).sorted.of_cons
    refine habs.strict (List.pairwise_append.1 hsorted).1
      (Growth.capped_row hcapped hlen hgoing hcappedNew ?_) (forall_mem_replace hkids hgrown)
    -- what the child has grown into has its entries and the new one
    intro k hk t ht x hx
    have hmem : x ∈ c.entriesWith e := by
      rw [← hchild.entries hgoing (hkidsOn c (by simp))]
      exact List.mem_flatMap.2 ⟨t, ht, hx⟩
    obtain ⟨pre, post, hentries, hwith, -⟩ := hc.entriesWith e
    have hcases : x = e ∨ x ∈ c.entries := by
      rw [hwith] at hmem
      rw [hentries]
      simp only [List.mem_append, List.mem_cons] at hmem ⊢
      tauto
    obtain ⟨ls, rfl⟩ := List.head?_eq_some_iff.1 hk
    rcases hcases with rfl | hx
    · exact hroute.2 k hk
    · exact (Shape.capped_cons.1 ((Shape.capped_append hlen).1 hcapped).2).1 x hx

theorem Insertion.strict (h : Insertion e s fs (.whole s') ws) (hstrict : s.Strict)
    (hs : s.Stands P) (hcount : (s.entriesWith e).countP (·.key == e.key) < order) : s'.Strict := by
  cases h with
  | whole h =>
    exact Growth.forall_mem_whole.1
      (h.strict hstrict hs.ordered hs.on (UInt64.zero_le) (le_topKey _) hcount).1
  | @raised fs a b key m ws h =>
    obtain ⟨hhalves, hcapped⟩ :=
      h.strict hstrict hs.ordered hs.on (UInt64.zero_le) (le_topKey _) hcount
    obtain ⟨ha, hb⟩ := Growth.forall_mem_halves.1 hhalves
    refine Shape.strict_branch.2 ⟨?_, by simpa using And.intro ha.moveTo hb⟩
    simpa [Growth.trees, Growth.keys] using hcapped

end

/-! ## Erasing -/

section
variable {key : Option UInt64} {s s' : Shape} {w : PageNo × Node} {ws : List (PageNo × Node)}

theorem ErasureStep.entries_sublist (h : ErasureStep key s w s') : s'.entries.Sublist s.entries := by
  induction h with
  | @take key v p l _ => simpa using l.erase_sublist key
  | unlink => simp
  | unlinkLast => simp
  | collapse => simp
  | inside _ _ ih => simp [ih]

/-- An empty leaf goes with a separator beside it, so no child gets another one behind it. -/
theorem ErasureStep.strict (h : ErasureStep key s w s') (hs : s.Strict) : s'.Strict := by
  induction h with
  | take => exact Shape.strict_leaf
  | @unlink p q ks ls k cs ds l hlen =>
    obtain ⟨hcapped, hkids⟩ := Shape.strict_branch.1 hs
    obtain ⟨hleft, hright⟩ := (Shape.capped_append hlen).1 hcapped
    exact Shape.strict_branch.2 ⟨(Shape.capped_append hlen).2 ⟨hleft, (Shape.capped_cons.1 hright).2⟩,
      forall_mem_replace hkids (List.forall_mem_nil _)⟩
  | @unlinkLast p q ks k cs l hlen =>
    obtain ⟨hcapped, hkids⟩ := Shape.strict_branch.1 hs
    exact Shape.strict_branch.2 ⟨(hcapped.cut hlen).1, fun c hc => hkids c (by simp [hc])⟩
  | @collapse p q ks ls cs ds d hlen =>
    obtain ⟨hcapped, hkids⟩ := Shape.strict_branch.1 hs
    have honly := (Shape.strict_branch.1 (hkids (.branch q [] [d]) (by simp))).2
    exact Shape.strict_branch.2 ⟨hcapped.keep hlen (by simp), forall_mem_replace hkids honly⟩
  | @inside key p ks ls cs ds c c' w hlen hstep ih =>
    obtain ⟨hcapped, hkids⟩ := Shape.strict_branch.1 hs
    have hnew := List.forall_mem_singleton.2 (ih (hkids c (by simp)))
    exact Shape.strict_branch.2
      ⟨hcapped.keep hlen hstep.entries_sublist.subset, forall_mem_replace hkids hnew⟩

/-- The first entry with the key is taken out. -/
theorem Erased.first {key : UInt64} {v : ByteArray} {lo hi : UInt64} (h : Erased key v s ws s')
    (hstrict : s.Strict) (hs : s.Ordered lo hi) : ∃ pre post, s.entries = pre ++ ⟨key, v⟩ :: post ∧
      s'.entries = pre ++ post ∧ ∀ x ∈ pre, x.key ≠ key := by
  obtain ⟨i, hplace, hentry, herased⟩ := h.place?
  obtain ⟨pre, post, hcut, rfl, hpre⟩ := hstrict.first hs hplace hentry
  refine ⟨pre, post, hcut, ?_, hpre⟩
  rw [herased, hcut, eraseIdx_cut rfl]

theorem Erasure.strict {key : UInt64} (h : Erasure key s ws s') (hs : s.Strict) : s'.Strict := by
  induction h with
  | take hstep => exact hstep.strict hs
  | tidy _ hstep ih => exact hstep.strict ih

end

end PagedTree
