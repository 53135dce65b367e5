import PagedTree.Proofs.InsertionChain

/-! # The answer of a lookup

A lookup searches the leaves that may have the key from right to left. What it answers is decided by
the row of leaves alone, whatever branches stand above them. An insertion does not change the answer
for any key but its own, and also a leaf that splits keeps the entries of another key together.
-/
namespace PagedTree

theorem findSome?_of_sublist {α β : Type} {f : α → Option β} {xs ys : List α} (h : xs.Sublist ys)
    (hys : ys.Nodup) (hout : ∀ y ∈ ys, y ∉ xs → f y = none) : xs.findSome? f = ys.findSome? f := by
  induction h with
  | slnil => rfl
  | @cons xs ys y h ih =>
    obtain ⟨hy, hys⟩ := List.nodup_cons.1 hys
    rw [List.findSome?_cons, hout y List.mem_cons_self fun hmem => hy (h.subset hmem)]
    exact ih hys fun z hz => hout z (List.mem_cons_of_mem _ hz)
  | @cons_cons xs ys y h ih =>
    obtain ⟨hy, hys⟩ := List.nodup_cons.1 hys
    rw [List.findSome?_cons, List.findSome?_cons, ih hys]
    intro z hz hnot
    refine hout z (List.mem_cons_of_mem _ hz) fun hmem => ?_
    rcases List.mem_cons.1 hmem with rfl | hmem
    · exact hy hz
    · exact hnot hmem

theorem findSome?_getElem? {α β : Type} (xs : List α) (f : α → Option β) :
    (List.range xs.length).reverse.findSome? (fun i => xs[i]?.bind f) = xs.reverse.findSome? f := by
  have hmap : (List.range xs.length).map (fun i => xs[i]?) = xs.map some := by
    apply List.ext_getElem?
    intro i
    by_cases hi : i < xs.length <;> simp [hi]
  have hall : (List.range xs.length).reverse.findSome? (fun i => xs[i]?.bind f) =
      ((List.range xs.length).map (fun i => xs[i]?)).reverse.findSome? (·.bind f) := by
    rw [← List.map_reverse, List.findSome?_map]
    rfl
  rw [hall, hmap, ← List.map_reverse, List.findSome?_map]
  rfl

/-- The value that the last leaf with the key has for it. -/
def lastFound (key : UInt64) (xs : List (PageNo × Leaf)) : Option ByteArray :=
  xs.reverse.findSome? fun x => x.2.get? key

section
variable {key : UInt64} {xs ys : List (PageNo × Leaf)}

@[simp] theorem lastFound_nil : lastFound key [] = none := rfl

@[simp] theorem lastFound_append :
    lastFound key (xs ++ ys) = (lastFound key ys).or (lastFound key xs) := by
  simp [lastFound, List.findSome?_append]

@[simp] theorem lastFound_cons (x : PageNo × Leaf) :
    lastFound key (x :: xs) = (lastFound key xs).or (x.2.get? key) := by
  simp [lastFound, List.findSome?_append]

theorem lastFound_eq_none :
    lastFound key xs = none ↔ ∀ e ∈ xs.flatMap (·.2.entries), e.key ≠ key := by
  simp only [lastFound, List.findSome?_eq_none_iff, List.mem_reverse, Leaf.get?_eq_none,
    List.mem_flatMap]
  exact ⟨fun h e ⟨x, hx, he⟩ => h x hx e he, fun h x hx e he => h e ⟨x, hx, he⟩⟩

theorem lastFound_flatMap {cs : List Shape} {f : Shape → Option ByteArray}
    (h : ∀ c ∈ cs, f c = lastFound key c.leaves) :
    lastFound key (cs.flatMap Shape.leaves) = cs.reverse.findSome? f := by
  induction cs with
  | nil => rfl
  | cons c cs ih =>
    simp [List.findSome?_append, ih fun d hd => h d (List.mem_cons_of_mem _ hd),
      h c List.mem_cons_self]

end

namespace Shape

theorem slotsFor_sublist {keys : List UInt64} {kids : List Shape} (key : UInt64)
    (hlen : kids.length = keys.length + 1) :
    (Branch.slotsFor ⟨keys, kids⟩ key).Sublist (List.range kids.length).reverse := by
  have hle := Branch.slotOf_le ⟨keys, kids⟩ key
  have hfirst := (List.takeWhile_sublist (l := keys) (· < key)).length_le
  rw [Branch.slotsFor, List.reverse_sublist, List.range_eq_range']
  dsimp only at hle ⊢
  generalize (keys.takeWhile (· < key)).length = first at *
  generalize hcount : Branch.slotOf ⟨keys, kids⟩ key + 1 - first = count
  obtain ⟨rest, hrest⟩ : ∃ rest, kids.length = first + (count + rest) :=
    ⟨kids.length - first - count, by omega⟩
  rw [hrest, ← List.range'_append_1, ← List.range'_append_1, Nat.zero_add]
  exact (List.sublist_append_left ..).trans (List.sublist_append_right ..)

/-- The leaves decide what a lookup answers. -/
theorem Ordered.find?_eq {s : Shape} {lo hi : UInt64} (h : s.Ordered lo hi) (key : UInt64) :
    s.find? key = lastFound key s.leaves := by
  induction s using induct generalizing lo hi with
  | leaf p l => simp [find?_leaf]
  | branch p keys kids ih =>
    obtain ⟨hlen, hsorted, hseparated⟩ := h.separated
    have hkids : ∀ c ∈ kids, c.find? key = lastFound key c.leaves := by
      intro c hc
      obtain ⟨a, b, -, -, hR⟩ := (ordered_branch.1 h).mem hc
      exact ih c hc hR
    have hout : ∀ i ∈ (List.range kids.length).reverse, i ∉ Branch.slotsFor ⟨keys, kids⟩ key →
        kids[i]?.bind (find? key) = none := by
      intro i hi hnot
      have hlt : i < kids.length := by simpa using hi
      have hc : kids[i]? = some kids[i] := List.getElem?_eq_getElem hlt
      rw [hc, Option.bind_some, hkids _ (List.getElem_mem hlt), lastFound_eq_none]
      rintro e he rfl
      obtain ⟨hleft, hright⟩ := hseparated i kids[i] hc e he
      exact hnot ((Branch.mem_slotsFor hsorted).2 ⟨by simp only; omega, hleft, hright⟩)
    rw [find?_branch, findSome?_of_sublist (slotsFor_sublist key hlen)
      (List.reverse_perm _ |>.symm.nodup List.nodup_range) hout, findSome?_getElem?, leaves_branch,
      lastFound_flatMap hkids]

theorem Ordered.sorted_leaf {s : Shape} {lo hi : UInt64} (h : s.Ordered lo hi) {x : PageNo × Leaf}
    (hx : x ∈ s.leaves) : x.2.keys.Pairwise (· ≤ ·) := by
  obtain ⟨c, hc, hx⟩ := List.mem_filterMap.1 hx
  obtain ⟨a, b, hordered⟩ := h.part hc
  cases c with
  | leaf p l =>
    cases hx
    exact (ordered_leaf.1 hordered).1
  | branch => cases hx

end Shape

section
variable {e : Entry} {s : Shape} {fs : List PageNo} {g : Growth} {ws : List (PageNo × Node)}
  {key lo hi : UInt64}

theorem LeafInserted.lastFound {p : PageNo} {l : Leaf} (h : LeafInserted e p l fs g ws)
    (hl : l.keys.Pairwise (· ≤ ·)) (hkey : key ≠ e.key) :
    lastFound key (g.trees.flatMap Shape.leaves) = l.get? key := by
  cases h with
  | fits => simp [Growth.trees, Leaf.get?_insert_of_ne l hkey]
  | @splits q a b mid _ hsplit =>
    have hmem : e.key ∈ (l.insert e).keys := List.mem_map_of_mem (Leaf.mem_insert.2 (.inl rfl))
    have hfound := Leaf.get?_split hsplit (Leaf.sorted_insert hl e) hmem hkey.symm
    rw [Leaf.get?_insert_of_ne l hkey] at hfound
    simpa [Growth.trees] using hfound

/-- An insertion changes the answer for its own key only. -/
theorem Inserted.lastFound (h : Inserted e s fs g ws) (hg : g.Going) {P : Pages} (hs : s.On P)
    (hordered : s.Ordered lo hi) (hkey : key ≠ e.key) :
    lastFound key (g.trees.flatMap Shape.leaves) = lastFound key s.leaves := by
  obtain ⟨as, p, l, bs, hleaves, -, hreach⟩ := h.reaches hs
  have hl : l.keys.Pairwise (· ≤ ·) := hordered.sorted_leaf (x := (p, l)) (by simp [hleaves])
  cases hreach with
  | nothing => simp at hg
  | leaf hleaf _ hrow =>
    rw [hrow hg, hleaves]
    simp only [lastFound_append, lastFound_cons, hleaf.lastFound hl hkey]

end

end PagedTree
