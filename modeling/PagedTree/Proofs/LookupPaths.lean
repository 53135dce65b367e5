import PagedTree.Proofs.Lookups
import PagedTree.Proofs.Outcomes
import PagedTree.Proofs.SearchSlots

/-! # What a lookup reads

The path of a key leads from the root to the leaf that a new entry with the key would go to. A lookup
goes down that path first, and past its leaf only if the leaf does not have the key and a separator on
the path equals the key. It never reads a node whose bounds leave the key out.
-/
namespace PagedTree

namespace Shape

variable {s c : Shape} {key : UInt64} {p : PageNo} {l : Leaf} {keys : List UInt64}
  {kids : List Shape}

/-- The nodes from the top to the leaf that a new entry with the key goes to. -/
def path (key : UInt64) : Shape → List Shape
  | leaf p l => [leaf p l]
  | branch p keys kids => branch p keys kids ::
    match h : kids[Branch.slotOf ⟨keys, kids⟩ key]? with
    | some c =>
      have := List.mem_of_getElem? h
      c.path key
    | none => []

@[simp] theorem path_leaf : (leaf p l).path key = [leaf p l] := by simp [path]

theorem path_branch (hc : kids[Branch.slotOf ⟨keys, kids⟩ key]? = some c) :
    (branch p keys kids).path key = branch p keys kids :: c.path key := by
  rw [path]
  split
  · rename_i d hd
    cases hc.symm.trans hd
    rfl
  · rename_i hd
    cases hc.symm.trans hd

theorem path_subset_parts (s : Shape) : ∀ c ∈ s.path key, c ∈ s.parts := by
  induction s using induct with
  | leaf p l => simp
  | branch p keys kids ih =>
    intro c hc
    cases hd : kids[Branch.slotOf ⟨keys, kids⟩ key]? with
    | none =>
      rw [path] at hc
      split at hc
      · rename_i d hd'
        cases hd.symm.trans hd'
      · rw [List.mem_singleton.1 hc]
        exact self_mem_parts _
    | some d =>
      rw [path_branch hd] at hc
      rw [parts_branch]
      rcases List.mem_cons.1 hc with rfl | hc
      · exact List.mem_cons_self
      · have hmem := List.mem_of_getElem? hd
        exact List.mem_cons_of_mem _ (List.mem_flatMap.2 ⟨d, hmem, ih d hmem c hc⟩)

/-- A lookup need not leave the path: the leaf at its end has the key, or no separator on it equals the
key. -/
def Direct (key : UInt64) (s : Shape) : Prop :=
  (∃ p l, (s.path key).getLast? = some (leaf p l) ∧ key ∈ l.keys) ∨
    ∀ p keys kids, branch p keys kids ∈ s.path key → key ∉ keys

/-- A node as it is in memory under the number `id` when of its children only the one on the path has
been read, under the next number. -/
def opened (key : UInt64) (id : NodeId) : Shape → NodeOf Slot
  | leaf _ l => .leaf l
  | branch _ keys kids => .branch ⟨keys, (kids.map (Slot.unloaded ∘ page)).set
      (Branch.slotOf ⟨keys, kids⟩ key) (.loaded (id + 1))⟩

/-- With the bounds `lo` and `hi` around the whole tree the part `c` lies between `a` and `b`: the
separators next to it in its parent or, where there is none, the bounds of the parent. -/
inductive Lies : UInt64 → UInt64 → Shape → UInt64 → UInt64 → Shape → Prop where
  | top (lo hi : UInt64) (s : Shape) : Lies lo hi s lo hi s
  | inside {lo hi a b : UInt64} {p : PageNo} {keys : List UInt64} {kids : List Shape} {c d : Shape}
      {i : Nat} : kids[i]? = some c → Lies ((lo :: keys).getD i hi) (keys.getD i hi) c a b d →
      Lies lo hi (branch p keys kids) a b d

/-- The bounds of the part that stands on a page admit the key. -/
def Admits (key : UInt64) (s : Shape) (p : PageNo) : Prop :=
  ∃ a b c, Lies 0 topKey s a b c ∧ c.page = p ∧ a ≤ key ∧ key ≤ b

/-- Every key is routed to a child. -/
theorem Ordered.exists_routed {lo hi : UInt64} (h : (Shape.branch p keys kids).Ordered lo hi)
    (key : UInt64) :
    ∃ c, kids[Branch.slotOf ⟨keys, kids⟩ key]? = some c ∧ ∃ a b, c.Ordered a b := by
  have hlen := h.separated.1
  have hslot : Branch.slotOf ⟨keys, kids⟩ key ≤ keys.length := Branch.slotOf_le _ key
  have hc : kids[Branch.slotOf ⟨keys, kids⟩ key]? = some _ := List.getElem?_eq_getElem (by omega)
  obtain ⟨a, b, -, -, hbetween⟩ := (ordered_branch.1 h).mem (List.mem_of_getElem? hc)
  exact ⟨_, hc, a, b, hbetween⟩

theorem getLast?_path_branch (hc : kids[Branch.slotOf ⟨keys, kids⟩ key]? = some c) :
    ((branch p keys kids).path key).getLast? = (c.path key).getLast? := by
  rw [path_branch hc]
  cases hpath : c.path key with
  | nil => cases c <;> simp [path] at hpath
  | cons d ds => rw [List.getLast?_cons_cons]

/-- A path comes to its end at a leaf. -/
theorem Ordered.getLast?_path {lo hi : UInt64} (h : s.Ordered lo hi) (key : UInt64) :
    ∃ p l, (s.path key).getLast? = some (Shape.leaf p l) := by
  induction s using induct generalizing lo hi with
  | leaf p l => exact ⟨p, l, by simp⟩
  | branch p keys kids ih =>
    obtain ⟨c, hc, a, b, hbetween⟩ := h.exists_routed key
    obtain ⟨q, l, hlast⟩ := ih c (List.mem_of_getElem? hc) hbetween
    exact ⟨q, l, (getLast?_path_branch hc).trans hlast⟩

theorem Direct.kid (h : (branch p keys kids).Direct key)
    (hc : kids[Branch.slotOf ⟨keys, kids⟩ key]? = some c) : c.Direct key := by
  rw [Direct, getLast?_path_branch hc, path_branch hc] at h
  rcases h with hleaf | h
  · exact .inl hleaf
  · exact .inr fun q ks cs hmem => h q ks cs (List.mem_cons_of_mem _ hmem)

/-- Where the path suffices the first child that is searched decides the search. -/
theorem Direct.find?_eq (h : (branch p keys kids).Direct key)
    (hc : kids[Branch.slotOf ⟨keys, kids⟩ key]? = some c) {lo hi : UInt64} (hordered : c.Ordered lo hi) :
    c.find? key ≠ none ∨ Branch.slotsFor ⟨keys, kids⟩ key = [Branch.slotOf ⟨keys, kids⟩ key] := by
  rcases h with ⟨q, l, hleaf, hkey⟩ | h
  · apply Or.inl
    intro hnone
    rw [getLast?_path_branch hc] at hleaf
    obtain ⟨e, he, rfl⟩ := List.mem_map.1 hkey
    have hpart := c.path_subset_parts _ (List.mem_of_getLast? hleaf)
    have hentry : e ∈ c.entries := by
      rw [entries]
      exact List.mem_flatMap.2 ⟨(q, l), List.mem_filterMap.2 ⟨_, hpart, rfl⟩, he⟩
    exact hordered.find?_eq_none hnone e hentry rfl
  · apply Or.inr
    obtain ⟨rest, hslots, hrest⟩ := Branch.slotsFor_eq ⟨keys, kids⟩ key
    rw [hslots, hrest (h p keys kids (by simp [path]))]

/-- A child that is searched lies within bounds that admit the key if its parent does. -/
theorem bounds_of_mem_slotsFor {lo hi : UInt64} (hsorted : keys.Pairwise (· ≤ ·)) (hlo : lo ≤ key)
    (hhi : key ≤ hi) {i : Nat} (hi' : i ∈ Branch.slotsFor ⟨keys, kids⟩ key) :
    (lo :: keys).getD i hi ≤ key ∧ key ≤ keys.getD i hi := by
  obtain ⟨hle, hleft, hright⟩ := (Branch.mem_slotsFor hsorted).1 hi'
  constructor
  · cases i with
    | zero => simpa using hlo
    | succ i =>
      simp only at hle
      rw [List.getD_cons_succ, List.getD_eq_getElem?_getD, List.getElem?_eq_getElem (by omega)]
      exact hleft _ (List.mem_take_iff_getElem.2 ⟨i, by simp only; omega, rfl⟩)
  · by_cases hlt : i < keys.length
    · rw [List.getD_eq_getElem?_getD, List.getElem?_eq_getElem hlt]
      exact hright _ (by simp only [List.drop_eq_getElem_cons hlt]; exact List.mem_cons_self)
    · rw [List.getD_eq_getElem?_getD, List.getElem?_eq_none (Nat.not_lt.1 hlt)]
      exact hhi

end Shape

namespace Tree

variable {t t' u : Tree} {s c : Shape} {P : Pages} {id : Nat} {p q : PageNo} {n : Node}
  {key : UInt64} {b : Branch Slot} {slot : Nat} {root : PageNo}

/-! ## One path -/

/-- Going down to a child that has not been read. -/
theorem child_unread (ht : t.Mirrors P) (hr : t.resident.nodes[id]? = some ⟨p, .branch b⟩)
    (hslot : b.children[slot]? = some (.unloaded q)) (hunread : ∀ j, t.resident.pageOf? j ≠ some q)
    (hn : P q = some n) : ∃ t', (child id slot).result t = (.ok t.resident.size, t') ∧
      t'.resident = (t.resident.add ⟨q, n.map .unloaded⟩).put id
        (.branch { b with children := b.children.set slot (.loaded t.resident.size) }) := by
  have hindex : t.resident.byPage[q]? = none := by
    rw [Option.eq_none_iff_forall_ne_some]
    intro j hj
    exact hunread j ((ht.indexed q j).1 hj)
  have hread : (onStore (readNode q)).result t = (.ok n, t) :=
    onStore_ok (readNode_ok (ht.unread q n hn hunread))
  have hresolve : (resolve q).result t =
      (.ok t.resident.size, { t with resident := t.resident.add ⟨q, n.map .unloaded⟩ }) := by
    rw [resolve, Call.result_bind_ok (Call.result_get t)]
    simp only [hindex]
    rw [Call.result_bind_ok hread, keep_ok]
  have hlt : id ≠ t.resident.size :=
    Nat.ne_of_lt (Arena.lt_size_of_pageOf? (Arena.pageOf?_of_getElem? hr))
  have hheld : (t.resident.add ⟨q, n.map .unloaded⟩).nodes[id]? = some ⟨p, .branch b⟩ := by
    rw [Arena.getElem?_add, if_neg hlt, hr]
  refine ⟨{ t with
      resident := (t.resident.add ⟨q, n.map .unloaded⟩).put id
        (.branch { b with children := b.children.set slot (.loaded t.resident.size) }) }, ?_, rfl⟩
  rw [child, Call.result_bind_ok (held_ok hr)]
  simp only [hslot]
  rw [Call.result_bind_ok hresolve, Call.result_bind_ok (held_ok hheld)]
  rfl

/-- The last node in memory is the top of this tree and knows its children by their pages only. Nothing
else of the tree is in memory. -/
structure Unopened (t : Tree) (id : Nat) (s : Shape) : Prop where
  size : t.resident.size = id + 1
  held : t.resident.nodes[id]? = some ⟨s.page, s.node.map .unloaded⟩
  distinct : s.pages.Nodup
  unread : ∀ j q, j ≠ id → t.resident.pageOf? j = some q → q ∉ s.pages

theorem Unopened.branch {keys : List UInt64} {kids : List Shape}
    (h : t.Unopened id (.branch p keys kids)) :
    t.resident.nodes[id]? = some ⟨p, .branch ⟨keys, kids.map (Slot.unloaded ∘ Shape.page)⟩⟩ := by
  rw [h.held]
  simp [Shape.node, NodeOf.map, Branch.map]

/-- Neither a child nor anything below it is in memory. -/
theorem Unopened.kid {keys : List UInt64} {kids : List Shape} (h : t.Unopened id (.branch p keys kids))
    (hc : c ∈ kids) : p ∉ c.pages ∧ c.pages.Nodup ∧
      ∀ j q, t.resident.pageOf? j = some q → q ∉ c.pages := by
  obtain ⟨cs, ds, rfl⟩ := List.append_of_mem hc
  obtain ⟨⟨hp, -⟩, hdistinct, -⟩ := Shape.distinct_kids h.distinct
  refine ⟨hp, hdistinct, ?_⟩
  intro j q hj hq
  by_cases hid : j = id
  · rw [hid, Arena.pageOf?_of_getElem? h.branch] at hj
    cases hj
    exact hp hq
  · exact h.unread j q hid hj (by simp [hq])

/-- Opening the child on the path leaves every other node as it is. -/
theorem Unopened.child {keys : List UInt64} {kids : List Shape}
    (h : t.Unopened id (.branch p keys kids)) (ht : t.Mirrors P)
    (hknows : t.Knows P id (.branch p keys kids))
    (hc : kids[Branch.slotOf ⟨keys, kids⟩ key]? = some c) :
    ∃ t', (child id (Branch.slotOf ⟨keys, kids⟩ key)).result t = (.ok (id + 1), t') ∧
      t.Browsed P t' ∧ t'.Knows P (id + 1) c ∧ t'.Unopened (id + 1) c ∧
      ∀ j, j ≠ id + 1 → t'.resident.nodes[j]? = if j = id then
        some ⟨p, (Shape.branch p keys kids).opened key id⟩ else t.resident.nodes[j]? := by
  have hmem := List.mem_of_getElem? hc
  obtain ⟨hp, hdistinct, hunread⟩ := h.kid hmem
  have hslot : (kids.map (Slot.unloaded ∘ Shape.page))[Branch.slotOf ⟨keys, kids⟩ key]? =
      some (.unloaded c.page) := by
    rw [List.getElem?_map, hc]
    rfl
  obtain ⟨t', hrun, hres⟩ := child_unread ht h.branch hslot
    (fun j hj => hunread j c.page hj c.page_mem_pages) ((Shape.on_branch.1 hknows.on).2 c hmem).top
  obtain ⟨cid, u, hrun', hread, hknows'⟩ := hknows.child ht hc
  cases hrun.symm.trans hrun'
  rw [h.size] at hres hrun hknows'
  have hpages : ∀ j, j ≠ id + 1 → t'.resident.pageOf? j = t.resident.pageOf? j := by
    intro j hj
    rw [hres, Arena.pageOf?_put, Arena.pageOf?, Arena.getElem?_add, h.size, if_neg hj, Arena.pageOf?]
  refine ⟨t', hrun, hread, hknows', ⟨?_, ?_, hdistinct, ?_⟩, ?_⟩
  · have hpush : (t.resident.add ⟨c.page, c.node.map .unloaded⟩).size = id + 1 + 1 := by
      rw [Arena.size, Arena.add, Array.size_push, ← Arena.size, h.size]
    rw [hres, Arena.size, Arena.put, Array.size_modify, ← Arena.size, hpush]
  · rw [hres, Arena.getElem?_put, Arena.getElem?_add, h.size, if_neg (Nat.succ_ne_self id), if_pos rfl]
  · intro j q hj hq
    rw [hpages j hj] at hq
    exact hunread j q hq
  · intro j hj
    rw [hres, Arena.getElem?_put, Arena.getElem?_add, h.size, if_neg hj]
    by_cases hid : j = id
    · rw [if_pos hid, if_pos hid, hid, h.branch]
      rfl
    · rw [if_neg hid, if_neg hid]

theorem findSomeM?_first {α β : Type} {f : α → Call Tree (Option β)} {x : α} {xs : List α}
    {r : Option β} (hx : (f x).result t = (.ok r, t')) (h : r ≠ none ∨ xs = []) :
    ((x :: xs).findSomeM? f).result t = (.ok r, t') := by
  rw [List.findSomeM?_cons, Call.result_bind_ok hx]
  cases r with
  | some y => rfl
  | none =>
    obtain rfl := h.resolve_left (not_not_intro rfl)
    rfl

/-- A lookup that need not leave the path takes the nodes on it into memory, one after the other, and
no others. -/
theorem lookupBelow_path {limit : Nat} (hlim : s.parts.length ≤ limit) (ht : t.Mirrors P)
    (hknows : t.Knows P id s) (h : t.Unopened id s) (hdirect : s.Direct key) :
    ∃ t', (lookupBelow key limit id).result t = (.ok (s.find? key), t') ∧
      ∀ j, t'.resident.nodes[j]? = if j < id then t.resident.nodes[j]? else
        ((s.path key)[j - id]?).map fun c => ⟨c.page, c.opened key j⟩ := by
  induction s using Shape.induct generalizing limit t id with
  | leaf p l =>
    obtain ⟨limit, rfl⟩ := Shape.exists_limit hlim
    rw [lookupBelow, Call.result_bind_ok (held_ok h.held), Shape.find?_leaf]
    refine ⟨t, rfl, ?_⟩
    intro j
    rw [Shape.path_leaf]
    rcases Nat.lt_trichotomy j id with hj | rfl | hj
    · rw [if_pos hj]
    · rw [if_neg (Nat.lt_irrefl j), Nat.sub_self, h.held]
      rfl
    · have hsize : t.resident.nodes.size = id + 1 := h.size
      rw [if_neg (Nat.lt_asymm hj), Array.getElem?_eq_none (by omega),
        List.getElem?_eq_none (by simp; omega)]
      rfl
  | branch p keys kids ih =>
    obtain ⟨limit, rfl⟩ := Shape.exists_limit hlim
    obtain ⟨lo, hi, hordered⟩ := hknows.ordered
    obtain ⟨c, hc, a, b, hbetween⟩ := hordered.exists_routed key
    have hmem := List.mem_of_getElem? hc
    obtain ⟨rest, hslots, -⟩ := Branch.slotsFor_eq ⟨keys, kids⟩ key
    have hrest := hdirect.find?_eq hc hbetween
    rw [hslots, List.cons_eq_cons, and_iff_right rfl] at hrest
    obtain ⟨t₁, hchild, hread, hknows₁, h₁, hnodes₁⟩ := h.child ht hknows hc
    obtain ⟨t₂, hbelow, hnodes₂⟩ := ih c hmem (Shape.length_parts_kid hlim hmem) hread.mirrors hknows₁
      h₁ (hdirect.kid hc)
    refine ⟨t₂, ?_, ?_⟩
    · have hfirst : (child id (Branch.slotOf ⟨keys, kids⟩ key) >>= lookupBelow key limit).result t =
          (.ok (c.find? key), t₂) := by rw [Call.result_bind_ok hchild, hbelow]
      have hfind : (Shape.branch p keys kids).find? key = c.find? key := by
        rw [Shape.find?_branch, hslots, List.findSome?_cons, hc, Option.bind_some]
        cases hv : c.find? key with
        | some v => rfl
        | none =>
          rw [hrest.resolve_left (not_not_intro hv)]
          rfl
      have hsearch := findSomeM?_first (f := fun slot => child id slot >>= lookupBelow key limit)
        hfirst hrest
      rw [← hslots] at hsearch
      rw [lookupBelow, Call.result_bind_ok (held_ok h.branch), hfind]
      exact hsearch
    · intro j
      rw [hnodes₂, Shape.path_branch hc]
      rcases Nat.lt_trichotomy j id with hj | rfl | hj
      · rw [if_pos (by omega), hnodes₁ j (by omega), if_neg (by omega), if_pos hj]
      · rw [if_pos (by omega), hnodes₁ j (by omega), if_pos rfl, if_neg (by omega), Nat.sub_self]
        rfl
      · rw [if_neg (by omega), if_neg (by omega), show j - id = (j - (id + 1)) + 1 by omega,
          List.getElem?_cons_succ]

/-! ## All that is read -/

/-- Every node in memory is on one of these pages. -/
def Within (Q : PageNo → Prop) (t : Tree) : Prop := ∀ j q, t.resident.pageOf? j = some q → Q q

/-- Only the node that the call leads to can be new in memory. -/
def Takes (c : Call Tree NodeId) (t : Tree) : Prop :=
  c.Ends t (fun id t' => ∀ j q, t'.resident.pageOf? j = some q →
    t.resident.pageOf? j = some q ∨ t'.resident.pageOf? id = some q) fun _ _ => True

theorem resolve_takes (p : PageNo) (t : Tree) : Takes (resolve p) t := by
  unfold Takes resolve
  apply Call.Ends.bind_ok (Call.result_get t)
  cases t.resident.byPage[p]? with
  | some id => exact .pure fun j q hj => .inl hj
  | none =>
    have hread : (readNode p).Ends t.store (fun _ _ => True) fun _ _ => True :=
      ⟨fun _ => trivial, fun _ => trivial⟩
    apply hread.onPart.mono (fun _ _ h => h) (fun _ _ _ => trivial) |>.bind
    rintro n _ ⟨store, rfl, -⟩
    apply Call.Ends.of_ok (keep_ok _)
    intro j q hj
    by_cases hnew : j = t.resident.size
    · exact .inr (hnew ▸ hj)
    · rw [Arena.pageOf?, Arena.getElem?_add, if_neg hnew] at hj
      exact .inl hj

theorem held_ends (id : Nat) (t : Tree) :
    (held id).Ends t (fun _ t' => t' = t) fun _ _ => True := by
  unfold held
  apply Call.Ends.bind_ok (Call.result_get t)
  cases t.resident.nodes[id]? with
  | none => exact .throw trivial
  | some r => exact .pure rfl

theorem child_takes (id slot : Nat) (t : Tree) : Takes (child id slot) t := by
  unfold Takes child
  apply (held_ends id t).bind
  rintro r _ rfl
  cases r.node with
  | leaf l => exact .throw trivial
  | branch b =>
    dsimp only
    cases b.children[slot]? with
    | none => exact .throw trivial
    | some x =>
      cases x with
      | loaded c => exact .pure fun j q hj => .inl hj
      | unloaded p =>
        apply (resolve_takes p _).bind
        intro c t₁ h₁
        apply (held_ends id t₁).bind
        rintro r _ rfl
        apply Call.Ends.bind_ok (put_result _)
        apply Call.Ends.pure
        intro j q hj
        rw [Arena.pageOf?_put] at hj ⊢
        exact h₁ j q hj

/-- A lookup reads only nodes whose bounds admit the key. -/
theorem lookupBelow_within {Q : PageNo → Prop} {lo hi : UInt64} {limit : Nat} (ht : t.Mirrors P)
    (hknows : t.Knows P id s) (hordered : s.Ordered lo hi) (hlo : lo ≤ key) (hhi : key ≤ hi)
    (hQ : ∀ {a b : UInt64} {c : Shape}, s.Lies lo hi a b c → a ≤ key → key ≤ b → Q c.page)
    (h : t.Within Q) : (lookupBelow key limit id).Ends t (fun _ t' => t.Browsed P t' ∧ t'.Within Q)
      fun _ _ => True := by
  induction s using Shape.induct generalizing limit t id lo hi with
  | leaf p l =>
    cases limit with
    | zero => exact .throw trivial
    | succ limit =>
      have hr := ht.leaf hknows.here (Shape.on_leaf.1 hknows.on)
      unfold lookupBelow
      apply Call.Ends.bind_ok (held_ok hr)
      exact .pure ⟨.refl ht, h⟩
  | branch p keys kids ih =>
    cases limit with
    | zero => exact .throw trivial
    | succ limit =>
      obtain ⟨slots, hr, -, -⟩ := ht.branch hknows.here (Shape.on_branch.1 hknows.on).1
      obtain ⟨hlen, hsorted, -⟩ := hordered.separated
      unfold lookupBelow
      apply Call.Ends.bind_ok (held_ok hr)
      apply Call.Ends.findSomeM? (fun u => t.Browsed P u ∧ u.Within Q) ⟨.refl ht, h⟩
      rintro i hslot u ⟨hread, hu⟩
      have hle := Branch.le_of_mem_slotsFor hslot
      obtain ⟨c, hc⟩ : ∃ c, kids[i]? = some c :=
        ⟨_, List.getElem?_eq_getElem (by simp only at hle; omega)⟩
      have hbounds := @Shape.bounds_of_mem_slotsFor key keys kids lo hi hsorted hlo hhi i hslot
      obtain ⟨cid, u', hrun, hread', hknows'⟩ := (hknows.browse ht hread).child hread.mirrors hc
      have hwithin : u'.Within Q := by
        intro j q hj
        rcases (child_takes id i u).good_of_ok hrun j q hj with hold | hnew
        · exact hu j q hold
        · rw [hknows'.here] at hnew
          cases hnew
          exact hQ (.inside hc (.top _ _ _)) hbounds.1 hbounds.2
      have hkid : c.Ordered ((lo :: keys).getD i hi) (keys.getD i hi) := by
        cases hordered with
        | branch _ _ hkids => exact hkids i c hc
      apply Call.Ends.bind_ok hrun
      apply (ih c (List.mem_of_getElem? hc) hread'.mirrors hknows' hkid hbounds.1 hbounds.2
        (fun hlies => hQ (.inside hc hlies)) hwithin).mono
      · rintro answer u'' ⟨hread'', hwithin'⟩
        exact ⟨hread.trans (hread'.trans hread''), hwithin'⟩
      · exact fun _ _ _ => trivial

/-! ## Lookups on a handle -/

/-- In memory are the nodes of a path, in this order, and the slots that have become loaded are those
that lead from each of them to the next. -/
structure HoldsPath (key : UInt64) (path : List Shape) (t : Tree) : Prop where
  resident : t.resident.size = path.length
  pages : ∀ id, t.resident.pageOf? id = (path[id]?).map Shape.page
  loaded : ∀ (id slot c : Nat) (p : PageNo) (b : Branch Slot),
    t.resident.nodes[id]? = some ⟨p, .branch b⟩ →
      (b.children[slot]? = some (.loaded c) ↔ slot = b.slotOf key ∧ c = id + 1)

/-- Of the children of an opened node only the one on the path is loaded. -/
theorem loaded_opened {b : Branch Slot} (hs : ∃ lo hi, s.Ordered lo hi) (hb : s.opened key id = .branch b)
    (slot c : Nat) : b.children[slot]? = some (.loaded c) ↔ slot = b.slotOf key ∧ c = id + 1 := by
  cases s with
  | leaf p l => cases hb
  | branch p keys kids =>
    cases hb
    obtain ⟨lo, hi, hordered⟩ := hs
    have hlen := hordered.separated.1
    have hslot : Branch.slotOf (⟨keys, kids⟩ : Branch Shape) key ≤ keys.length := Branch.slotOf_le _ key
    have hsame : ∀ slots : List Slot, Branch.slotOf ⟨keys, slots⟩ key =
        Branch.slotOf (⟨keys, kids⟩ : Branch Shape) key := fun _ => rfl
    rw [hsame, List.getElem?_set, List.length_map]
    by_cases heq : Branch.slotOf ⟨keys, kids⟩ key = slot
    · rw [if_pos heq, if_pos (by omega)]
      simp [heq, eq_comm]
    · rw [if_neg heq, List.getElem?_map]
      have hne : slot ≠ Branch.slotOf ⟨keys, kids⟩ key := fun he => heq he.symm
      cases kids[slot]? <;> simp [hne]

theorem HoldsPath.of_nodes {path : List Shape} (hs : ∀ c ∈ path, ∃ lo hi, c.Ordered lo hi)
    (h : ∀ id : Nat, t.resident.nodes[id]? =
      (path[id]?).map fun c => ⟨c.page, c.opened key id⟩) : t.HoldsPath key path := by
  constructor
  · have hall : path[t.resident.nodes.size]? = none := by
      rw [← Option.map_eq_none_iff, ← h, Array.getElem?_eq_none (Nat.le_refl _)]
    have hnone : t.resident.nodes[path.length]? = none := by
      rw [h, List.getElem?_eq_none (Nat.le_refl _)]
      rfl
    exact Nat.le_antisymm (Array.getElem?_eq_none_iff.1 hnone) (List.getElem?_eq_none_iff.1 hall)
  · intro id
    rw [Arena.pageOf?, h, Option.map_map]
    rfl
  · intro id slot c p b hr
    rw [h] at hr
    obtain ⟨d, hd, hopened⟩ := Option.map_eq_some_iff.1 hr
    rw [Resident.mk.injEq] at hopened
    exact loaded_opened (hs d (List.mem_of_getElem? hd)) hopened.2 slot c

/-- A lookup on a handle that is fresh. -/
theorem Recalls.get?_path (h : t.Recalls P s) (hfresh : t.Unopened t.rootId s) (hroot : t.rootId = 0)
    (hdirect : s.Direct key) :
    ∃ t', (get? key).result t = (.ok (s.find? key), t') ∧ t'.HoldsPath key (s.path key) := by
  obtain ⟨lo, hi, hordered⟩ := h.ordered
  obtain ⟨t', hrun, hnodes⟩ := lookupBelow_path h.length_parts_le h.mirrors h.knows hfresh hdirect
  refine ⟨t', ?_, .of_nodes (fun c hc => hordered.part (s.path_subset_parts c hc)) ?_⟩
  · rw [get?, Call.result_bind_ok (Call.result_get t), hrun]
  · intro id
    rw [hnodes, hroot, if_neg (Nat.not_lt_zero id), Nat.sub_zero]

/-- Whatever a handle held before, a lookup takes in only nodes whose bounds admit the key. -/
theorem Represents.get?_within (h : t.Represents s) (key : UInt64) : ∃ answer t',
    (get? key).result t = (.ok answer, t') ∧ ∀ id p, t'.resident.pageOf? id = some p →
      (∃ j, t.resident.pageOf? j = some p) ∨ s.Admits key p := by
  obtain ⟨t', hrun, -⟩ := h.get?_ok key
  have hbelow := hrun
  rw [get?, Call.result_bind_ok (Call.result_get t)] at hbelow
  have hgood := (lookupBelow_within h.recalls.mirrors h.recalls.knows h.stands.ordered
    UInt64.zero_le (le_topKey key)
    (Q := fun p => (∃ j, t.resident.pageOf? j = some p) ∨ s.Admits key p)
    (fun hlies ha hb => .inr ⟨_, _, _, hlies, rfl, ha, hb⟩) fun j q hj => .inl ⟨j, hj⟩).good_of_ok
      hbelow
  exact ⟨_, t', hrun, hgood.2⟩

/-- A fresh handle holds the root alone, unopened. -/
theorem Represents.load_unopened (h : t.Represents s) : ∃ u,
    (load t.root).result t.store = (.ok u, t.store) ∧ u.Represents s ∧ u.rootId = 0 ∧
      u.Unopened 0 s := by
  obtain ⟨u, hload, -, -, hrep⟩ := h.refetch
  have hread := load_read h.stands.on.top
  rw [h.page] at hread
  cases hload.symm.trans hread
  refine ⟨_, hload, hrep, rfl, rfl, ?_, h.stands.distinct, ?_⟩
  · rw [Arena.getElem?_add, h.page]
    rfl
  · intro j q hj hq
    have hlt := Arena.lt_size_of_pageOf? hq
    exact absurd (Nat.lt_one_iff.1 hlt) hj

/-- A lookup on a fresh handle reads the path of the key and, where it need not leave the path, nothing
else; on any handle it reads only nodes whose bounds admit the key. -/
theorem lookup_reads_path (h : Reached root t) : ∃ s, Displays root t s ∧
    (∀ key, ∃ p l, (s.path key).getLast? = some (.leaf p l)) ∧
    (∀ key, ∃ answer t', (get? key).result t = (.ok answer, t') ∧
      ∀ id p, t'.resident.pageOf? id = some p →
        (∃ j, t.resident.pageOf? j = some p) ∨ s.Admits key p) ∧
    ∃ u, (load root).result t.store = (.ok u, t.store) ∧ ∀ key, ∃ answer u',
      (get? key).result u = (.ok answer, u') ∧
      (s.Direct key → u'.HoldsPath key (s.path key)) ∧
      ∀ id p, u'.resident.pageOf? id = some p → s.Admits key p := by
  obtain ⟨rfl, s, hrep⟩ := h.represents
  obtain ⟨u, hload, hrep', hroot, hfresh⟩ := hrep.load_unopened
  refine ⟨s, hrep.displays, hrep.stands.ordered.getLast?_path, hrep.get?_within, u, hload, ?_⟩
  intro key
  obtain ⟨answer, u', hrun, hwithin⟩ := hrep'.get?_within key
  refine ⟨answer, u', hrun, ?_, ?_⟩
  · intro hdirect
    rw [← hroot] at hfresh
    obtain ⟨u'', hrun', hholds⟩ := hrep'.recalls.get?_path hfresh hroot hdirect
    cases hrun.symm.trans hrun'
    exact hholds
  · intro id p hp
    rcases hwithin id p hp with ⟨j, hj⟩ | hadmits
    · have hlt := Arena.lt_size_of_pageOf? hj
      rw [hfresh.size] at hlt
      obtain rfl : j = 0 := Nat.lt_one_iff.1 hlt
      rw [Arena.pageOf?_of_getElem? hfresh.held] at hj
      cases hj
      exact ⟨0, topKey, s, .top _ _ _, rfl, UInt64.zero_le, le_topKey key⟩
    · exact hadmits

/-- Four entries in a new tree lie in two leaves under a root, the left one with a link to the right. -/
theorem exists_siblings : ∃ root t p q next, Reached root t ∧ t.Represents (.branch root [3]
    [.leaf p ⟨[⟨1, .empty⟩, ⟨2, .empty⟩], some q⟩, .leaf q ⟨[⟨3, .empty⟩, ⟨4, .empty⟩], next⟩]) := by
  have hempty : (ByteArray.empty).size ≤ maxValueSize := by decide
  obtain ⟨root, t, ⟨es, next⟩, hreached, hrep, hcount, rfl⟩ :=
    exists_three Header.sound_fresh (by decide)
  obtain ⟨fs, g, ws, r, t', hrun, hins, hwrote, hentered⟩ := hrep.insert_ok hempty 4
  have hroom : fs.length ≤ 1 → t'.store.HasRoom := by
    intro hlen
    rw [PageStore.hasRoom_iff (hwrote.sound hrep.coherent.sound),
      hwrote.pageCount_eq hrep.coherent.sound, hcount]
    have hzero : Header.fresh.pageCount = 0 := by decide
    simp only [firstPageOffset, headerSize, pageSize, UInt32.size, hzero]
    omega
  have hgrown : Leaf.insert ⟨[⟨1, .empty⟩, ⟨2, .empty⟩, ⟨3, .empty⟩], next⟩ ⟨4, .empty⟩ =
      ⟨[⟨1, .empty⟩, ⟨2, .empty⟩, ⟨3, .empty⟩, ⟨4, .empty⟩], next⟩ := rfl
  have hpoint : Leaf.breakPoint? [1, 2, 3, 4] = some 2 := by decide
  cases hins with
  | whole h =>
    cases h with
    | leaf h =>
      cases h with
      | fits hfits => cases hfits
  | raised h =>
    cases h with
    | leaf h =>
      cases h with
      | @splits q _ _ _ _ hsplit =>
        rw [hgrown, Leaf.split?] at hsplit
        simp only [Leaf.keys, List.map_cons, List.map_nil, hpoint] at hsplit
        cases hsplit
        obtain ⟨rfl, hrep'⟩ := hentered
        exact ⟨_, t', _, q, next, hreached.request (.insert 4 .empty) hrun, hrep'⟩
  | stopped h =>
    cases h with
    | leaf h => cases h
    | full => exact absurd (hroom (Nat.zero_le 1)) hentered.2.1
  | full h =>
    cases h with
    | leaf h =>
      cases h
      exact absurd (hroom (Nat.le_refl 1)) hentered.2.1

theorem exists_four : ∃ root t s, Reached root t ∧ t.Represents s ∧ s.pages.length = 3 ∧
    ∃ p l, s.path 4 = [s, .leaf p l] ∧ 4 ∈ l.keys := by
  obtain ⟨root, t, p, q, next, hreached, hrep⟩ := exists_siblings
  refine ⟨root, t, _, hreached, hrep, by simp, q, ⟨[⟨3, .empty⟩, ⟨4, .empty⟩], next⟩, ?_, ?_⟩
  · rw [Shape.path_branch rfl, Shape.path_leaf]
  · simp [Leaf.keys]

/-- Of the three nodes of that tree a lookup reads two. -/
theorem lookup_reads_path_of_four : ∃ root t s u u' answer, Reached root t ∧ Displays root t s ∧
    s.pages.length = 3 ∧ (load root).result t.store = (.ok u, t.store) ∧
    (get? 4).result u = (.ok answer, u') ∧ s.Direct 4 ∧ u'.HoldsPath 4 (s.path 4) ∧
    u'.resident.size = 2 := by
  obtain ⟨root, t, s, hreached, hrep, hpages, p, l, hpath, hkey⟩ := exists_four
  obtain ⟨s', hdisplays, -, -, u, hload, hget⟩ := lookup_reads_path hreached
  obtain rfl : s' = s := by
    apply hdisplays.on.unique hrep.stands.on
    rw [hdisplays.page, hrep.page, hreached.represents.1]
  obtain ⟨answer, u', hrun, hholds, -⟩ := hget 4
  have hdirect : s'.Direct 4 := .inl ⟨p, l, by rw [hpath]; rfl, hkey⟩
  refine ⟨root, t, s', u, u', answer, hreached, hdisplays, hpages, hload, hrun, hdirect,
    hholds hdirect, ?_⟩
  rw [(hholds hdirect).resident, hpath]
  rfl

end Tree

end PagedTree
