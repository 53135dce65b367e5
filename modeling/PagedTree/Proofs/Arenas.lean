import PagedTree.Tree.Arena

/-! # The laws of an arena

What the page of a node, the node under a number and the node as it goes onto its page are after each
change of an arena. Nodes keep their numbers and, but for the one that moves, their pages.
-/
namespace PagedTree

theorem mapM_eq_some {α β : Type} {f : α → Option β} {xs : List α} {ys : List β} :
    xs.mapM f = some ys ↔ xs.map f = ys.map some := by
  induction xs generalizing ys with
  | nil => cases ys <;> simp
  | cons x xs ih =>
    rw [List.mapM_cons]
    cases ys with
    | nil => cases f x <;> cases xs.mapM f <;> simp
    | cons y ys =>
      rw [List.map_cons, List.map_cons, List.cons.injEq, ← ih]
      cases f x <;> cases xs.mapM f <;> simp

namespace Arena

variable {a : Arena} {id j : NodeId} {p q : PageNo} {r : Resident} {n : NodeOf Slot}

/-- The index leads from each page to the node on it and to no other. -/
def Indexed (a : Arena) : Prop := ∀ p id, a.byPage[p]? = some id ↔ a.pageOf? id = some p

theorem Indexed.inj (h : a.Indexed) (hid : a.pageOf? id = some p) (hj : a.pageOf? j = some p) :
    id = j := Option.some.inj (((h p id).2 hid).symm.trans ((h p j).2 hj))

theorem lt_size_of_pageOf? (h : a.pageOf? id = some p) : id < a.size := by
  obtain ⟨r, hr, -⟩ := Option.map_eq_some_iff.1 h
  exact (Array.getElem?_eq_some_iff.1 hr).1

theorem exists_of_pageOf? (h : a.pageOf? id = some p) : ∃ r, a.nodes[id]? = some r ∧ r.page = p :=
  Option.map_eq_some_iff.1 h

theorem pageOf?_of_getElem? (h : a.nodes[id]? = some r) : a.pageOf? id = some r.page := by
  rw [pageOf?, h, Option.map_some]

/-! ## Taking in a node -/

theorem getElem?_add : (a.add r).nodes[id]? = if id = a.size then some r else a.nodes[id]? :=
  Array.getElem?_push

theorem pageOf?_add_self : (a.add r).pageOf? a.size = some r.page := by
  rw [pageOf?, getElem?_add, if_pos rfl, Option.map_some]

theorem pageOf?_add (h : a.pageOf? id = some p) : (a.add r).pageOf? id = some p := by
  rwa [pageOf?, getElem?_add, if_neg (Nat.ne_of_lt (lt_size_of_pageOf? h))]

theorem Indexed.add (h : a.Indexed) (hnew : ∀ id, a.pageOf? id ≠ some r.page) :
    (a.add r).Indexed := by
  intro p id
  have hbyPage : (a.add r).byPage[p]? = if r.page = p then some a.size else a.byPage[p]? := by
    simp only [Arena.add, Std.HashMap.getElem?_insert, beq_iff_eq]
  rw [hbyPage]
  by_cases hid : id = a.size
  · subst hid
    rw [pageOf?_add_self]
    by_cases hp : r.page = p
    · simp [hp]
    · rw [if_neg hp]
      constructor
      · intro hold
        exact absurd (lt_size_of_pageOf? ((h p a.size).1 hold)) (Nat.lt_irrefl _)
      · simp [hp]
  · have hold : (a.add r).pageOf? id = a.pageOf? id := by
      rw [pageOf?, getElem?_add, if_neg hid, pageOf?]
    rw [hold]
    by_cases hp : r.page = p
    · subst hp
      simp only [if_pos, Option.some.injEq]
      exact ⟨fun he => absurd he.symm hid, fun he => absurd he (hnew id)⟩
    · rw [if_neg hp]
      exact h p id

theorem indexed_fresh (r : Resident) : (empty.add r).Indexed := by
  refine Indexed.add (a := empty) (fun p id => ?_) fun id => ?_
  · simp [empty, pageOf?]
  · simp [empty, pageOf?]

theorem eq_of_fresh {r' : Resident} (h : (empty.add r).nodes[id]? = some r') : r' = r := by
  rw [getElem?_add] at h
  split at h
  · exact (Option.some.inj h).symm
  · simp [empty] at h

/-! ## Changing a node -/

theorem getElem?_put : (a.put id n).nodes[j]? =
    if j = id then a.nodes[j]?.map ({ · with node := n }) else a.nodes[j]? := by
  simp only [put, Array.getElem?_modify, eq_comm]

theorem getElem?_put_self {m : NodeOf Slot} (h : a.nodes[id]? = some ⟨p, m⟩) :
    (a.put id n).nodes[id]? = some ⟨p, n⟩ := by
  rw [getElem?_put, if_pos rfl, h]
  rfl

@[simp] theorem pageOf?_put : (a.put id n).pageOf? j = a.pageOf? j := by
  rw [pageOf?, getElem?_put, pageOf?]
  split
  · rw [Option.map_map]
    rfl
  · rfl

theorem Indexed.put (h : a.Indexed) (id : NodeId) (n : NodeOf Slot) : (a.put id n).Indexed := by
  intro p j
  rw [pageOf?_put]
  exact h p j

theorem put_put (m : NodeOf Slot) : (a.put id n).put id m = a.put id m := by
  simp only [put, mk.injEq, and_true]
  apply Array.ext_getElem?
  intro j
  simp only [Array.getElem?_modify]
  split <;> simp [Function.comp_def]

theorem put_add (h : id < a.size) : (a.put id n).add r = (a.add r).put id n := by
  have hsize : (a.put id n).size = a.size := Array.size_modify
  simp only [add, hsize]
  simp only [put, mk.injEq, and_true]
  apply Array.ext_getElem?
  intro j
  have hlt : id < a.nodes.size := h
  simp only [Array.getElem?_push, Array.getElem?_modify, Array.size_modify]
  by_cases hj : j = a.nodes.size
  · subst hj
    rw [if_pos rfl, if_neg (Nat.ne_of_lt hlt), if_pos rfl]
  · simp [hj]

/-! ## Moving a node -/

/-- One node is on another page in the second arena. -/
structure Moved (a : Arena) (id : NodeId) (q : PageNo) (b : Arena) : Prop where
  size : b.size = a.size
  nodes : ∀ j, b.nodes[j]? = if j = id then a.nodes[j]?.map ({ · with page := q }) else a.nodes[j]?

namespace Moved

variable {b : Arena}

theorem pageOf?_same (h : a.Moved id q b) (hid : a.pageOf? id = some p) : b.pageOf? id = some q := by
  obtain ⟨r, hr, -⟩ := exists_of_pageOf? hid
  rw [pageOf?, h.nodes, if_pos rfl, hr]
  rfl

theorem pageOf?_other (h : a.Moved id q b) (hj : j ≠ id) : b.pageOf? j = a.pageOf? j := by
  rw [pageOf?, h.nodes, if_neg hj, pageOf?]

theorem indexed (h : a.Moved id q b) (ha : a.Indexed) (hid : a.pageOf? id = some p)
    (hq : ∀ j, a.pageOf? j ≠ some q) (hindex : ∀ r, b.byPage[r]? =
      if q = r then some id else if p = r then none else a.byPage[r]?) : b.Indexed := by
  intro r j
  rw [hindex]
  by_cases hj : j = id
  · subst hj
    rw [h.pageOf?_same hid]
    by_cases hqr : q = r
    · simp [hqr]
    · rw [if_neg hqr]
      simp only [Option.some.injEq, hqr, iff_false]
      intro hr
      split at hr
      · cases hr
      · rename_i hpr
        exact hpr (Option.some.inj (hid.symm.trans ((ha r j).1 hr)))
  · rw [h.pageOf?_other hj]
    constructor
    · intro hr
      split at hr
      · exact absurd (Option.some.inj hr).symm hj
      split at hr
      · cases hr
      · exact (ha r j).1 hr
    · intro hr
      have hqr : q ≠ r := fun he => hq j (he ▸ hr)
      have hpr : p ≠ r := fun he => hj (ha.inj (he ▸ hr) hid)
      rw [if_neg hqr, if_neg hpr]
      exact (ha r j).2 hr

end Moved

/-- A node moves to a page that no node is on. -/
theorem rebind?_ok (h : a.Indexed) (hid : a.pageOf? id = some p) (hq : ∀ j, a.pageOf? j ≠ some q) :
    ∃ b, a.rebind? id q = some b ∧ a.Moved id q b ∧ b.Indexed := by
  have hold : a.byPage[p]? = some id := (h p id).2 hid
  have hmoved : a.Moved id q
      ⟨a.nodes.modify id ({ · with page := q }), (a.byPage.erase p).insert q id⟩ := by
    constructor
    · exact Array.size_modify
    · intro j
      simp only [Array.getElem?_modify, eq_comm]
  refine ⟨_, ?_, hmoved, hmoved.indexed h hid hq ?_⟩
  · simp [rebind?, hid, hold]
  · intro r
    simp only [Std.HashMap.getElem?_insert, Std.HashMap.getElem?_erase, beq_iff_eq]

/-! ## Nodes as they go onto their pages -/

theorem onPage?_leaf {l : Leaf} : a.onPage? (.leaf l) = some (.leaf l) := rfl

theorem onPage?_branch {b : Branch Slot} {m : Node} : a.onPage? (.branch b) = some m ↔
    ∃ ps, m = .branch ⟨b.keys, ps⟩ ∧ b.children.map a.slotPage? = ps.map some := by
  simp only [onPage?, Option.bind_eq_bind, Option.bind_eq_some_iff, mapM_eq_some]
  constructor
  · rintro ⟨ps, hps, he⟩
    cases he
    exact ⟨ps, rfl, hps⟩
  · rintro ⟨ps, rfl, hps⟩
    exact ⟨ps, hps, rfl⟩

/-- A node goes onto its page alike in two arenas that agree on its children. -/
theorem onPage?_congr {b : Arena} {m : Node} (h : a.onPage? n = some m)
    (hab : ∀ c, n = .branch c → ∀ s ∈ c.children, ∀ p, a.slotPage? s = some p → b.slotPage? s = some p) :
    b.onPage? n = some m := by
  cases n with
  | leaf l => exact h
  | branch c =>
    obtain ⟨ps, rfl, hps⟩ := onPage?_branch.1 h
    refine onPage?_branch.2 ⟨ps, rfl, ?_⟩
    rw [← hps]
    apply List.map_congr_left
    intro s hs
    have hmem : a.slotPage? s ∈ ps.map some := hps ▸ List.mem_map_of_mem hs
    obtain ⟨p, -, hp⟩ := List.mem_map.1 hmem
    rw [← hp]
    exact hab c rfl s hs p hp.symm

theorem slotPage?_mono {b : Arena} (hab : ∀ id p, a.pageOf? id = some p → b.pageOf? id = some p)
    {s : Slot} (h : a.slotPage? s = some p) : b.slotPage? s = some p := by
  cases s with
  | unloaded q => exact h
  | loaded id => exact hab id p h

theorem onPage?_mono {b : Arena} {m : Node} (h : a.onPage? n = some m)
    (hab : ∀ id p, a.pageOf? id = some p → b.pageOf? id = some p) : b.onPage? n = some m :=
  onPage?_congr h fun _ _ _ _ _ hp => slotPage?_mono hab hp

theorem slotPage?_put {s : Slot} : (a.put id n).slotPage? s = a.slotPage? s := by
  cases s with
  | unloaded q => rfl
  | loaded j => exact pageOf?_put

@[simp] theorem onPage?_put {m : NodeOf Slot} : (a.put id n).onPage? m = a.onPage? m := by
  have hslot : (a.put id n).slotPage? = a.slotPage? := funext fun _ => slotPage?_put
  cases m with
  | leaf l => rfl
  | branch b => simp only [onPage?, hslot]

/-- A node that has just been read goes back onto its page as it was. -/
theorem onPage?_unloaded (a : Arena) (m : Node) : a.onPage? (m.map .unloaded) = some m := by
  cases m with
  | leaf l => rfl
  | branch b =>
    refine onPage?_branch.2 ⟨b.children, rfl, ?_⟩
    simp [Branch.map, slotPage?]

/-- The numbers in the slots of a node that can go onto its page are in use. -/
theorem lt_size_of_onPage? {b : Branch Slot} {m : Node} (h : a.onPage? (.branch b) = some m)
    {id : NodeId} (hid : .loaded id ∈ b.children) : id < a.size := by
  obtain ⟨ps, -, hps⟩ := onPage?_branch.1 h
  have hmem : a.slotPage? (.loaded id) ∈ ps.map some := hps ▸ List.mem_map_of_mem hid
  obtain ⟨p, -, hp⟩ := List.mem_map.1 hmem
  exact lt_size_of_pageOf? hp.symm

end Arena

end PagedTree
