import PagedTree.Proofs.HostileFiles
import PagedTree.Proofs.LookupPaths

/-! # One node for a page

Whatever a file holds, and whichever calls on a handle have failed, its nodes are on pages of their own
and the index leads from each page to the node on it. So a page that a leaf links to and that is a child
of a branch as well is the same node both ways, no matter which of them is taken first.
-/
namespace PagedTree

/-- Nodes are on pages of their own, the index leads from the page of each node to it and from no other
page to any, and the slots of every branch lead to nodes. -/
structure Arena.Canonical (a : Arena) : Prop where
  apart : ∀ i j p, a.pageOf? i = some p → a.pageOf? j = some p → i = j
  index : ∀ p id, a.byPage[p]? = some id ↔ a.pageOf? id = some p
  slots : ∀ (id : NodeId) (p : PageNo) (b : Branch Slot) (c : NodeId),
    a.nodes[id]? = some ⟨p, .branch b⟩ → .loaded c ∈ b.children → c < a.size

/-- The node is on page `p` and is to stand there as `n`. -/
def Arena.Bears (a : Arena) (id : NodeId) (p : PageNo) (n : Node) : Prop :=
  ∃ rn, a.nodes[id]? = some ⟨p, rn⟩ ∧ a.onPage? rn = some n

namespace Arena.Bears

variable {a b : Arena} {id j : NodeId} {p q : PageNo} {n m : Node} {rn : NodeOf Slot}

theorem branch {c : Branch PageNo} (h : a.Bears id p (.branch c)) : ∃ slots,
    a.nodes[id]? = some ⟨p, .branch ⟨c.keys, slots⟩⟩ ∧ slots.map a.slotPage? = c.children.map some := by
  obtain ⟨rn, hr, hn⟩ := h
  cases rn with
  | leaf l => cases hn
  | branch d =>
    obtain ⟨ps, hc, hslots⟩ := onPage?_branch.1 hn
    cases hc
    exact ⟨d.children, hr, hslots⟩

/-- The slot of a child leads to its page. -/
theorem slot {c : Branch PageNo} {i : Nat} (h : a.Bears id p (.branch c)) (hi : c.children[i]? = some q) :
    ∃ slots s, a.nodes[id]? = some ⟨p, .branch ⟨c.keys, slots⟩⟩ ∧ slots[i]? = some s ∧
      a.slotPage? s = some q := by
  obtain ⟨slots, hr, hslots⟩ := h.branch
  obtain ⟨s, hs, hq⟩ := Tree.slots_get hslots hi
  exact ⟨slots, s, hr, hs, hq⟩

/-- More nodes in memory change nothing. -/
theorem grow (h : a.Bears id p n) (hsame : ∀ j < a.size, b.nodes[j]? = a.nodes[j]?) : b.Bears id p n := by
  obtain ⟨rn, hr, hn⟩ := h
  refine ⟨rn, ?_, onPage?_mono hn fun j q hj => ?_⟩
  · rw [hsame id (Array.getElem?_eq_some_iff.1 hr).1, hr]
  · rw [pageOf?, hsame j (lt_size_of_pageOf? hj)]
    exact hj

/-- Nor does a node in memory that is to stand on its page as before. -/
theorem put (h : a.Bears id p n) (hj : a.Bears j q m) (hrn : a.onPage? rn = some m) :
    (a.put j rn).Bears id p n := by
  obtain ⟨rn', hr, hn⟩ := h
  by_cases hid : id = j
  · subst hid
    obtain ⟨rn'', hr', hm⟩ := hj
    cases hr.symm.trans hr'
    cases hn.symm.trans hm
    exact ⟨rn, getElem?_put_self hr, by rwa [onPage?_put]⟩
  · refine ⟨rn', ?_, by rwa [onPage?_put]⟩
    rw [getElem?_put, if_neg hid, hr]

end Arena.Bears

namespace Tree

variable {t : Tree} {id n : NodeId} {p q : PageNo}

/-- The calls that lead to the node of page `p`: along the link of a leaf in memory, and down from a
branch in memory. -/
inductive Way (t : Tree) (p : PageNo) : Call Tree NodeId → Prop where
  | link {id : NodeId} {q : PageNo} {l : Leaf} : t.resident.Bears id q (.leaf l) → l.next = some p →
      Way t p (resolve p)
  | down {id : NodeId} {q : PageNo} {b : Branch PageNo} {slot : Nat} :
      t.resident.Bears id q (.branch b) → b.children[slot]? = some p → Way t p (child id slot)

theorem Intact.canonical (h : t.Intact) : t.resident.Canonical := by
  refine ⟨fun i j p hi hj => h.indexed.inj hi hj, h.indexed, ?_⟩
  intro id p b c hr hc
  exact (h.proper id _ hr b rfl).2 c hc

/-- The call ends at a node on page `p`, and all nodes are to stand on their pages as before. -/
def Lands (c : Call Tree NodeId) (t : Tree) (p : PageNo) : Prop :=
  c.Ends t (fun n u => u.Intact ∧ u.resident.pageOf? n = some p ∧
    ∀ id q m, t.resident.Bears id q m → u.resident.Bears id q m) fun _ _ => True

theorem resolve_lands (ht : t.Intact) (p : PageNo) : Lands (resolve p) t p :=
  Call.Ends.mono (resolve_safe (A := ∅) ht p)
    (fun _ _ ⟨hret, hp, hsame⟩ => ⟨hret.intact, hp, fun _ _ _ h => h.grow hsame⟩) fun _ _ _ => trivial

theorem child_lands (ht : t.Intact) {b : Branch PageNo} {slot : Nat}
    (hid : t.resident.Bears id q (.branch b)) (hslot : b.children[slot]? = some p) :
    Lands (child id slot) t p := by
  obtain ⟨slots, s, hr, hs, hsp⟩ := hid.slot hslot
  rw [Lands, child]
  refine .bind_ok (held_ok hr) ?_
  simp only [hs]
  cases s with
  | loaded c => exact .pure ⟨ht, hsp, fun _ _ _ h => h⟩
  | unloaded p' =>
    obtain rfl : p' = p := Option.some.inj hsp
    refine (resolve_lands ht p').bind ?_
    rintro c u ⟨hu, hc, hbears⟩
    have hid₁ := hbears _ _ _ hid
    obtain ⟨slots₁, hr₁, hslots₁⟩ := hid₁.branch
    -- the slot leads to the same page as before, so the branch is to stand there as it was
    have hsame : u.resident.onPage? (.branch ⟨b.keys, slots₁.set slot (.loaded c)⟩) =
        some (.branch b) :=
      Arena.onPage?_branch.2 ⟨b.children, rfl, slots_set hslots₁ hc hslot⟩
    have hput : u.Retains ∅ { u with
        resident := u.resident.put id (.branch ⟨b.keys, slots₁.set slot (.loaded c)⟩) } :=
      hu.put ((hu.proper id _ hr₁).set slot (Arena.lt_size_of_pageOf? hc)) fun h => h.elim
    refine .bind_ok (held_ok hr₁) (.bind_ok (put_result _) (.pure ⟨hput.intact, ?_, ?_⟩))
    · rwa [Arena.pageOf?_put]
    · intro j r m hj
      exact (hbears j r m hj).put hid₁ hsame

namespace Way

variable {u : Tree} {c : Call Tree NodeId}

/-- Every way to a page ends there, if it does not fail. -/
theorem lands (h : t.Way p c) (ht : t.Intact) : Lands c t p := by
  cases h with
  | link => exact resolve_lands ht p
  | down hid hslot => exact child_lands ht hid hslot

theorem mono (h : t.Way p c)
    (hbears : ∀ id q m, t.resident.Bears id q m → u.resident.Bears id q m) : u.Way p c := by
  cases h with
  | link hid hnext => exact .link (hbears _ _ _ hid) hnext
  | down hid hslot => exact .down (hbears _ _ _ hid) hslot

/-- If a node is on the page, every way there leads to it. -/
theorem leads (h : t.Way p c) (ht : t.Intact) (hn : t.resident.pageOf? n = some p) :
    ∃ u, c.result t = (.ok n, u) := by
  have hresolve : (resolve p).result t = (.ok n, t) := by
    rw [resolve, Call.result_bind_ok (Call.result_get t), (ht.indexed p n).2 hn]
    rfl
  cases h with
  | link => exact ⟨t, hresolve⟩
  | @down id q b slot hid hslot =>
    obtain ⟨slots, s, hr, hs, hsp⟩ := hid.slot hslot
    rw [child, Call.result_bind_ok (held_ok hr)]
    simp only [hs]
    cases s with
    | loaded c =>
      obtain rfl := ht.indexed.inj hsp hn
      exact ⟨t, rfl⟩
    | unloaded p' =>
      obtain rfl : p' = p := Option.some.inj hsp
      rw [Call.result_bind_ok hresolve, Call.result_bind_ok (held_ok hr)]
      exact ⟨_, rfl⟩

end Way

/-- After any calls on a handle, also failed ones, its nodes are on pages of their own. A way to a page
leads to the node on it if there is one, and where it brings one into memory every other way leads to
that from then on. -/
theorem one_node_for_a_page {s s' : PageStore} {root : PageNo} {t u : Tree} (hs : s.Exposed)
    (hload : (load root).result s = (.ok t, s')) (hcalls : t.Calls u) :
    u.resident.Canonical ∧ ∀ p c, u.Way p c →
      (∀ n, u.resident.pageOf? n = some p → ∃ v, c.result u = (.ok n, v)) ∧
      ∀ n v, c.result u = (.ok n, v) → v.resident.Canonical ∧ v.resident.pageOf? n = some p ∧
        ∀ d, u.Way p d → ∃ w, d.result v = (.ok n, w) := by
  have hu := hcalls.intact ((load_ends hs.sound root).good_of_ok hload).2
  refine ⟨hu.canonical, fun p c hc => ⟨fun n hn => hc.leads hu hn, ?_⟩⟩
  intro n v hrun
  obtain ⟨hv, hn, hbears⟩ := (hc.lands hu).good_of_ok hrun
  exact ⟨hv.canonical, hn, fun d hd => (hd.mono hbears).leads hv hn⟩

/-- A right leaf that is not yet in memory is the same node along the link of the left one and down from
the root. -/
theorem one_node_for_a_page_of_siblings : ∃ root s t u q n v w, s.Exposed ∧
    (load root).result s = (.ok t, s) ∧ t.Calls u ∧ (∀ id, u.resident.pageOf? id ≠ some q) ∧
    u.Way q (resolve q) ∧ u.Way q (child 0 1) ∧ (resolve q).result u = (.ok n, v) ∧
    (child 0 1).result v = (.ok n, w) := by
  obtain ⟨root, t₀, p, q, next, -, hrep₀⟩ := exists_siblings
  obtain ⟨s₁, t₁, hopen, hload₁, -, hrep₁⟩ := hrep₀.reopen ""
  have hexposed : t₁.store.Exposed := .called (.opened hopen) hload₁ .none
  obtain ⟨t, hload, hrep, hroot, hfresh⟩ := hrep₁.load_unopened
  rw [← hroot] at hfresh
  have hrecalls := hrep.recalls
  obtain ⟨u, hrun, hread⟩ := hrecalls.get?_ok 1
  have hcalls : t.Calls u := by
    refine .request (.get 1) .none (a := .ok ()) ?_ nofun
    rw [Request.run, Call.result_silent, hrun]
    rfl
  have hdirect : Shape.Direct 1 (.branch root [3] [.leaf p ⟨[⟨1, .empty⟩, ⟨2, .empty⟩], some q⟩,
      .leaf q ⟨[⟨3, .empty⟩, ⟨4, .empty⟩], next⟩]) := by
    refine .inl ⟨p, ⟨[⟨1, .empty⟩, ⟨2, .empty⟩], some q⟩, ?_, by simp [Leaf.keys]⟩
    rw [Shape.path_branch rfl, Shape.path_leaf]
    rfl
  obtain ⟨u', hrun', hnodes⟩ := lookupBelow_path hrecalls.length_parts_le hrecalls.mirrors
    hrecalls.knows hfresh hdirect
  rw [get?, Call.result_bind_ok (Call.result_get t)] at hrun
  cases hrun.symm.trans hrun'
  rw [hroot, Shape.path_branch rfl, Shape.path_leaf] at hnodes
  have htop : u.resident.nodes[0]? = some ⟨root, .branch ⟨[3], [.loaded 1, .unloaded q]⟩⟩ := hnodes 0
  have hleft : u.resident.nodes[1]? = some ⟨p, .leaf ⟨[⟨1, .empty⟩, ⟨2, .empty⟩], some q⟩⟩ := hnodes 1
  have hunread : ∀ id, u.resident.pageOf? id ≠ some q := by
    have hdistinct := hrep.stands.distinct
    simp only [Shape.pages_branch, Shape.pages_leaf, List.flatMap_cons, List.flatMap_nil,
      List.append_nil, List.singleton_append, List.nodup_cons, List.mem_cons] at hdistinct
    intro id hid
    obtain ⟨r, hr, hq⟩ := Arena.exists_of_pageOf? hid
    rcases id with _ | _ | id
    · cases htop.symm.trans hr
      exact hdistinct.1 (.inr (.inl hq))
    · cases hleft.symm.trans hr
      exact hdistinct.2.1 (.inl hq)
    · cases (hnodes (id + 2)).symm.trans hr
  have hlink : u.Way q (resolve q) := .link ⟨_, hleft, rfl⟩ rfl
  have hdown : u.Way q (child 0 1) := by
    refine .down (b := ⟨[3], [p, q]⟩) ⟨_, htop, Arena.onPage?_branch.2 ⟨[p, q], rfl, ?_⟩⟩ rfl
    have hp : u.resident.pageOf? 1 = some p := Arena.pageOf?_of_getElem? hleft
    simp [Arena.slotPage?, hp]
  obtain ⟨n, v, hresolve, -⟩ := hread.mirrors.resolve_ok
    ((Shape.on_branch.1 hrep.stands.on).2 (.leaf q ⟨[⟨3, .empty⟩, ⟨4, .empty⟩], next⟩) (by simp)).top
  obtain ⟨-, hways⟩ := one_node_for_a_page hexposed hload hcalls
  obtain ⟨-, -, hother⟩ := (hways q _ hlink).2 n v hresolve
  obtain ⟨w, hchild⟩ := hother _ hdown
  exact ⟨_, _, t, u, q, n, v, w, hexposed, hload, hcalls, hunread, hlink, hdown, hresolve, hchild⟩

end Tree

end PagedTree
