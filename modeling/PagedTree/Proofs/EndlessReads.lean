import PagedTree.Proofs.Walks

/-! # Where reading has no end

No read checks whether it has been on a page before. On a file of any content it has an end all the same,
unless the children and links that it follows lead into a circle, and then it has none.
-/
namespace PagedTree

/-- The call ends with a value or a failure. -/
def Call.Finishes {σ α : Type} (c : Call σ α) (s : σ) : Prop :=
  (∃ a, (c.result s).1 = .ok a) ∨ ∃ e, (c.result s).1 = .error (.error e)

namespace Tree

/-- The reads that follow children or links. -/
inductive Reading where
  | get (key : UInt64)
  | toFront
  | scan
  | lastLeafSize

namespace Reading

def request : Reading → Request
  | .get key => .get key
  | .toFront => .toFront
  | .scan => .scan
  | .lastLeafSize => .lastLeafSize

/-- From a page to the next one that a read goes on to: down to the child that it chooses at a branch, and
along the links, past empty leaves in search of an entry or past all leaves in a scan. -/
def Follows (P : Pages) : Reading → PageNo → PageNo → Prop
  | .get key => P.Searches key
  | .toFront => P.Walks (·.children.head?) (·.entries = [])
  | .scan => P.Walks (·.children.head?) fun _ => True
  | .lastLeafSize => P.Walks (·.children.getLast?) fun _ => False

end Reading

/-- From one handle to another by reads that have an end, whether they end well or fail. -/
inductive Asked (t : Tree) : Tree → Prop where
  | none : Asked t t
  | read {u u' : Tree} {a : Except Interrupt Unit} (q : Reading) : Asked t u →
      q.request.run.result u = (a, u') → a ≠ .error .endless → Asked t u'

variable {α : Type} {P : Pages} {t u : Tree} {p root : PageNo} {s s' : PageStore}

/-- A read that is without an end exactly then, and comes to one exactly otherwise. -/
theorem Asks.endless_iff {c : Call Tree α} {loop : Prop}
    (h : Asks P c t loop (¬loop) fun _ _ => ¬loop) : (c.result t).1 = .error .endless ↔ loop := by
  refine ⟨h.of_endless, fun hloop => ?_⟩
  rcases hrun : c.result t with ⟨r, t'⟩
  cases r with
  | ok a => exact absurd hloop (h.good_of_ok hrun).2
  | error i =>
    cases (h.bad_of_error hrun).2 with
    | refused _ hnot => exact absurd hloop hnot
    | fault hnot => exact absurd hloop hnot
    | endless => rfl

theorem Asks.silent {c : Call Tree α} {loop stuck good : Prop}
    (h : Asks P c t loop stuck fun _ _ => good) : Asks P c.silent t loop stuck fun _ _ => good :=
  h.bind fun _ _ ht₁ hgood => .pure ht₁.sees hgood

/-- A walk with only one way to go. -/
theorem Asks.of_walk {c : Call Tree α} {R : PageNo → PageNo → Prop} {n : Nat}
    (h : Asks P c t (Goes R n p) (DeadEnd R p) fun _ _ => DeadEnd R p) (hR : Relator.RightUnique R)
    (hnode : ∀ p q, R p q → ∃ n, P p = some n) (hn : t.store.pageCount < n) (ht : t.Sees P) :
    Asks P c t (Circles R p) (¬Circles R p) fun _ _ => ¬Circles R p := by
  refine h.mono (fun hgoes => hgoes.circles (fun x y hxy => ?_) hn) (·.not_circles hR)
    fun _ _ _ hend => hend.not_circles hR
  obtain ⟨m, hm⟩ := hnode x y hxy
  exact PageStore.lt_of_view (ht.view ▸ hm)

theorem lookup_asks (key : UInt64) (ht : t.Sees P) (hroot : t.resident.pageOf? t.rootId = some p) :
    Asks P (get? key) t (Circles (P.Searches key) p) (¬Circles (P.Searches key) p)
      fun _ _ => ¬Circles (P.Searches key) p := by
  refine .bind_ok (Call.result_get t) ?_
  by_cases hcircles : Circles (P.Searches key) p
  · exact (lookupBelow_circles hcircles _ ht hroot).mono (fun _ => hcircles) False.elim
      fun _ _ _ => False.elim
  · refine (lookupBelow_asks key _ ht hroot).mono (fun hgoes => ?_) (fun _ => hcircles)
      fun _ _ _ _ => hcircles
    refine hgoes.circles (fun x y hxy => ?_) (pageCount_lt_walkLimit t)
    obtain ⟨m, hm⟩ := hxy.exists_node
    exact PageStore.lt_of_view (ht.view ▸ hm)

theorem Reading.asks (q : Reading) (ht : t.Sees P) (hroot : t.resident.pageOf? t.rootId = some p) :
    Asks P q.request.run t (Circles (q.Follows P) p) (¬Circles (q.Follows P) p)
      fun _ _ => ¬Circles (q.Follows P) p := by
  have hlim : t.store.pageCount < t.walkLimit - 1 := Nat.lt_succ_self _
  cases q with
  | get key => exact (lookup_asks key ht hroot).silent
  | toFront =>
    have hfront := toFront_asks (·.entries = []) (fun _ h => h) ht hroot
    refine Asks.of_walk (hfront.imp ?_) (P.walks_unique _ _) (fun _ _ h => h.exists_node) hlim ht
    rintro _ t' - ⟨q, hpq, hcame⟩
    exact (hcame.deadEnd fun _ h => h).prepend hpq
  | scan =>
    exact ((scan_asks ht hroot).of_walk (P.walks_unique _ _) (fun _ _ h => h.exists_node) hlim
      ht).silent
  | lastLeafSize =>
    exact ((lastLeafSize_asks ht hroot).of_walk (P.walks_unique _ _) (fun _ _ h => h.exists_node)
      (pageCount_lt_walkLimit t) ht).silent

theorem load_asked (hload : (load root).result s = (.ok t, s')) :
    t.Sees s.view ∧ t.resident.pageOf? t.rootId = some root := by
  cases hn : s.view root with
  | none =>
    obtain ⟨e, -, hrun⟩ := load_fails hn
    cases hload.symm.trans hrun
  | some n =>
    obtain ⟨t', hrun, -, hsees, hroot⟩ := load_sees hn
    cases hload.symm.trans hrun
    exact ⟨hsees, hroot⟩

theorem Asked.perused (h : t.Asked u) (ht : t.Sees P)
    (hroot : t.resident.pageOf? t.rootId = some root) : t.Perused P u := by
  induction h with
  | none => exact .refl ht
  | @read u u' a q _ hrun _ ih =>
    have hread := (q.asks ih.sees (ih.rootId ▸ ih.pages _ _ hroot)).perused
    rw [hrun] at hread
    exact ih.trans hread

theorem Asked.intact (h : t.Asked u) (ht : t.Intact) : u.Intact := by
  induction h with
  | none => exact ht
  | @read u u' a q _ hrun _ ih =>
    cases a with
    | ok a => exact (q.request.ends ih).good_of_ok hrun
    | error i => exact ((q.request.ends ih).bad_of_error hrun).2

theorem Reading.finishes (q : Reading) (hu : u.Intact)
    (h : (q.request.run.result u).1 ≠ .error .endless) : q.request.run.Finishes u := by
  rcases hrun : q.request.run.result u with ⟨r, u'⟩
  rw [Call.Finishes, hrun]
  rw [hrun] at h
  cases r with
  | ok a => exact .inl ⟨a, rfl⟩
  | error i =>
    cases i with
    | error e => exact .inr ⟨e, rfl⟩
    | fault =>
      have hnext := ((q.request.ends hu).bad_of_error hrun).1 rfl
      cases q <;> cases hnext
    | endless => exact absurd rfl h

theorem Reading.endless_iff (q : Reading) (hload : (load root).result s = (.ok t, s'))
    (hu : t.Asked u) :
    (q.request.run.result u).1 = .error .endless ↔ Circles (q.Follows s.view) root := by
  obtain ⟨ht, hroot⟩ := load_asked hload
  have hread := hu.perused ht hroot
  exact (q.asks hread.sees (hread.rootId ▸ hread.pages _ _ hroot)).endless_iff

/-- Whatever the file holds, a read on a handle that has been fetched, and maybe read from before, ends
with a value or a failure unless what it follows leads from the root page into a circle. Then it has no
end. -/
theorem reads_finish (hs : s.Exposed) (hload : (load root).result s = (.ok t, s')) (hu : t.Asked u)
    (q : Reading) : (¬Circles (q.Follows s.view) root → q.request.run.Finishes u) ∧
      (Circles (q.Follows s.view) root → (q.request.run.result u).1 = .error .endless) := by
  refine ⟨fun hnot => q.finishes ?_ fun hrun => hnot ((q.endless_iff hload hu).1 hrun),
    (q.endless_iff hload hu).2⟩
  exact hu.intact ((load_ends hs.sound root).good_of_ok hload).2

/-- There is a file whose only page is an empty leaf that links to itself. -/
theorem exists_own_link : ∃ path d s t, PageStore.load path d = .ok s ∧
    s.view 0 = some (.leaf ⟨[], some 0⟩) ∧ (load 0).result s = (.ok t, s) := by
  obtain ⟨s, s', s'', t, hs, hcreate, -⟩ := exists_created
  obtain ⟨hsound, -, hstands⟩ := create_represents hs.sound hcreate
  have hzero : s'.view 0 = some (.leaf .empty) := Shape.on_leaf.1 hstands.on
  obtain ⟨b, hsize, hdecode, -⟩ := Node.encode_ok (NodeOf.WithinOrder.no_entries (some 0)).fitsPage 0
  have hview : (s'.putPage 0 b).forgetJournal.view 0 = some (.leaf ⟨[], some 0⟩) := by
    have hput := PageStore.view_putPage (PageStore.lt_of_view hzero) hsize hdecode
    exact (congrFun hput 0).trans (Pages.set_same _ _ _)
  obtain ⟨t, hload, -⟩ := load_sees hview
  exact ⟨"", _, _, t, PageStore.load_synced (PageStore.synced_putPage hsound) "", hview, hload⟩

/-- An empty leaf that links to itself: the cursor never gets off it. -/
theorem circles_of_own_link {P : Pages} {p : PageNo} (h : P p = some (.leaf ⟨[], some p⟩)) :
    Circles (Reading.toFront.Follows P) p :=
  ⟨p, .refl, .single (.on h rfl rfl h)⟩

/-- There a read does not finish. -/
theorem reads_without_end : ∃ path d s t, PageStore.load path d = .ok s ∧
    s.view 0 = some (.leaf ⟨[], some 0⟩) ∧ (load 0).result s = (.ok t, s) ∧
    ¬Call.Finishes toFront t := by
  obtain ⟨path, d, s, t, hopen, hleaf, hload⟩ := exists_own_link
  refine ⟨path, d, s, t, hopen, hleaf, hload, ?_⟩
  have hrun : (toFront.result t).1 = .error .endless :=
    (Reading.toFront.endless_iff hload .none).2 (circles_of_own_link hleaf)
  rintro (⟨a, ha⟩ | ⟨e, he⟩)
  · cases hrun.symm.trans ha
  · cases hrun.symm.trans he

/-- On that file a lookup finishes, and going to the front does not. -/
theorem reads_finish_on_own_link : ∃ s t, s.Exposed ∧ s.view 0 = some (.leaf ⟨[], some 0⟩) ∧
    (load 0).result s = (.ok t, s) ∧ Call.Finishes (Reading.get 5).request.run t ∧
    (toFront.result t).1 = .error .endless := by
  obtain ⟨path, d, s, t, hopen, hleaf, hload⟩ := exists_own_link
  have hexposed := PageStore.Exposed.opened hopen
  have hno : ¬Circles ((Reading.get 5).Follows s.view) 0 := by
    intro hcircles
    obtain ⟨q, hq, -⟩ := hcircles.exists_step
    cases hq with
    | down hb => cases hleaf.symm.trans hb
  exact ⟨s, t, hexposed, hleaf, hload, (reads_finish hexposed hload .none (.get 5)).1 hno,
    (reads_finish hexposed hload .none .toFront).2 (circles_of_own_link hleaf)⟩

end Tree

end PagedTree
