import PagedTree.Proofs.Histories
import PagedTree.Proofs.SafeErasing
import PagedTree.Proofs.SafeInserting
import PagedTree.Proofs.SafeReading

/-! # Files of any content

Any file with a header that is accepted may be opened, a handle fetched on any of its pages and any calls
made on it, also after some of them have failed. None of these calls is undefined: each one that has an
end ends with a value or with a failure that is reported.
-/
namespace PagedTree

/-- If the call has an end, it ends with a value or a failure. -/
def Call.Harmless {σ α : Type} (c : Call σ α) (s : σ) : Prop :=
  ∀ i, (c.result s).1 = .error i → i.IsError ∨ i = .endless

theorem Interrupt.harmless {i : Interrupt} (h : i ≠ .fault) : i.IsError ∨ i = .endless := by
  cases i with
  | error e => exact .inl (.error e)
  | fault => exact absurd rfl h
  | endless => exact .inr rfl

/-- From one handle to another by requests that have an end, whether they ended well or failed. -/
inductive Tree.Calls (t : Tree) : Tree → Prop where
  | none : Calls t t
  | request {u u' : Tree} {a : Except Interrupt Unit} (r : Tree.Request) : Calls t u →
      r.run.result u = (a, u') → (∀ i, a = .error i → i.IsError) → Calls t u'

/-- A store on a file of any content, after any calls on any handles. -/
inductive PageStore.Exposed : PageStore → Prop where
  | opened {path : String} {d : Disk} {s : PageStore} : PageStore.load path d = .ok s → Exposed s
  | called {s s' : PageStore} {root : PageNo} {t u : Tree} : Exposed s →
      (Tree.load root).result s = (.ok t, s') → t.Calls u → Exposed u.store

namespace Tree

variable {t u : Tree} {s : PageStore}

theorem load_ends (hs : s.header.Sound) (root : PageNo) : (load root).Ends s
    (fun t s' => s' = s ∧ t.Intact) fun i s' => i.IsError ∧ s' = s := by
  refine Call.Ends.bind (readNode_ends root s) ?_
  rintro n _ ⟨rfl, hroot, hn⟩
  refine .bind_ok (Call.result_get _) (.pure ⟨rfl, ?_⟩)
  refine ⟨hs, Arena.indexed_fresh _, ?_, ?_, ?_, by simp⟩
  · intro id r hr
    obtain rfl := Arena.eq_of_fresh hr
    exact hroot
  · intro id r hr
    obtain rfl := Arena.eq_of_fresh hr
    exact .unloaded hn _
  · exact Nat.one_pos

theorem silent_ends {α : Type} {c : Call Tree α} {good : α → Tree → Prop}
    {bad : Interrupt → Tree → Prop} (h : c.Ends t good bad) :
    c.silent.Ends t (fun _ t' => ∃ a, good a t') bad :=
  h.bind fun a _ ha => .pure ⟨a, ha⟩

/-- Every request leaves a handle as it should be, and only that for a next id can be undefined. -/
theorem Request.ends (r : Request) (ht : t.Intact) : r.run.Ends t (fun _ t' => t'.Intact)
    fun i t' => (i = .fault → r = .nextId) ∧ t'.Intact := by
  have hsafe : ∀ {α : Type} {A : Set NodeId} {c : Call Tree α} {good : α → Tree → Prop},
      Safe A c t good → c.Ends t (fun _ t' => t'.Intact)
        fun i t' => (i = .fault → r = .nextId) ∧ t'.Intact := by
    intro α A c good hc
    exact Call.Ends.mono hc (fun _ _ h => h.1.intact) fun _ _ h => ⟨fun he => absurd he h.1, h.2⟩
  have hsilent : ∀ {α : Type} {A : Set NodeId} {c : Call Tree α} {good : α → Tree → Prop},
      Safe A c t good → c.silent.Ends t (fun _ t' => t'.Intact)
        fun i t' => (i = .fault → r = .nextId) ∧ t'.Intact := by
    intro α A c good hc
    exact (silent_ends (hsafe hc)).mono (fun _ _ ⟨_, h⟩ => h) fun _ _ h => h
  cases r with
  | insert key value => exact hsafe (insert_safe key value ht)
  | erase key => exact hsilent (erase_safe key ht)
  | get key => exact hsilent (get?_safe key ht)
  | scan => exact hsilent (scan_safe ht)
  | dump => exact hsilent (dump_safe ht)
  | toFront => exact hsafe (toFront_safe ht)
  | toNext => exact hsafe (toNext_safe ht)
  | lastLeafSize => exact hsilent (lastLeafSize_safe ht)
  | greatestKey => exact hsilent (greatestKey_safe ht)
  | nextId =>
    refine (silent_ends (nextId_ends ht)).mono ?_ ?_
    · rintro _ t' ⟨a, h⟩
      exact h.intact
    · exact fun _ _ h => ⟨fun _ => rfl, h.1⟩

theorem Calls.intact (h : t.Calls u) (ht : t.Intact) : u.Intact := by
  induction h with
  | none => exact ht
  | @request u u' a r _ hrun _ ih =>
    cases a with
    | ok a => exact (r.ends ih).good_of_ok hrun
    | error i => exact ((r.ends ih).bad_of_error hrun).2

end Tree

theorem PageStore.Exposed.sound {s : PageStore} (h : s.Exposed) : s.header.Sound := by
  induction h with
  | opened hload => exact (PageStore.Reached.load hload).sound
  | called _ hload hcalls ih =>
    exact (hcalls.intact ((Tree.load_ends ih _).good_of_ok hload).2).sound

/-- Whatever the file holds, fetching a handle is harmless, and so is every request on it however many
requests have ended before, well or not: no index is out of range. Nor is anything taken below zero: the
cursor lies behind the header and what a node lays onto its page fits there. -/
theorem calls_harmless {s : PageStore} (hs : s.Exposed) (root : PageNo) : (Tree.load root).Harmless s ∧
    ∀ t s', (Tree.load root).result s = (.ok t, s') → ∀ u, t.Calls u →
      (∀ r : Tree.Request, r ≠ .nextId → r.run.Harmless u) ∧
      firstPageOffset ≤ u.store.header.freeOffset.toNat ∧ ∀ p n, (Node.draft p n).Exact := by
  have hload := Tree.load_ends hs.sound root
  constructor
  · intro i hi
    exact .inl (hload.bad_of_error (Prod.ext hi rfl)).1
  intro t s' hrun u hcalls
  have hu := hcalls.intact (hload.good_of_ok hrun).2
  refine ⟨?_, hu.sound.cursor.1, Node.draft_exact⟩
  intro r hr i hi
  refine Interrupt.harmless fun hfault => hr ?_
  exact ((r.ends hu).bad_of_error (Prod.ext hi rfl)).1 hfault

/-- On a file with one page, a branch that is its own only child. -/
theorem calls_harmless_in_a_circle : ∃ s t, s.Exposed ∧ s.view 0 = some (.branch ⟨[], [0]⟩) ∧
    (Tree.load 0).result s = (.ok t, s) ∧ Call.Harmless (Tree.insert 5 .empty) t := by
  obtain ⟨s, hs⟩ : ∃ s, PageStore.create .absent = .ok s := ⟨_, rfl⟩
  have hsound := (PageStore.Reached.create hs).sound
  have hroom : s.HasRoom := by
    cases hs
    exact (by decide : Header.fresh.freeOffset.toNat + pageSize < UInt32.size)
  have hzero : UInt32.ofNat s.pageCount = 0 := by
    cases hs
    rfl
  have hfit : Node.FitsPage (.branch ⟨[], [0]⟩) := ⟨rfl, by decide⟩
  obtain ⟨b, hsize, hdecode, -⟩ := Node.encode_ok hfit (.ofNat s.pageCount)
  have hsound' := PageStore.sound_grown hsound hroom
  obtain ⟨-, hview⟩ := PageStore.view_allocated hsound hroom hsize hdecode
  have hsynced : (s.grown.putPage (.ofNat s.pageCount) b).Synced := PageStore.synced_putPage hsound'
  rw [hzero] at hview hsynced
  obtain ⟨t, hrun, -⟩ := @Tree.load_ok 0
    { s.grown.putPage 0 b with journal := [] } hsound' _ hview
  have hexposed := PageStore.Exposed.opened (PageStore.load_synced hsynced "")
  exact ⟨_, t, hexposed, hview, hrun,
    ((calls_harmless hexposed 0).2 t _ hrun t .none).1 (.insert 5 .empty) (by simp)⟩

end PagedTree
