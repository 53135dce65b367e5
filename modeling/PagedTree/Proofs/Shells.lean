import PagedTree.Proofs.CatalogHistory
import PagedTree.Proofs.Databases
import PagedTree.Proofs.HostileFiles

/-! # Lines for a shell

Whatever a shell is told, it replies: it prints, ends, or says what failed. The one exception is the line
that asks for the next row id, where the tree of the shell has the largest key there is.
-/
namespace PagedTree

namespace Call.Harmless

variable {σ α β : Type} {c : Call σ α} {f : α → Call σ β} {s : σ} {good : α → σ → Prop}
  {bad : Interrupt → σ → Prop}

theorem of_ends (h : c.Ends s good bad) (hbad : ∀ i t, bad i t → i ≠ .fault) : c.Harmless s :=
  fun i hi => Interrupt.harmless (hbad i _ (h.bad_of_error (Prod.ext hi rfl)))

theorem ne_fault (h : c.Harmless s) : (c.result s).1 ≠ .error .fault := by
  intro hi
  rcases h _ hi with he | he
  · exact he.ne_fault rfl
  · cases he

theorem pure (a : α) (s : σ) : (Pure.pure a : Call σ α).Harmless s := nofun

theorem ofExcept (x : Except StoreError α) (s : σ) : (Call.ofExcept x : Call σ α).Harmless s := by
  cases x with
  | ok a => exact pure a s
  | error e =>
    rintro i ⟨⟩
    exact .inl (.error e)

theorem bind (h : c.Harmless s) (hf : ∀ a t, (f a).Harmless t) : (c >>= f).Harmless s := by
  intro i hi
  rcases hrun : c.result s with ⟨r, t⟩
  cases r with
  | ok a =>
    rw [result_bind_ok hrun] at hi
    exact hf a t i hi
  | error j =>
    rw [result_bind_error hrun] at hi
    cases hi
    exact h i (by rw [hrun])

end Call.Harmless

namespace Tree

variable {α : Type} {t t' : Tree} {s : PageStore} {L : Layering} {root : PageNo} {id : NodeId}

/-- The tree on the page has the largest key there is. -/
def Topped (root : PageNo) (s : PageStore) : Prop :=
  ∃ t u, (load root).result s = (.ok t, s) ∧ greatestKey.result t = (.ok (some topKey), u)

theorem Safe.harmless {A : Set NodeId} {c : Call Tree α} {good : α → Tree → Prop}
    (h : Safe A c t good) : c.Harmless t := .of_ends h fun _ _ h => h.1

theorem on_harmless (hs : s.header.Sound) (root : PageNo) {c : Call Tree α}
    (hc : ∀ t, t.Intact → c.Harmless t) : (on root c).Harmless s := by
  intro i hi
  rcases hload : (load root).result s with ⟨r, s'⟩
  have hends := load_ends hs root
  cases r with
  | error j =>
    rw [on, Call.result_bind_error hload] at hi
    cases hi
    exact .inl (hends.bad_of_error hload).1
  | ok t =>
    rw [on_loaded hload] at hi
    exact hc t (hends.good_of_ok hload).2 i hi

/-! ## The same way again -/

theorem leafBelow_again {limit : Nat} {x : NodeId × Leaf} (ht : t.Intact)
    (hid : id < t.resident.size) (h : (leafBelow lastSlot? limit id).result t = (.ok x, t')) :
    (leafBelow lastSlot? limit id).result t' = (.ok x, t') := by
  induction limit generalizing t id with
  | zero => cases h
  | succ limit ih =>
    obtain ⟨⟨p, n⟩, hr⟩ := Intact.exists_held hid
    rw [leafBelow, Call.result_bind_ok (held_ok hr)] at h
    cases n with
    | leaf l =>
      cases h
      rw [leafBelow, Call.result_bind_ok (held_ok hr)]
      rfl
    | branch b =>
      obtain ⟨slot, t₁, hslot, hgo⟩ := Call.exists_of_bind_ok h
      obtain ⟨c, t₂, hchild, hleaf⟩ := Call.exists_of_bind_ok hgo
      obtain ⟨hb, rfl⟩ : lastSlot? b = some slot ∧ t = t₁ := by
        cases hb : lastSlot? b with
        | none =>
          rw [hb] at hslot
          cases hslot
        | some i =>
          rw [hb] at hslot
          cases hslot
          exact ⟨rfl, rfl⟩
      obtain ⟨hdown, hc, b₂, hr₂, hloaded⟩ := (child_safe ht hr slot).good_of_ok hchild
      have hrest := (leafBelow_safe exists_lastSlot? limit hdown.intact hc).good_of_ok hleaf
      -- what has been gone down by still leads the same way
      obtain ⟨b', hr', -, hlen, -⟩ := (hdown.trans hrest.1).keeps.branch (Set.mem_univ id) hr
      obtain ⟨b'', hr'', -, -, hstays⟩ := hrest.1.keeps.branch (Set.mem_univ id) hr₂
      cases hr'.symm.trans hr''
      have hb' : lastSlot? b' = some slot := by rw [← hb, lastSlot?, lastSlot?, hlen]
      rw [leafBelow, Call.result_bind_ok (held_ok hr')]
      simp only [hb']
      rw [Call.result_bind_ok (Call.result_orFault_some slot t'),
        Call.result_bind_ok (child_loaded hr' (hstays slot c hloaded))]
      exact ih hdown.intact hc hleaf

theorem lastLeaf_again {x : NodeId × Leaf} (ht : t.Intact) (hL : t.Layered L)
    (h : lastLeaf.result t = (.ok x, t')) : lastLeaf.result t' = (.ok x, t') := by
  obtain ⟨hon, -⟩ := (lastLeaf_steady hL).good_of_ok h
  have hlimit : t'.walkLimit = t.walkLimit := by
    rw [walkLimit, walkLimit, hon.layered.store.count, hL.store.count]
  rw [lastLeaf, Call.result_bind_ok (Call.result_get t')]
  rw [hlimit, hon.rootId]
  exact leafBelow_again ht ht.rooted h

/-- Having gone to the last leaf makes no difference to the greatest key. -/
theorem greatestKey_again {x : NodeId × Leaf} (ht : t.Intact) (hL : t.Layered L)
    (h : lastLeaf.result t = (.ok x, t')) : greatestKey.result t' = greatestKey.result t := by
  rw [greatestKey, Call.result_bind_ok h, Call.result_bind_ok (lastLeaf_again ht hL h)]

theorem nextId_fault_iff (ht : t.Intact) : (nextId.result t).1 = .error .fault ↔
    ∃ t', greatestKey.result t = (.ok (some topKey), t') := by
  constructor
  · intro h
    obtain ⟨key, hrun, hkey⟩ := ((nextId_ends ht).bad_of_error (Prod.ext h rfl)).2 rfl
    obtain rfl : key = topKey := UInt64.toNat_inj.1 (Nat.succ.inj hkey)
    exact ⟨_, hrun⟩
  · rintro ⟨t', hrun⟩
    rw [nextId, Call.result_bind_ok hrun]
    rfl

/-- If there is no way to the last leaf the greatest key is not found either. -/
theorem lastLeafSize_error {i : Interrupt} (h : lastLeafSize.result t = (.error i, t')) :
    greatestKey.result t = (.error i, t') := by
  rcases hlast : lastLeaf.result t with ⟨r, t₁⟩
  cases r with
  | ok x =>
    rw [lastLeafSize, Call.result_bind_ok hlast] at h
    cases h
  | error j =>
    rw [lastLeafSize, Call.result_bind_error hlast] at h
    cases h
    rw [greatestKey, Call.result_bind_error hlast]

/-- Asking for the size of the last leaf makes no difference to the next id. -/
theorem lastThenNext_fault_iff (ht : t.Intact) (hL : t.Layered L) (f : Nat → UInt64 → α) :
    (Call.result (do
      let size ← lastLeafSize
      let next ← nextId
      return f size next) t).1 = .error .fault ↔
      ∃ u, greatestKey.result t = (.ok (some topKey), u) := by
  have hends := lastLeafSize_safe ht
  rcases hsize : lastLeafSize.result t with ⟨r, t₁⟩
  cases r with
  | error i =>
    have hi := (hends.bad_of_error hsize).1
    rw [Call.result_bind_error hsize, lastLeafSize_error hsize]
    simpa using hi
  | ok size =>
    obtain ⟨x, t₂, hlast, hrest⟩ := Call.exists_of_bind_ok hsize
    cases hrest
    have ht₁ := (hends.good_of_ok hsize).1.intact
    rw [Call.result_bind_ok hsize, ← greatestKey_again ht hL hlast, ← nextId_fault_iff ht₁]
    rcases hnext : nextId.result t₁ with ⟨r, t₂⟩
    cases r with
    | ok next =>
      rw [Call.result_bind_ok hnext]
      simp
    | error i =>
      rw [Call.result_bind_error hnext]
      simp

theorem load_topped (hload : (load root).result s = (.ok t, s)) :
    Topped root s ↔ ∃ u, greatestKey.result t = (.ok (some topKey), u) := by
  constructor
  · rintro ⟨t', u, hload', hrun⟩
    cases hload.symm.trans hload'
    exact ⟨u, hrun⟩
  · rintro ⟨u, hrun⟩
    exact ⟨t, u, hload, hrun⟩

end Tree

namespace Shell

variable {s : PageStore} {sh : Shell} {L : Layering} {root : PageNo}

theorem perform_harmless (hs : s.header.Sound) (root : PageNo) {c : Command} (hc : c ≠ .last) :
    (perform root c).Harmless s := by
  have hon : ∀ {α β : Type} {c : Call Tree α} {f : α → Call PageStore β},
      (∀ t, t.Intact → c.Harmless t) → (∀ a s', (f a).Harmless s') →
        (Tree.on root c >>= f).Harmless s :=
    fun hc hf => (Tree.on_harmless hs root hc).bind hf
  cases c with
  | quit => exact .pure _ s
  | help => exact .pure _ s
  | add key value =>
    exact hon (fun _ ht => (Tree.insert_safe key value.toUTF8 ht).harmless) fun _ _ => .pure _ _
  | get key =>
    refine hon (fun _ ht => (Tree.get?_safe key ht).harmless) fun v s' => ?_
    cases v <;> exact .pure _ s'
  | del key =>
    refine hon (fun _ ht => (Tree.erase_safe key ht).harmless) fun erased s' => ?_
    cases erased <;> exact .pure _ s'
  | scan => exact hon (fun _ ht => (Tree.scan_safe ht).harmless) fun _ _ => .pure _ _
  | print => exact hon (fun _ ht => (Tree.dump_safe ht).harmless) fun _ _ => .pure _ _
  | last => exact absurd rfl hc
  | tables =>
    refine Call.Harmless.bind ?_ fun _ _ => .pure _ _
    exact (Tree.on_harmless hs Catalog.root fun _ ht => (Tree.scan_safe ht).harmless).bind
      fun _ _ => .ofExcept _ _

/-- The next row id behind the largest key there is has no place in its field. -/
theorem last_fault_iff (hs : s.Layered L) (root : PageNo) :
    ((perform root .last).result s).1 = .error .fault ↔ Tree.Topped root s := by
  by_cases hroot : root.toNat < L.count
  · obtain ⟨t, hload, -, hL⟩ := Tree.load_layered hs hroot
    have ht := ((Tree.load_ends hs.sound root).good_of_ok hload).2
    rw [Tree.load_topped hload, perform, Tree.on_loaded hload]
    exact Tree.lastThenNext_fault_iff ht hL _
  · obtain ⟨e, hload⟩ := Tree.load_refused (hs.count ▸ hroot)
    have hno : ¬Tree.Topped root s := by
      rintro ⟨t, u, hload', -⟩
      cases hload.symm.trans hload'
    rw [perform, Tree.on, Call.result_bind_error hload]
    simpa using hno

/-- Only one kind of answer means that the program has died. -/
theorem Answered.stopped_iff {sh' : Shell} {line : String} {reply : Reply}
    (h : Answered sh line reply sh') (hs : sh.store.Layered L) :
    (reply = .stopped .fault ↔ Command.parse line = .ok .last ∧ Tree.Topped sh.root sh.store) ∧
      reply ≠ .stopped .endless := by
  have hlast := last_fault_iff hs sh.root
  cases h with
  | rejected hparse => simp [hparse]
  | quit hparse => simp [hparse]
  | @printed c text store hparse hrun =>
    refine ⟨?_, by simp⟩
    have hno : c = .last → ¬Tree.Topped sh.root sh.store := by
      rintro rfl
      rw [← hlast, hrun]
      simp
    simpa [hparse] using hno
  | @stopped c i store hparse hrun =>
    have hi := ((perform_settles hs sh.root c).bad_of_error hrun).1
    refine ⟨?_, by simpa using hi⟩
    by_cases hc : c = .last
    · subst hc
      rw [hrun] at hlast
      simpa [hparse] using hlast
    · have hfault := (perform_harmless hs.sound sh.root hc).ne_fault
      rw [hrun] at hfault
      simpa [hparse, hc] using hfault

/-- In a new database an entry can be added to the tree of the catalog. -/
theorem exists_added (key : UInt64) {value : String} (hv : value.toUTF8.size ≤ Tree.maxValueSize) :
    ∃ (s : PageStore) (t : Tree), Catalog.create .absent = .ok s ∧ start s 0 = .ok ⟨s, 0⟩ ∧
      (perform 0 (.add key value)).result s = (.ok "ok", t.store) ∧ t.root = 0 ∧
      t.Represents (.leaf 0 (Leaf.empty.insert ⟨key, value.toUTF8⟩)) := by
  obtain ⟨s, hcreate⟩ := Catalog.exists_new
  obtain ⟨hkeeps, -⟩ := Catalog.create_keeps hcreate
  obtain ⟨t, hload, -, hroot, hrep⟩ :=
    Tree.load_represents hkeeps.lists.standing hkeeps.forest.sound hkeeps.synced
  obtain ⟨t', hinsert, hrep', -⟩ := hrep.insert_roomy (by decide) hv key
  have hon := Tree.on_loaded hload (Tree.insert key value.toUTF8)
  rw [hinsert] at hon
  refine ⟨s, t', hcreate, start_of_load hload, ?_, hrep'.page.symm, hrep'⟩
  exact Call.result_bind_ok hon _

/-- In a database in use every line has a reply whatever lines have come before, but for `last` where
the tree of the shell has the largest key there is: then the next row id is undefined. -/
theorem replies_below_top (h : Catalog.Database s) (hstart : start s root = .ok sh)
    (lines : List String) (line : String) :
    (((sh.after lines).answer line).1 = .stopped .fault ↔
      Command.parse line = .ok .last ∧ Tree.Topped root (sh.after lines).store) ∧
    ((sh.after lines).answer line).1 ≠ .stopped .endless := by
  obtain rfl := start_ok hstart
  obtain ⟨L, -, hs⟩ := h.layered
  obtain ⟨⟨L', -, hs'⟩, hroot⟩ := after_settled ⟨s, root⟩ hs lines
  have hends := (answer_answered _ line).stopped_iff hs'
  rwa [hroot] at hends

/-- After the largest key there is has been added to a new database. -/
theorem replies_below_top_of_one : ∃ s sh, Catalog.create .absent = .ok s ∧ start s 0 = .ok sh ∧
    ((sh.after ["add 18446744073709551615 x"]).answer "last").1 = .stopped .fault := by
  have hv : "x".toUTF8.size ≤ Tree.maxValueSize := by decide +kernel
  obtain ⟨s, t, hcreate, hstart, hadd, hroot, hrep⟩ := exists_added topKey hv
  have hafter : (Shell.after ["add 18446744073709551615 x"] ⟨s, 0⟩).store = t.store := by
    have hparse : Command.parse "add 18446744073709551615 x" = .ok (.add topKey "x") := rfl
    rw [after, List.foldl_cons, List.foldl_nil, answer, hparse]
    dsimp only
    rw [hadd]
  refine ⟨s, _, hcreate, hstart, ?_⟩
  apply (replies_below_top (.create hcreate) hstart _ "last").1.2
  refine ⟨rfl, ?_⟩
  rw [hafter]
  obtain ⟨u, hload, -, -, hrep'⟩ := hrep.refetch
  obtain ⟨u', hgreatest, -⟩ := hrep'.greatestKey_ok
  refine ⟨u, u', hroot ▸ hload, ?_⟩
  rw [hgreatest]
  simp [Shape.greatestKey, Leaf.insert, Leaf.empty, Leaf.keys]

end Shell

end PagedTree
