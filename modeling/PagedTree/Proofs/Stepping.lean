import PagedTree.Proofs.Cursors

/-! # Going through the entries one by one

A scan takes the entries leaf by leaf. A program that holds a cursor takes them one by one: as long as
the cursor is there, it reads the entry under it and moves it on. Whatever stands on the pages, the two
end alike, with the same entries or the same error and in the same state, unless the scan does not end.
-/
namespace PagedTree.Tree

variable {t t' u u' : Tree} {root : PageNo} {l : Leaf} {pos : Position} {es : List Entry}
  {r r' : Except Interrupt (List Entry)}

/-- What it comes to if the entry under the cursor is read and the cursor moved on until it is used up:
the entries read, or the error of the move that fails, and the handle as it is then. -/
inductive Yields : Tree → Except Interrupt (List Entry) → Tree → Prop where
  | used {t : Tree} : t.cursor = none → Yields t (.ok []) t
  | failed {t t' : Tree} {i : Interrupt} : t.cursor.isSome → toNext.result t = (.error i, t') →
      Yields t (.error i) t'
  | moved {t u t' : Tree} {r : Except Interrupt (List Entry)} : t.cursor.isSome →
      toNext.result t = (.ok (), u) → Yields u r t' → Yields t (r.map (t.current?.toList ++ ·)) t'

/-- The same after a call that puts the cursor somewhere. -/
inductive YieldsAfter (move : Call Tree Unit) (t : Tree) :
    Except Interrupt (List Entry) → Tree → Prop where
  | failed {t' : Tree} {i : Interrupt} : move.result t = (.error i, t') →
      YieldsAfter move t (.error i) t'
  | goes {u t' : Tree} {r : Except Interrupt (List Entry)} : move.result t = (.ok (), u) →
      u.Yields r t' → YieldsAfter move t r t'

theorem YieldsAfter.congr {move move' : Call Tree Unit} (h : YieldsAfter move' u r t')
    (hmove : move.result t = move'.result u) : YieldsAfter move t r t' := by
  cases h with
  | failed hrun => exact .failed (hmove.trans hrun)
  | goes hrun hrest => exact .goes (hmove.trans hrun) hrest

namespace Yields

theorem of_next {e : Entry} (he : t.current? = some e) (h : YieldsAfter toNext t r t') :
    t.Yields (r.map (e :: ·)) t' := by
  have hsome : t.cursor.isSome := by
    cases hpos : t.cursor with
    | none => simp [current?, hpos] at he
    | some pos => rfl
  cases h with
  | failed hrun => exact .failed hsome hrun
  | goes hrun hrest =>
    have hyields := Yields.moved hsome hrun hrest
    rwa [he] at hyields

theorem unique (h : t.Yields r u) (h' : t.Yields r' u') : r = r' ∧ u = u' := by
  induction h generalizing r' with
  | used hnone =>
    cases h' with
    | used => exact ⟨rfl, rfl⟩
    | failed hsome | moved hsome => simp [hnone] at hsome
  | failed hsome hrun =>
    cases h' with
    | used hnone => simp [hnone] at hsome
    | failed _ hrun' =>
      cases hrun.symm.trans hrun'
      exact ⟨rfl, rfl⟩
    | moved _ hrun' => cases hrun.symm.trans hrun'
  | moved hsome hrun _ ih =>
    cases h' with
    | used hnone => simp [hnone] at hsome
    | failed _ hrun' => cases hrun.symm.trans hrun'
    | moved _ hrun' hrest =>
      cases hrun.symm.trans hrun'
      obtain ⟨rfl, rfl⟩ := ih hrest
      exact ⟨rfl, rfl⟩

theorem used_up (h : t.Yields (.ok es) t') : t'.cursor = none := by
  generalize hr : Except.ok es = r at h
  induction h generalizing es with
  | used hnone => exact hnone
  | failed => cases hr
  | @moved _ _ _ r _ _ _ ih =>
    cases r with
    | error i => cases hr
    | ok es => exact ih rfl

/-- The cursor is on the first of the entries that it still yields, and a move leaves it the others. -/
theorem step (h : t.Yields (.ok es) t') (hpoised : t.Poised) : t.current? = es.head? ∧
    ∃ u, toNext.result t = (.ok (), u) ∧ u.Poised ∧ u.Yields (.ok es.tail) t' := by
  generalize hr : Except.ok es = r at h
  cases h with
  | used hnone =>
    cases hr
    exact ⟨by simp [current?, hnone], t, toNext_used hnone, hpoised, .used hnone⟩
  | failed => cases hr
  | @moved _ u _ r hsome hrun hrest =>
    cases r with
    | error i => cases hr
    | ok rest =>
      obtain ⟨e, he⟩ := Option.isSome_iff_exists.1 (hpoised.1 hsome)
      rw [he] at hr ⊢
      cases hr
      exact ⟨rfl, u, hrun, toNext_poised hrun, hrest⟩

end Yields

/-! ## Within a leaf -/

theorem current?_at (hpos : t.cursor = some pos)
    (hl : t.resident.nodeOf? pos.leaf = some (.leaf l)) (hi : pos.index < l.entries.length) :
    t.current? = some l.entries[pos.index] := by
  simp [current?, hpos, hl, hi]

theorem seekEntry_stays (hpos : t.cursor = some pos)
    (hl : t.resident.nodeOf? pos.leaf = some (.leaf l)) (hi : pos.index < l.entries.length) :
    seekEntry.result t = (.ok (), t) := by
  rw [seekEntry, Call.result_bind_ok (Call.result_get t), walkLimit, seek,
    Call.result_bind_ok (Call.result_get t), hpos]
  simp only [Call.result_bind_ok (cursorLeaf_of_held hl), if_pos hi, Call.result_pure]

/-- From an entry of a leaf on, the cursor yields the rest of the leaf and then what it yields from
behind the leaf. -/
theorem Yields.through_leaf (hpos : t.cursor = some pos)
    (hl : t.resident.nodeOf? pos.leaf = some (.leaf l)) (hi : pos.index < l.entries.length)
    (hbehind : YieldsAfter seekEntry
      { t with cursor := some { pos with index := l.entries.length } } r t') :
    t.Yields (r.map (l.entries.drop pos.index ++ ·)) t' := by
  obtain ⟨k, hk⟩ := Nat.exists_eq_add_of_lt hi
  -- on how far the last entry of the leaf is
  induction k generalizing t pos with
  | zero =>
    rw [hk] at hbehind
    have hyields := Yields.of_next (current?_at hpos hl hi) (hbehind.congr (toNext_at hpos))
    rwa [List.drop_eq_getElem_cons hi, List.drop_eq_nil_of_le (Nat.le_of_eq hk)]
  | succ k ih =>
    have hnext : pos.index + 1 < l.entries.length := by omega
    have hrun := (toNext_at hpos).trans (seekEntry_stays rfl hl hnext)
    have hrest := ih (t := { t with cursor := some { pos with index := pos.index + 1 } }) rfl hl hnext
      hbehind (by dsimp only; omega)
    have hyields := Yields.of_next (current?_at hpos hl hi) (.goes hrun hrest)
    rw [List.drop_eq_getElem_cons hi]
    cases r <;> exact hyields

/-! ## Whole walks -/

/-- Leaf by leaf or entry by entry, a walk comes to the same. -/
theorem scanFrom_yields {limit : Nat} (hpoised : t.Poised)
    (hrun : (scanFrom limit).result t = (r, t')) (hr : r ≠ .error .endless) : t.Yields r t' := by
  induction limit generalizing t r with
  | zero =>
    cases hrun
    exact absurd rfl hr
  | succ limit ih =>
    rw [scanFrom, Call.result_bind_ok (Call.result_get t)] at hrun
    cases hpos : t.cursor with
    | none =>
      rw [hpos] at hrun
      cases hrun
      exact .used hpos
    | some pos =>
      obtain ⟨l, hl, hlt⟩ := hpoised.exists_leaf hpos
      rw [hpos] at hrun
      simp only [Call.result_bind_ok (cursorLeaf_of_held hl), Call.result_bind_ok (result_place t _)]
        at hrun
      rcases hseek : seekEntry.result { t with cursor := some { pos with index := l.entries.length } }
        with ⟨i | ⟨⟩, u⟩
      · rw [Call.result_bind_error hseek] at hrun
        cases hrun
        exact .through_leaf hpos hl hlt (.failed hseek)
      · rw [Call.result_bind_ok hseek] at hrun
        rcases hrest : (scanFrom limit).result u with ⟨i | rest, v⟩
        · rw [Call.result_bind_error hrest] at hrun
          cases hrun
          exact .through_leaf hpos hl hlt (.goes hseek (ih (seekEntry_poised hseek) hrest hr))
        · rw [Call.result_bind_ok hrest] at hrun
          cases hrun
          exact .through_leaf hpos hl hlt
            (.goes hseek (ih (seekEntry_poised hseek) hrest (by simp)))

/-- Whatever a scan comes to, short of not ending, so does a walk from the front. -/
theorem scan_yields (hrun : scan.result t = (r, t')) (hr : r ≠ .error .endless) :
    YieldsAfter toFront t r t' := by
  rcases hfront : toFront.result t with ⟨i | ⟨⟩, u⟩
  · rw [scan, Call.result_bind_error hfront] at hrun
    cases hrun
    exact .failed hfront
  · rw [scan, Call.result_bind_ok hfront, Call.result_bind_ok (Call.result_get u)] at hrun
    exact .goes hfront (scanFrom_yields (toFront_poised hfront) hrun hr)

/-- At every moment of the life of a tree a walk from the front shows just the entries that a scan
lists, each once and in this order, and uses the cursor up. -/
theorem Reached.toFront_yields (h : Reached root t) : ∃ es u t', t.Shows es ∧
    toFront.result t = (.ok (), u) ∧ u.Poised ∧ t'.cursor = none ∧
    ∀ r v, u.Yields r v ↔ r = .ok es ∧ v = t' := by
  obtain ⟨-, s, hrep⟩ := h.represents
  obtain ⟨t', hscan, -⟩ := hrep.scan_ok
  cases scan_yields hscan (by simp) with
  | @goes u _ _ hfront hyields =>
    refine ⟨s.entries, u, t', ⟨t', hscan⟩, hfront, toFront_poised hfront, hyields.used_up, ?_⟩
    intro r v
    constructor
    · exact fun h => h.unique hyields
    · rintro ⟨rfl, rfl⟩
      exact hyields

theorem Reached.threaded (h : Reached root t) : t.Threaded := by
  induction h with
  | create _ _ hload => exact .of_none (load_cursor hload)
  | request r h hrun ih =>
    obtain ⟨-, s, hrep⟩ := h.represents
    exact hrep.request_threaded ih hrun
  | refetch _ hload => exact .of_none (load_cursor hload)
  | reopen _ _ hload => exact .of_none (load_cursor hload)

/-- A walk can be taken up wherever the cursor rests, and comes to an end. -/
theorem Unspoiled.yields (h : Unspoiled root t) : ∃ es t', t.Yields (.ok es) t' := by
  obtain ⟨hreached, hpoised⟩ := h.reached
  obtain ⟨-, s, hrep⟩ := hreached.represents
  obtain ⟨chain, i, hrests, -⟩ := hreached.threaded
  obtain ⟨t', hscan, -⟩ := scanFrom_ok hrests.length_lt hrep.coherent hrests
  exact ⟨_, t', scanFrom_yields hpoised hscan (by simp)⟩

end PagedTree.Tree
