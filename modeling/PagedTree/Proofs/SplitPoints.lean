import PagedTree.Proofs.Leaves

/-! # Where a leaf splits

The keys of a leaf fall into runs of equal ones. A leaf splits between two runs if there are two, at an
edge of the run around its middle, and in the middle if there is one only. The keys need not be in order
for that.
-/
namespace PagedTree.Leaf

/-- The stretch from `start` up to `stop` holds the key that stands at `i`, and no key next to the
stretch is the same. -/
structure RunAround (keys : List UInt64) (i start stop : Nat) : Prop where
  start_le : start ≤ i
  lt_stop : i < stop
  stop_le : stop ≤ keys.length
  equal : ∀ j, start ≤ j → j < stop → keys[j]? = keys[i]?
  left : start = 0 ∨ keys[start - 1]? ≠ keys[i]?
  right : stop = keys.length ∨ keys[stop]? ≠ keys[i]?

section

variable {keys before run behind : List UInt64} {key : UInt64} {i j point start stop : Nat}

theorem getElem?_run (hrun : ∀ x ∈ run, x = key) (hle : before.length ≤ j)
    (hlt : j < before.length + run.length) : (before ++ (run ++ behind))[j]? = some key := by
  have hin : j - before.length < run.length := by omega
  rw [List.getElem?_append_right hle, List.getElem?_append_left hin, List.getElem?_eq_getElem hin,
    hrun _ (List.getElem_mem hin)]

namespace RunAround

/-- A stretch of equal keys cut out between others. -/
theorem of_cut (hrun : ∀ x ∈ run, x = key) (hlast : ∀ x ∈ before.getLast?, x ≠ key)
    (hfirst : ∀ x ∈ behind.head?, x ≠ key) (hle : before.length ≤ i)
    (hlt : i < before.length + run.length) :
    RunAround (before ++ (run ++ behind)) i before.length (before.length + run.length) := by
  refine ⟨hle, hlt, by simp, ?_, ?_, ?_⟩
  · intro j hj hj'
    rw [getElem?_run hrun hj hj', getElem?_run hrun hle hlt]
  · rw [getElem?_run hrun hle hlt]
    rcases List.eq_nil_or_concat before with rfl | ⟨xs, last, rfl⟩
    · exact .inl rfl
    · right
      simpa using hlast last (by simp)
  · rw [getElem?_run hrun hle hlt]
    cases behind with
    | nil => simp
    | cons first xs =>
      right
      simpa using hfirst first rfl

theorem start_apart (h : RunAround keys i start stop) (hstart : start ≠ 0) :
    keys[start - 1]? ≠ keys[start]? := by
  have hle := h.start_le
  have hlt := h.lt_stop
  rw [h.equal start (by omega) (by omega)]
  exact h.left.resolve_left hstart

theorem stop_apart (h : RunAround keys i start stop) (hstop : stop ≠ keys.length) :
    keys[stop - 1]? ≠ keys[stop]? := by
  have hle := h.start_le
  have hlt := h.lt_stop
  rw [h.equal (stop - 1) (by omega) (by omega)]
  exact (h.right.resolve_left hstop).symm

/-- Between two neighbouring keys that differ no run is cut. -/
theorem not_cut (h : RunAround keys i start stop) (hpoint : keys[point - 1]? ≠ keys[point]?) :
    point ≤ start ∨ stop ≤ point := by
  refine Decidable.byContradiction fun hcut => hpoint ?_
  rw [h.equal (point - 1) (by omega) (by omega), h.equal point (by omega) (by omega)]

end RunAround

/-- The break point is the start of the run around the middle, or its end if it starts at the front,
or the middle if it is all there is. -/
theorem breakPoint?_around (h : breakPoint? keys = some point) : ∃ start stop,
    RunAround keys (keys.length / 2) start stop ∧ (start ≠ 0 ∧ point = start ∨
      start = 0 ∧ stop ≠ keys.length ∧ point = stop ∨
      start = 0 ∧ stop = keys.length ∧ point = keys.length / 2) := by
  obtain ⟨key, before, run, behind, hkeys, -, hrun, hlast, hfirst, ⟨hle, hlt⟩, hcases⟩ :=
    breakPoint?_run h
  have haround := RunAround.of_cut hrun hlast hfirst hle hlt
  rw [← hkeys] at haround
  have hlen := congrArg List.length hkeys
  simp only [List.length_append] at hlen
  refine ⟨_, _, haround, ?_⟩
  rcases hcases with ⟨hne, rfl⟩ | ⟨rfl, hne, rfl⟩ | ⟨rfl, rfl, rfl⟩
  · exact .inl ⟨fun h0 => hne (List.eq_nil_of_length_eq_zero h0), rfl⟩
  · have hpos := List.length_pos_iff.2 hne
    refine .inr (.inl ⟨rfl, ?_, ?_⟩)
    · simp only [List.length_nil] at hlen ⊢
      omega
    · rw [List.length_nil, Nat.zero_add]
  · exact .inr (.inr ⟨rfl, by simpa using hlen.symm, rfl⟩)

end

/-- A leaf of two or more keys, in any order, splits into two that are not empty. If it has two
neighbouring keys that differ it splits between two such keys, so that every run of equal keys stays
together. It splits in the middle if the keys differ there or all are equal, and otherwise where the run
around the middle starts or, if it starts with the leaf, where it ends. -/
theorem splits_between_runs (l : Leaf) (h : 2 ≤ l.keys.length) : ∃ point start stop,
    breakPoint? l.keys = some point ∧ 1 ≤ point ∧ point ≤ l.keys.length - 1 ∧
      ((∃ j, j + 1 < l.keys.length ∧ l.keys[j]? ≠ l.keys[j + 1]?) →
        l.keys[point - 1]? ≠ l.keys[point]? ∧
          ∀ i a b, RunAround l.keys i a b → point ≤ a ∨ b ≤ point) ∧
      (l.keys[l.keys.length / 2 - 1]? ≠ l.keys[l.keys.length / 2]? → point = l.keys.length / 2) ∧
      RunAround l.keys (l.keys.length / 2) start stop ∧
      (l.keys[l.keys.length / 2 - 1]? = l.keys[l.keys.length / 2]? →
        (start ≠ 0 → point = start) ∧ (start = 0 → stop ≠ l.keys.length → point = stop)) ∧
      ((∀ x ∈ l.keys, ∀ y ∈ l.keys, x = y) → point = l.keys.length / 2) ∧
      ∀ right, ∃ a key b, l.split? right = some (a, key, b) ∧ a.entries = l.entries.take point ∧
        b.entries = l.entries.drop point := by
  obtain ⟨point, hpoint, hpos, hlt⟩ := breakPoint?_inside h
  obtain ⟨start, stop, haround, hcases⟩ := breakPoint?_around hpoint
  have hle := haround.start_le
  have hmid := haround.lt_stop
  have hapart : (∃ j, j + 1 < l.keys.length ∧ l.keys[j]? ≠ l.keys[j + 1]?) →
      l.keys[point - 1]? ≠ l.keys[point]? := by
    rintro ⟨j, hj, hne⟩
    rcases hcases with ⟨hstart, rfl⟩ | ⟨-, hstop, rfl⟩ | ⟨rfl, rfl, -⟩
    · exact haround.start_apart hstart
    · exact haround.stop_apart hstop
    · -- a run that is all there is has no such neighbours
      rw [haround.equal j (by omega) (by omega), haround.equal (j + 1) (by omega) hj] at hne
      exact absurd rfl hne
  refine ⟨point, start, stop, hpoint, hpos, by omega, fun hne => ⟨hapart hne, ?_⟩, ?_, haround, ?_, ?_,
    ?_⟩
  · intro i a b hrun
    exact hrun.not_cut (hapart hne)
  · intro hne
    -- the run around the middle starts there
    have hstart : start = l.keys.length / 2 := by
      refine Decidable.byContradiction fun hstart => hne ?_
      rw [haround.equal (l.keys.length / 2 - 1) (by omega) (by omega)]
    omega
  · intro _
    omega
  · intro hall
    have hsame : l.keys[point - 1]? = l.keys[point]? := by
      rw [List.getElem?_eq_getElem (by omega), List.getElem?_eq_getElem hlt,
        hall _ (List.getElem_mem (by omega)) _ (List.getElem_mem hlt)]
    rcases hcases with ⟨hstart, rfl⟩ | ⟨-, hstop, rfl⟩ | ⟨-, -, hpoint⟩
    · exact absurd hsame (haround.start_apart hstart)
    · exact absurd hsame (haround.stop_apart hstop)
    · exact hpoint
  · exact split?_at hpoint (length_keys l ▸ hlt)

example : breakPoint? [5, 5, 5, 6] = some 3 := by decide

/-- The middle of these six keys lies in a run of three that starts behind the first. -/
theorem splits_between_runs_of_six : ∃ l : Leaf, l.keys = [4, 5, 5, 5, 9, 2] ∧ 2 ≤ l.keys.length ∧
    breakPoint? l.keys = some 1 ∧ RunAround l.keys 3 1 4 := by
  let l : Leaf := ⟨[4, 5, 5, 5, 9, 2].map fun key => ⟨key, .empty⟩, none⟩
  obtain ⟨point, start, stop, hpoint, -, -, -, -, haround, hedge, -⟩ := splits_between_runs l (by decide)
  have hone : breakPoint? l.keys = some 1 := by decide
  obtain rfl := Option.some.inj (hpoint.symm.trans hone)
  rw [show l.keys.length / 2 = 3 by decide] at haround hedge
  have hstart : start ≠ 0 := by
    rintro rfl
    exact absurd (haround.equal 0 (Nat.le_refl 0) (Nat.zero_lt_of_lt haround.lt_stop)) (by decide)
  have hstop : ¬ 4 < stop := fun hlt =>
    absurd (haround.equal 4 (Nat.le_succ_of_le haround.start_le) hlt) (by decide)
  have hfour : stop = 4 := Nat.le_antisymm (Nat.le_of_not_lt hstop) haround.lt_stop
  obtain rfl := (hedge (by decide)).1 hstart
  exact ⟨l, rfl, by decide, hone, hfour ▸ haround⟩

end PagedTree.Leaf
