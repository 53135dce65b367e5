import PagedTree.Node.Branch
import PagedTree.Proofs.Separators

/-! # Branches cut at a child

What the changes of a branch do, with the child in question between those on its left and on its
right. Stated so they hold alike of a branch on its page, in memory and of a tree as a value.
-/
namespace PagedTree.Branch

theorem insertIdx_cut {α : Type} {xs : List α} {i : Nat} (h : xs.length = i) (ys : List α) (a : α) :
    (xs ++ ys).insertIdx i a = xs ++ a :: ys := by
  subst h
  induction xs with
  | nil => rfl
  | cons x xs ih => simp [ih]

variable {Child : Type} {ks ls : List UInt64} {k key : UInt64} {cs ds : List Child} {c x y : Child}

theorem absorb?_cut (h : cs.length = ks.length) : absorb? ⟨ks ++ ls, cs ++ c :: ds⟩ ks.length x key y =
    some ⟨ks ++ key :: ls, cs ++ x :: y :: ds⟩ := by
  have hslot : ks.length ≤ (ks ++ ls).length ∧ ks.length < (cs ++ c :: ds).length := by
    simp only [List.length_append, List.length_cons]
    omega
  have hset : (cs ++ c :: ds).set ks.length x = (cs ++ [x]) ++ ds := by simp [← h]
  have hlen : (cs ++ [x]).length = ks.length + 1 := by simp [h]
  rw [absorb?, if_pos hslot]
  simp only [hset, insertIdx_cut rfl, insertIdx_cut hlen]
  simp

/-- A branch splits around its middle separator. -/
theorem length_split? {b l r : Branch Child} (h : b.split? = some (l, key, r)) :
    l.keys.length = b.keys.length / 2 ∧ l.keys.length + r.keys.length + 1 = b.keys.length := by
  unfold split? at h
  dsimp only at h
  split at h
  case h_1 => cases h
  case h_2 mid rest hdrop =>
    have hlen := congrArg List.length hdrop
    rw [List.length_drop, List.length_cons] at hlen
    split at h
    case isFalse => cases h
    case isTrue =>
      cases h
      simp only [List.length_take]
      omega

theorem unlink?_cut (h : cs.length = ks.length) :
    unlink? ⟨ks ++ k :: ls, cs ++ c :: ds⟩ cs.length = some ⟨ks ++ ls, cs ++ ds⟩ := by
  have hlt : cs.length < (ks ++ k :: ls).length := by
    simp only [List.length_append, List.length_cons]
    omega
  have hchild : cs.length < (cs ++ c :: ds).length := by simp
  simp only [unlink?, if_pos hlt, if_pos (And.intro hlt hchild), eraseIdx_cut rfl,
    eraseIdx_cut h.symm]

theorem unlink?_last (h : cs.length = ks.length + 1) :
    unlink? ⟨ks ++ [k], cs ++ [c]⟩ cs.length = some ⟨ks, cs⟩ := by
  have hge : ¬cs.length < (ks ++ [k]).length := by simp [h]
  have hsep : ks.length = cs.length - 1 := by omega
  have hlt : cs.length - 1 < (ks ++ [k]).length ∧ cs.length < (cs ++ [c]).length := by
    simp [← hsep]
  simp only [unlink?, if_neg hge, if_pos hlt, eraseIdx_cut rfl, eraseIdx_cut hsep, List.append_nil]

theorem replace?_cut (keys : List UInt64) : replace? ⟨keys, cs ++ c :: ds⟩ cs.length x =
    some ⟨keys, cs ++ x :: ds⟩ := by
  simp [replace?]

end PagedTree.Branch
