import Mathlib.Logic.Relation
import PagedTree.Proofs.LeafChain

/-! # Walks that come back

A walk takes one step after another. Over finitely many pages a walk that is long enough comes back to a
page that it has passed, and from there it can go on for ever.
-/
namespace PagedTree

open Relation

/-- So many steps can be taken from here. -/
inductive Goes {α : Type} (R : α → α → Prop) : Nat → α → Prop where
  | none {p : α} : Goes R 0 p
  | step {n : Nat} {p q : α} : R p q → Goes R n q → Goes R (n + 1) p

/-- Steps from here lead into a circle. -/
def Circles {α : Type} (R : α → α → Prop) (p : α) : Prop :=
  ∃ q, ReflTransGen R p q ∧ TransGen R q q

/-- Steps from here lead to where none can be taken. -/
def DeadEnd {α : Type} (R : α → α → Prop) (p : α) : Prop :=
  ∃ q, ReflTransGen R p q ∧ ∀ r, ¬R q r

section

variable {α : Type} {R : α → α → Prop} {p q : α} {m n : Nat}

namespace Circles

theorem head (h : Circles R q) (hpq : R p q) : Circles R p := by
  obtain ⟨r, hqr, hr⟩ := h
  exact ⟨r, .head hpq hqr, hr⟩

theorem exists_step (h : Circles R p) : ∃ q, R p q ∧ Circles R q := by
  obtain ⟨r, hpr, hr⟩ := h
  rcases hpr.cases_head with rfl | ⟨q, hpq, hqr⟩
  · obtain ⟨q, hpq, hqp⟩ := TransGen.head'_iff.1 hr
    exact ⟨q, hpq, p, hqp, hr⟩
  · exact ⟨q, hpq, r, hqr, hr⟩

/-- Where there is only one way to go, the circle is on it. -/
theorem follow (hR : Relator.RightUnique R) (h : Circles R p)
    (hpq : ReflTransGen R p q) : Circles R q := by
  induction hpq with
  | refl => exact h
  | tail _ hbc ih =>
    obtain ⟨d, hbd, hd⟩ := ih.exists_step
    rwa [hR hbc hbd]

end Circles

namespace DeadEnd

theorem here (h : ∀ q, ¬R p q) : DeadEnd R p := ⟨p, .refl, h⟩

theorem prepend (h : DeadEnd R q) (hpq : ReflTransGen R p q) : DeadEnd R p := by
  obtain ⟨r, hqr, hr⟩ := h
  exact ⟨r, hpq.trans hqr, hr⟩

theorem not_circles (hR : Relator.RightUnique R) (h : DeadEnd R p) : ¬Circles R p := by
  intro hcircles
  obtain ⟨q, hpq, hq⟩ := h
  obtain ⟨r, hqr, -⟩ := (hcircles.follow hR hpq).exists_step
  exact hq r hqr

end DeadEnd

namespace Goes

theorem le (h : Goes R n p) (hmn : m ≤ n) : Goes R m p := by
  induction h generalizing m with
  | none =>
    obtain rfl := Nat.le_zero.1 hmn
    exact .none
  | step hpq _ ih =>
    cases m with
    | zero => exact .none
    | succ m => exact .step hpq (ih (Nat.le_of_succ_le_succ hmn))

theorem prepend (h : Goes R n q) (hpq : ReflTransGen R p q) : Goes R n p := by
  induction hpq using ReflTransGen.head_induction_on with
  | refl => exact h
  | head hstep _ ih => exact (Goes.step hstep ih).le (Nat.le_succ n)

theorem after (h : Goes R n q) (hpq : TransGen R p q) : Goes R (n + 1) p := by
  obtain ⟨r, hpr, hrq⟩ := TransGen.head'_iff.1 hpq
  exact .step hpr (h.prepend hrq)

/-- A walk that comes into no circle passes everything once. -/
theorem exists_path (h : Goes R n p) (hp : ¬Circles R p) : ∃ ps : List α, ps.length = n ∧ ps.Nodup ∧
    ∀ x ∈ ps, ReflTransGen R p x ∧ ∃ y, R x y := by
  induction h with
  | none => exact ⟨[], rfl, .nil, by simp⟩
  | @step n p q hpq _ ih =>
    obtain ⟨ps, hlen, hnodup, hps⟩ := ih fun hq => hp (hq.head hpq)
    refine ⟨p :: ps, by rw [List.length_cons, hlen], List.nodup_cons.2 ⟨?_, hnodup⟩, ?_⟩
    · intro hmem
      exact hp ⟨p, .refl, .head' hpq (hps p hmem).1⟩
    · intro x hx
      rcases List.mem_cons.1 hx with rfl | hx
      · exact ⟨.refl, q, hpq⟩
      · exact ⟨.head hpq (hps x hx).1, (hps x hx).2⟩

/-- A walk of more steps than there are pages to leave comes into a circle. -/
theorem circles {R : PageNo → PageNo → Prop} {p : PageNo} {count : Nat} (h : Goes R n p)
    (hR : ∀ p q, R p q → p.toNat < count) (hn : count < n) : Circles R p := by
  by_contra hp
  obtain ⟨ps, hlen, hnodup, hps⟩ := h.exists_path hp
  have hle := length_le_of_nodup hnodup fun x hx => by
    obtain ⟨-, y, hxy⟩ := hps x hx
    exact hR x y hxy
  omega

end Goes

end

end PagedTree
