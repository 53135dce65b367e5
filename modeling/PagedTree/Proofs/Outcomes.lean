import PagedTree.Proofs.Calls

/-! # How calls end

A call either ends well, with a value, or is interrupted, and it leaves a state both ways. What is
known of the two ends is put together along the text of the call: the second part of a sequence runs
from where the first one has ended well, and an interrupt of either part ends the whole.
-/
namespace PagedTree.Call

variable {σ τ α β : Type}

/-- From `s` the call ends well with `good`, or is interrupted with `bad`. -/
structure Ends (c : Call σ α) (s : σ) (good : α → σ → Prop) (bad : Interrupt → σ → Prop) : Prop where
  good_of_ok : ∀ {a : α} {t : σ}, c.result s = (.ok a, t) → good a t
  bad_of_error : ∀ {i : Interrupt} {t : σ}, c.result s = (.error i, t) → bad i t

namespace Ends

variable {c : Call σ α} {f : α → Call σ β} {s t : σ} {a : α} {i : Interrupt}
  {good good' : α → σ → Prop} {bad bad' : Interrupt → σ → Prop} {late : β → σ → Prop}

theorem of_ok (h : c.result s = (.ok a, t)) (hgood : good a t) : c.Ends s good bad := by
  constructor
  · intro b u hrun
    cases h.symm.trans hrun
    exact hgood
  · intro i u hrun
    cases h.symm.trans hrun

theorem of_error (h : c.result s = (.error i, t)) (hbad : bad i t) : c.Ends s good bad := by
  constructor
  · intro b u hrun
    cases h.symm.trans hrun
  · intro j u hrun
    cases h.symm.trans hrun
    exact hbad

theorem mono (h : c.Ends s good bad) (hgood : ∀ a t, good a t → good' a t)
    (hbad : ∀ i t, bad i t → bad' i t) : c.Ends s good' bad' :=
  ⟨fun hrun => hgood _ _ (h.good_of_ok hrun), fun hrun => hbad _ _ (h.bad_of_error hrun)⟩

theorem congr {d : Call σ α} (h : d.Ends t good bad) (hrun : c.result s = d.result t) :
    c.Ends s good bad :=
  ⟨fun hc => h.good_of_ok (hrun.symm.trans hc), fun hc => h.bad_of_error (hrun.symm.trans hc)⟩

theorem bind (h : c.Ends s good bad) (hf : ∀ a t, good a t → (f a).Ends t late bad) :
    (c >>= f).Ends s late bad := by
  rcases hrun : c.result s with ⟨r, t⟩
  cases r with
  | ok a => exact (hf a t (h.good_of_ok hrun)).congr (result_bind_ok hrun f)
  | error i => exact .of_error (result_bind_error hrun f) (h.bad_of_error hrun)

theorem pure (h : good a s) : (pure a : Call σ α).Ends s good bad := .of_ok (result_pure a s) h

theorem throw (h : bad i s) : (throw i : Call σ α).Ends s good bad := .of_error (result_throw i s) h

/-- The second part of a sequence, where the first one is known to end well. -/
theorem bind_ok (h : c.result s = (.ok a, t)) (hf : (f a).Ends t late bad) :
    (c >>= f).Ends s late bad := hf.congr (result_bind_ok h f)

theorem onPart {part : σ → τ} {put : σ → τ → σ} {c : Call τ α} {good : α → τ → Prop}
    {bad : Interrupt → τ → Prop} (h : c.Ends (part s) good bad) :
    (Call.onPart part put c).Ends s (fun a t => ∃ u, t = put s u ∧ good a u)
      (fun i t => ∃ u, t = put s u ∧ bad i u) := by
  have hrun := result_onPart part put c s
  rcases hc : c.result (part s) with ⟨r, u⟩
  rw [hc] at hrun
  cases r with
  | ok a => exact .of_ok hrun ⟨u, rfl, h.good_of_ok hc⟩
  | error i => exact .of_error hrun ⟨u, rfl, h.bad_of_error hc⟩

/-! ## Sequences over a list -/

variable {xs : List β}

theorem mapM {f : β → Call σ α} (inv : σ → Prop) (h : inv s)
    (hf : ∀ x ∈ xs, ∀ t, inv t → (f x).Ends t (fun _ => inv) bad) :
    (xs.mapM f).Ends s (fun _ => inv) bad := by
  induction xs generalizing s with
  | nil => exact .of_ok rfl h
  | cons x xs ih =>
    rw [List.mapM_cons]
    refine (hf x List.mem_cons_self s h).bind fun a t ht => ?_
    refine (ih ht fun y hy => hf y (List.mem_cons_of_mem _ hy)).bind fun as u hu => ?_
    exact .pure hu

/-- A search for a value that stops when it has one. The invariant may depend on what has been passed
by then without one. -/
theorem findSomeM?_passing {f : β → Call σ (Option α)} (passed : List β → σ → Prop)
    (found : α → σ → Prop) (h : passed [] s) (hf : ∀ pre x post, xs = pre ++ x :: post → ∀ t,
      passed pre t → (f x).Ends t (fun r u => match r with
        | some a => found a u
        | none => passed (pre ++ [x]) u) bad) :
    (xs.findSomeM? f).Ends s (fun r u => match r with
      | some a => found a u
      | none => passed xs u) bad := by
  suffices hrest : ∀ pre post t, xs = pre ++ post → passed pre t →
      (post.findSomeM? f).Ends t (fun r u => match r with
        | some a => found a u
        | none => passed xs u) bad from
    hrest [] xs s rfl h
  intro pre post
  induction post generalizing pre with
  | nil =>
    rintro t rfl ht
    refine .of_ok rfl ?_
    simpa using ht
  | cons x post ih =>
    rintro t rfl ht
    rw [List.findSomeM?_cons]
    refine (hf pre x post rfl t ht).bind fun r u hu => ?_
    cases r with
    | some a => exact .pure hu
    | none => exact ih (pre ++ [x]) u (by simp) hu

theorem findSomeM? {f : β → Call σ (Option α)} (inv : σ → Prop) (h : inv s)
    (hf : ∀ x ∈ xs, ∀ t, inv t → (f x).Ends t (fun _ => inv) bad) :
    (xs.findSomeM? f).Ends s (fun _ => inv) bad := by
  refine (findSomeM?_passing (fun _ => inv) (fun _ => inv) h fun pre x post hxs t ht => ?_).mono
    (fun r u hu => ?_) fun _ _ => id
  · refine (hf x (by simp [hxs]) t ht).mono (fun r u hu => ?_) fun _ _ => id
    cases r <;> exact hu
  · cases r <;> exact hu

/-- A search that stops at the first success. The invariant may depend on what has been passed by
then without one. -/
theorem anyM {f : β → Call σ Bool} (passed : List β → σ → Prop) (found : σ → Prop)
    (h : passed [] s) (hf : ∀ pre x post, xs = pre ++ x :: post → ∀ t, passed pre t →
      (f x).Ends t (fun r u => if r then found u else passed (pre ++ [x]) u) bad) :
    (xs.anyM f).Ends s (fun r u => if r then found u else passed xs u) bad := by
  suffices hrest : ∀ pre post t, xs = pre ++ post → passed pre t →
      (post.anyM f).Ends t (fun r u => if r then found u else passed xs u) bad from
    hrest [] xs s rfl h
  intro pre post
  induction post generalizing pre with
  | nil =>
    rintro t rfl ht
    refine .of_ok rfl ?_
    simpa using ht
  | cons x post ih =>
    rintro t rfl ht
    rw [List.anyM]
    refine (hf pre x post rfl t ht).bind fun r u hu => ?_
    cases r with
    | true => exact .pure hu
    | false => exact ih (pre ++ [x]) u (by simp) hu

end Ends

end PagedTree.Call
