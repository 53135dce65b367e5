import PagedTree.Call

/-! # Running calls

How each way of building a call runs. A call that is built from calls whose results are known is
run by rewriting with these and the results.
-/
namespace PagedTree

theorem exists_of_except_bind_ok {ε α β : Type} {x : Except ε α} {f : α → Except ε β} {b : β}
    (h : x >>= f = .ok b) : ∃ a, x = .ok a ∧ f a = .ok b := by
  cases x with
  | error => cases h
  | ok a => exact ⟨a, rfl, h⟩

theorem except_bind_ok_iff {ε α β : Type} {x : Except ε α} {f : α → Except ε β} {b : β} :
    x >>= f = .ok b ↔ ∃ a, x = .ok a ∧ f a = .ok b := by
  refine ⟨exists_of_except_bind_ok, ?_⟩
  rintro ⟨a, rfl, hf⟩
  exact hf

namespace Call

variable {σ τ α β : Type}

@[simp] theorem result_pure (a : α) (s : σ) : (pure a : Call σ α).result s = (.ok a, s) := rfl

@[simp] theorem result_throw (i : Interrupt) (s : σ) :
    (throw i : Call σ α).result s = (.error i, s) := rfl

@[simp] theorem result_fail (e : StoreError) (s : σ) :
    (fail e : Call σ α).result s = (.error (.error e), s) := rfl

@[simp] theorem result_get (s : σ) : (get : Call σ σ).result s = (.ok s, s) := rfl

@[simp] theorem result_set (s s' : σ) : (set s' : Call σ PUnit).result s = (.ok ⟨⟩, s') := rfl

@[simp] theorem result_modify (f : σ → σ) (s : σ) :
    (modify f : Call σ PUnit).result s = (.ok ⟨⟩, f s) := rfl

@[simp] theorem result_resume (r : Except Interrupt α) (s : σ) :
    (resume r : Call σ α).result s = (r, s) := rfl

@[simp] theorem result_orFault_some (a : α) (s : σ) :
    (orFault (some a) : Call σ α).result s = (.ok a, s) := rfl

@[simp] theorem result_orFault_none (s : σ) :
    (orFault none : Call σ α).result s = (.error .fault, s) := rfl

@[simp] theorem result_ofExcept_ok (a : α) (s : σ) :
    (ofExcept (.ok a) : Call σ α).result s = (.ok a, s) := rfl

@[simp] theorem result_ofExcept_error (e : StoreError) (s : σ) :
    (ofExcept (.error e) : Call σ α).result s = (.error (.error e), s) := rfl

theorem result_bind (c : Call σ α) (f : α → Call σ β) (s : σ) :
    (c >>= f).result s =
      match c.result s with
      | (.ok a, t) => (f a).result t
      | (.error i, t) => (.error i, t) := by
  simp only [result, ExceptT.run_bind, StateT.run_bind]
  rcases h : StateT.run (ExceptT.run c) s with ⟨r, t⟩
  cases r with
  | error i => rfl
  | ok a => rfl

theorem result_bind_ok {c : Call σ α} {s t : σ} {a : α} (h : c.result s = (.ok a, t))
    (f : α → Call σ β) : (c >>= f).result s = (f a).result t := by
  rw [result_bind, h]

theorem result_bind_error {c : Call σ α} {s t : σ} {i : Interrupt}
    (h : c.result s = (.error i, t)) (f : α → Call σ β) :
    (c >>= f).result s = (.error i, t) := by
  rw [result_bind, h]

theorem exists_of_bind_ok {c : Call σ α} {f : α → Call σ β} {s u : σ} {b : β}
    (h : (c >>= f).result s = (.ok b, u)) :
    ∃ a t, c.result s = (.ok a, t) ∧ (f a).result t = (.ok b, u) := by
  rw [result_bind] at h
  rcases hc : c.result s with ⟨r, t⟩
  rw [hc] at h
  cases r with
  | error => cases h
  | ok a => exact ⟨a, t, rfl, h⟩

theorem result_onPart (part : σ → τ) (put : σ → τ → σ) (c : Call τ α) (s : σ) :
    (onPart part put c).result s = ((c.result (part s)).1, put s (c.result (part s)).2) := rfl

end Call

end PagedTree
