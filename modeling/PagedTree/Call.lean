import PagedTree.StoreError

/-! # Calls

A call changes a state and ends with a value or an interrupt; the state it has reached by then is
kept either way, so what a failed call leaves behind can be stated.
-/
namespace PagedTree

/-- `fault` is an arithmetic overflow or an index out of range, on which the program dies;
`endless` is a walk along links that lead back to where it came from. -/
inductive Interrupt where
  | error (e : StoreError)
  | fault
  | endless

abbrev Call (σ α : Type) := ExceptT Interrupt (StateM σ) α

namespace Call

variable {σ τ α : Type}

def fail (e : StoreError) : Call σ α := throw (.error e)

def ofExcept : Except StoreError α → Call σ α
  | .ok a => pure a
  | .error e => fail e

/-- A value that has to be there. -/
def orFault : Option α → Call σ α
  | some a => pure a
  | none => throw .fault

/-- Ends as a call that has already run did. -/
def resume (r : Except Interrupt α) : Call σ α := ExceptT.mk (pure r)

/-- The result of a call and the state that it leaves. -/
def result (c : Call σ α) (s : σ) : Except Interrupt α × σ := (ExceptT.run c).run s

/-- Runs a call on a part of the state. -/
def onPart (part : σ → τ) (put : σ → τ → σ) (c : Call τ α) : Call σ α := do
  let s ← get
  let (r, t) := c.result (part s)
  set (put s t)
  resume r

end Call

end PagedTree
