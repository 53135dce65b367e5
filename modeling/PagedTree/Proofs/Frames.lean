import PagedTree.Proofs.Calls
import PagedTree.Tree.Cursor
import PagedTree.Tree.Dump
import PagedTree.Tree.Erase
import PagedTree.Tree.Insert

/-! # What calls leave alone

A call that never names a part of the state leaves it as it was, however the call ends. The cursor of
a handle is named by walks along the leaves alone, so lookups and changes leave it where it is.
-/
namespace PagedTree

namespace Call

variable {σ τ α β : Type} {part : σ → τ}

/-- However the call ends, this part of the state is as it was. -/
def Leaves (part : σ → τ) (c : Call σ α) : Prop := ∀ s, part (c.result s).2 = part s

namespace Leaves

theorem pure (a : α) : Leaves part (Pure.pure a : Call σ α) := fun _ => rfl

theorem throw (i : Interrupt) : Leaves part (throw i : Call σ α) := fun _ => rfl

theorem fail (e : StoreError) : Leaves part (Call.fail e : Call σ α) := throw _

theorem orFault (x : Option α) : Leaves part (Call.orFault x : Call σ α) := by
  cases x with
  | some a => exact pure a
  | none => exact throw _

theorem get : Leaves part (get : Call σ σ) := fun _ => rfl

theorem bind {c : Call σ α} {f : α → Call σ β} (h : Leaves part c) (hf : ∀ a, Leaves part (f a)) :
    Leaves part (c >>= f) := by
  intro s
  have hc := h s
  rw [result_bind]
  rcases hrun : c.result s with ⟨r, t⟩
  rw [hrun] at hc
  cases r with
  | ok a => exact (hf a t).trans hc
  | error i => exact hc

/-- A call behind a check. -/
theorem guard {p : Prop} [Decidable p] {e : StoreError} {c : Call σ α} (h : Leaves part c) :
    Leaves part (if p then Call.fail e >>= fun _ : PUnit => c else c) := by
  split
  · exact (fail e).bind fun _ => h
  · exact h

theorem mapM {f : α → Call σ β} (hf : ∀ a, Leaves part (f a)) (xs : List α) :
    Leaves part (xs.mapM f) := by
  induction xs with
  | nil => exact pure []
  | cons x xs ih =>
    rw [List.mapM_cons]
    exact (hf x).bind fun a => ih.bind fun as => pure _

theorem findSomeM? {f : α → Call σ (Option β)} (hf : ∀ a, Leaves part (f a)) (xs : List α) :
    Leaves part (xs.findSomeM? f) := by
  induction xs with
  | nil => exact pure none
  | cons x xs ih =>
    rw [List.findSomeM?_cons]
    refine (hf x).bind fun r => ?_
    cases r with
    | some b => exact pure _
    | none => exact ih

theorem anyM {f : α → Call σ Bool} (hf : ∀ a, Leaves part (f a)) (xs : List α) :
    Leaves part (xs.anyM f) := by
  induction xs with
  | nil => exact pure false
  | cons x xs ih =>
    rw [List.anyM]
    refine (hf x).bind fun r => ?_
    cases r with
    | true => exact pure _
    | false => exact ih

end Leaves

end Call

open Call

namespace Tree

variable {α : Type}

/-! ## The cursor -/

theorem onStore_leaves (c : Call PageStore α) : Leaves cursor (onStore c) := fun _ => rfl

theorem keep_leaves (r : Resident) : Leaves cursor (keep r) := fun _ => rfl

theorem put_leaves (id : NodeId) (n : NodeOf Slot) : Leaves cursor (put id n) := fun _ => rfl

theorem resolve_leaves (p : PageNo) : Leaves cursor (resolve p) := by
  refine Leaves.get.bind fun t => ?_
  cases t.resident.byPage[p]? with
  | some id => exact .pure id
  | none => exact (onStore_leaves _).bind fun n => keep_leaves _

theorem held_leaves (id : NodeId) : Leaves cursor (held id) := Leaves.get.bind fun _ => .orFault _

theorem heldLeaf_leaves (id : NodeId) : Leaves cursor (heldLeaf id) := by
  refine (held_leaves id).bind fun r => ?_
  cases r.node with
  | leaf l => exact .pure l
  | branch b => exact .fail _

theorem heldBranch_leaves (id : NodeId) : Leaves cursor (heldBranch id) := by
  refine (held_leaves id).bind fun r => ?_
  cases r.node with
  | leaf l => exact .fail _
  | branch b => exact .pure b

theorem child_leaves (id : NodeId) (slot : Nat) : Leaves cursor (child id slot) := by
  refine (held_leaves id).bind fun r => ?_
  cases r.node with
  | leaf l => exact .fail _
  | branch b =>
    dsimp only
    rcases b.children[slot]? with _ | ⟨p | c⟩
    · exact .fail _
    · refine (resolve_leaves p).bind fun c => (held_leaves id).bind fun r => ?_
      exact (put_leaves id _).bind fun _ => .pure c
    · exact .pure c

theorem writeTo_leaves (id : NodeId) (p : PageNo) : Leaves cursor (writeTo id p) := by
  refine (held_leaves id).bind fun r => Leaves.get.bind fun t => (Leaves.orFault _).bind fun n => ?_
  have hencode : Leaves cursor (Node.encode p n : Call Tree ByteArray) := by
    unfold Node.encode
    -- the page stays a variable here, so that it is never computed
    generalize Call.result _ (zeros pageSize) = laid
    obtain ⟨r, b⟩ := laid
    cases r <;> exact fun _ => rfl
  exact hencode.bind fun b => onStore_leaves _

theorem write_leaves (id : NodeId) : Leaves cursor (write id) :=
  (held_leaves id).bind fun r => writeTo_leaves id r.page

theorem update_leaves (id : NodeId) (n : NodeOf Slot) : Leaves cursor (update id n) :=
  (put_leaves id n).bind fun _ => write_leaves id

/-! ## Looking up -/

/-- A walk that starts at the root and is as long as the pages allow. -/
theorem fromRoot_leaves {walk : Nat → NodeId → Call Tree α}
    (h : ∀ limit id, Leaves cursor (walk limit id)) :
    Leaves cursor (do let t ← get; walk t.walkLimit t.rootId) :=
  Leaves.get.bind fun t => h t.walkLimit t.rootId

theorem lookupBelow_leaves (key : UInt64) (limit : Nat) (id : NodeId) :
    Leaves cursor (lookupBelow key limit id) := by
  induction limit generalizing id with
  | zero => exact .throw _
  | succ limit ih =>
    refine (held_leaves id).bind fun r => ?_
    cases r.node with
    | leaf l => exact .pure _
    | branch b => exact .findSomeM? (fun slot => (child_leaves id slot).bind fun c => ih c) _

theorem leafBelow_leaves (slot? : Branch Slot → Option Nat) (limit : Nat) (id : NodeId) :
    Leaves cursor (leafBelow slot? limit id) := by
  induction limit generalizing id with
  | zero => exact .throw _
  | succ limit ih =>
    refine (held_leaves id).bind fun r => ?_
    cases r.node with
    | leaf l => exact .pure _
    | branch b =>
      exact (Leaves.orFault _).bind fun slot => (child_leaves id slot).bind fun c => ih c

theorem dumpBelow_leaves (limit depth : Nat) (id : NodeId) :
    Leaves cursor (dumpBelow limit depth id) := by
  induction limit generalizing depth id with
  | zero => exact .throw _
  | succ limit ih =>
    refine (held_leaves id).bind fun r => ?_
    cases r.node with
    | leaf l => exact .pure _
    | branch b =>
      refine Leaves.bind (.mapM (fun slot => ?_) _) fun below => .pure _
      exact (child_leaves id slot).bind fun c => ih (depth + 1) c

theorem get?_leaves (key : UInt64) : Leaves cursor (get? key) :=
  fromRoot_leaves (lookupBelow_leaves key)

theorem lastLeaf_leaves : Leaves cursor lastLeaf := fromRoot_leaves (leafBelow_leaves _)

theorem lastLeafSize_leaves : Leaves cursor lastLeafSize := lastLeaf_leaves.bind fun _ => .pure _

theorem dump_leaves : Leaves cursor dump := fromRoot_leaves (dumpBelow_leaves · 0)

/-! ## Changing -/

theorem updateBranch_leaves (id : NodeId) (f : Branch Slot → Option (Branch Slot)) :
    Leaves cursor (updateBranch id f) := by
  refine (held_leaves id).bind fun r => ?_
  cases r.node with
  | leaf l => exact .pure _
  | branch b => exact (Leaves.orFault _).bind fun c => update_leaves id _

theorem tidy_leaves (id : NodeId) (slot : Nat) (c : NodeId) : Leaves cursor (tidy id slot c) := by
  refine (held_leaves c).bind fun r => ?_
  cases r.node with
  | leaf l =>
    dsimp only
    split
    · refine (held_leaves id).bind fun r => ?_
      cases r.node with
      | leaf l => exact .pure _
      | branch b =>
        dsimp only
        split
        · exact updateBranch_leaves id _
        · exact .pure _
    · exact .pure _
  | branch d =>
    dsimp only
    split
    · exact (Leaves.orFault _).bind fun only => updateBranch_leaves id _
    · exact .pure _

theorem eraseBelow_leaves (key : UInt64) (limit : Nat) (id : NodeId) :
    Leaves cursor (eraseBelow key limit id) := by
  induction limit generalizing id with
  | zero => exact .throw _
  | succ limit ih =>
    refine (held_leaves id).bind fun r => ?_
    cases r.node with
    | leaf l =>
      dsimp only
      split
      · exact (update_leaves id _).bind fun _ => .pure true
      · exact .pure false
    | branch b =>
      refine .anyM (fun slot => (child_leaves id slot).bind fun c => (ih c).bind fun erased => ?_) _
      dsimp only
      split
      · exact (tidy_leaves id slot c).bind fun _ => .pure _
      · exact .pure _

theorem erase_leaves (key : UInt64) : Leaves cursor (erase key) :=
  fromRoot_leaves (eraseBelow_leaves key)

theorem putHalves_leaves (id : NodeId) (right : PageNo) (halves : NodeOf Slot × UInt64 × NodeOf Slot) :
    Leaves cursor (putHalves id right halves) := by
  refine (put_leaves id _).bind fun _ => (keep_leaves _).bind fun new => ?_
  exact (write_leaves new).bind fun _ => (write_leaves id).bind fun _ => .pure _

theorem splitLeaf_leaves (id : NodeId) : Leaves cursor (splitLeaf id) := by
  refine (onStore_leaves _).bind fun right => (heldLeaf_leaves id).bind fun l => ?_
  exact (Leaves.orFault _).bind fun halves => putHalves_leaves id right _

theorem splitBranch_leaves (id : NodeId) : Leaves cursor (splitBranch id) := by
  refine (onStore_leaves _).bind fun right => (heldBranch_leaves id).bind fun b => ?_
  exact (Leaves.orFault _).bind fun halves => putHalves_leaves id right _

theorem insertIntoLeaf_leaves (id : NodeId) (e : Entry) : Leaves cursor (insertIntoLeaf id e) := by
  refine (heldLeaf_leaves id).bind fun l => (put_leaves id _).bind fun _ => ?_
  split
  · exact (splitLeaf_leaves id).bind fun s => .pure _
  · exact (write_leaves id).bind fun _ => .pure _

theorem absorb_leaves (id : NodeId) (slot : Nat) (s : Split) : Leaves cursor (absorb id slot s) := by
  refine (heldBranch_leaves id).bind fun b => (Leaves.orFault _).bind fun c => ?_
  refine (put_leaves id _).bind fun _ => ?_
  split
  · exact (splitBranch_leaves id).bind fun s => .pure _
  · exact (write_leaves id).bind fun _ => .pure _

theorem insertBelow_leaves (e : Entry) (limit : Nat) (id : NodeId) :
    Leaves cursor (insertBelow e limit id) := by
  induction limit generalizing id with
  | zero => exact .throw _
  | succ limit ih =>
    refine (held_leaves id).bind fun r => ?_
    cases r.node with
    | leaf l => exact insertIntoLeaf_leaves id e
    | branch b =>
      refine (child_leaves id _).bind fun c => (ih c).bind fun split => ?_
      cases split with
      | some s => exact absorb_leaves id _ s
      | none => exact .pure _

theorem rebind_leaves (id : NodeId) (p : PageNo) : Leaves cursor (rebind id p) := by
  intro t
  rw [rebind, result_bind_ok (result_get t)]
  cases t.resident.rebind? id p <;> rfl

theorem raiseRoot_leaves (s : Split) : Leaves cursor (raiseRoot s) := by
  refine (held_leaves s.left).bind fun r => (onStore_leaves _).bind fun moved => ?_
  refine (writeTo_leaves s.left moved).bind fun _ => (rebind_leaves s.left moved).bind fun _ => ?_
  exact (keep_leaves _).bind fun id => (write_leaves id).bind fun _ => fun _ => rfl

theorem insert_leaves (key : UInt64) (value : ByteArray) : Leaves cursor (insert key value) := by
  rw [insert]
  refine .guard <| Leaves.get.bind fun t => (insertBelow_leaves _ _ _).bind fun split => ?_
  cases split with
  | some s => exact raiseRoot_leaves s
  | none => exact .pure _

end Tree

end PagedTree
