import PagedTree.Catalog.Basic
import PagedTree.Proofs.Histories
import PagedTree.Tree.Dump

/-! # No call sees the journal

The journal of a store tells what its file was like after each page write. No call looks at it, so a call
has the same value from stores that differ in it alone, and leaves stores that differ in it alone.
-/
namespace PagedTree

namespace Call

variable {σ α β : Type} {w : σ → List SparseFile → σ}

/-- Whichever journal is put into the state, the call does the same, but for the journal. -/
def Blind (w : σ → List SparseFile → σ) (c : Call σ α) : Prop :=
  ∀ s js, ∃ js', c.result (w s js) = ((c.result s).1, w (c.result s).2 js')

namespace Blind

theorem pure (a : α) : Blind w (Pure.pure a) := fun _ js => ⟨js, rfl⟩

theorem throw (i : Interrupt) : Blind w (throw i : Call σ α) := fun _ js => ⟨js, rfl⟩

theorem fail (e : StoreError) : Blind w (Call.fail e : Call σ α) := throw _

theorem ofExcept (x : Except StoreError α) : Blind w (Call.ofExcept x) := by
  cases x with
  | ok a => exact pure a
  | error e => exact fail e

theorem orFault (x : Option α) : Blind w (Call.orFault x) := by
  cases x with
  | some a => exact pure a
  | none => exact throw _

theorem resume (r : Except Interrupt α) : Blind w (Call.resume r) := fun _ js => ⟨js, rfl⟩

theorem modify {f : σ → σ} (hf : ∀ s js, ∃ js', f (w s js) = w (f s) js') :
    Blind w (modify f : Call σ PUnit) := by
  intro s js
  obtain ⟨js', h⟩ := hf s js
  exact ⟨js', by rw [result_modify, result_modify, h]⟩

theorem bind {c : Call σ α} {f : α → Call σ β} (h : Blind w c) (hf : ∀ a, Blind w (f a)) :
    Blind w (c >>= f) := by
  intro s js
  obtain ⟨js', hc⟩ := h s js
  rw [result_bind, result_bind, hc]
  rcases c.result s with ⟨r, t⟩
  cases r with
  | ok a => exact hf a t js'
  | error i => exact ⟨js', rfl⟩

/-- What is taken of the state is not its journal. -/
theorem get_bind {f : σ → Call σ α} (hf : ∀ s js, f (w s js) = f s) (h : ∀ s, Blind w (f s)) :
    Blind w (get >>= f) := by
  intro s js
  rw [result_bind_ok (result_get (w s js)), result_bind_ok (result_get s), hf]
  exact h s s js

/-- A call behind a check. -/
theorem guard {p : Prop} [Decidable p] {e : StoreError} {c : Call σ α} (h : Blind w c) :
    Blind w (if p then Call.fail e >>= fun _ : PUnit => c else c) := by
  split
  · exact (fail e).bind fun _ => h
  · exact h

theorem mapM {f : α → Call σ β} (hf : ∀ a, Blind w (f a)) (xs : List α) : Blind w (xs.mapM f) := by
  induction xs with
  | nil => exact pure []
  | cons x xs ih =>
    rw [List.mapM_cons]
    exact (hf x).bind fun a => ih.bind fun as => pure _

theorem findSomeM? {f : α → Call σ (Option β)} (hf : ∀ a, Blind w (f a)) (xs : List α) :
    Blind w (xs.findSomeM? f) := by
  induction xs with
  | nil => exact pure none
  | cons x xs ih =>
    rw [List.findSomeM?_cons]
    refine (hf x).bind fun r => ?_
    cases r with
    | some b => exact pure _
    | none => exact ih

theorem anyM {f : α → Call σ Bool} (hf : ∀ a, Blind w (f a)) (xs : List α) :
    Blind w (xs.anyM f) := by
  induction xs with
  | nil => exact pure false
  | cons x xs ih =>
    rw [List.anyM]
    refine (hf x).bind fun r => ?_
    cases r with
    | true => exact pure _
    | false => exact ih

end Blind

end Call

open Call

variable {α : Type}

namespace PageStore

def withJournal (s : PageStore) (js : List SparseFile) : PageStore := { s with journal := js }

theorem checkAllocated_blind (p : PageNo) : Blind withJournal (checkAllocated p) := by
  refine .get_bind (fun _ _ => rfl) fun s => ?_
  split
  · exact .fail _
  · exact .pure _

theorem readPage_blind (p : PageNo) : Blind withJournal (readPage p) :=
  (checkAllocated_blind p).bind fun _ => .get_bind (fun _ _ => rfl) fun _ => .pure _

theorem writePage_blind (p : PageNo) (b : ByteArray) : Blind withJournal (writePage p b) := by
  refine (checkAllocated_blind p).bind fun _ => ?_
  have hput : Blind withJournal (modify (·.putPage p b) : Call PageStore PUnit) :=
    .modify fun s js => ⟨(s.putPage p b).file :: js, rfl⟩
  split
  · exact (Blind.fail _).bind fun _ => hput
  · exact hput

theorem allocate_blind : Blind withJournal allocate := by
  intro s js
  refine ⟨js, ?_⟩
  by_cases hroom : s.HasRoom
  · rw [allocate_ok hroom, allocate_ok (s := s.withJournal js) hroom]
    rfl
  · rw [allocate_full hroom, allocate_full (s := s.withJournal js) hroom]

end PageStore

theorem Node.encode_blind {σ : Type} {w : σ → List SparseFile → σ} (p : PageNo) (n : Node) :
    Blind w (Node.encode p n) := by
  unfold encode
  -- the page stays a variable here, so that it is never computed
  generalize Call.result _ (zeros pageSize) = laid
  exact (Blind.resume laid.1).bind fun _ => .pure laid.2

namespace Tree

def withJournal (t : Tree) (js : List SparseFile) : Tree :=
  { t with store := t.store.withJournal js }

theorem onStore_blind {c : Call PageStore α} (h : Blind PageStore.withJournal c) :
    Blind withJournal (onStore c) := by
  intro t js
  obtain ⟨js', hc⟩ := h t.store js
  refine ⟨js', ?_⟩
  rw [onStore, result_onPart, result_onPart]
  simp only [show (t.withJournal js).store = t.store.withJournal js from rfl, hc]
  rfl

theorem readNode_blind (p : PageNo) : Blind PageStore.withJournal (readNode p) :=
  (PageStore.readPage_blind p).bind fun _ => .ofExcept _

theorem keep_blind (r : Resident) : Blind withJournal (keep r) := fun _ js => ⟨js, rfl⟩

theorem put_blind (id : NodeId) (n : NodeOf Slot) : Blind withJournal (put id n) :=
  fun _ js => ⟨js, rfl⟩

theorem place_blind (cursor : Option Position) : Blind withJournal (place cursor) :=
  fun _ js => ⟨js, rfl⟩

theorem resolve_blind (p : PageNo) : Blind withJournal (resolve p) := by
  refine .get_bind (fun _ _ => rfl) fun t => ?_
  cases t.resident.byPage[p]? with
  | some id => exact .pure id
  | none => exact (onStore_blind (readNode_blind p)).bind fun n => keep_blind _

theorem held_blind (id : NodeId) : Blind withJournal (held id) :=
  .get_bind (fun _ _ => rfl) fun _ => .orFault _

theorem heldLeaf_blind (id : NodeId) : Blind withJournal (heldLeaf id) := by
  refine (held_blind id).bind fun r => ?_
  cases r.node with
  | leaf l => exact .pure l
  | branch b => exact .fail _

theorem heldBranch_blind (id : NodeId) : Blind withJournal (heldBranch id) := by
  refine (held_blind id).bind fun r => ?_
  cases r.node with
  | leaf l => exact .fail _
  | branch b => exact .pure b

theorem child_blind (id : NodeId) (slot : Nat) : Blind withJournal (child id slot) := by
  refine (held_blind id).bind fun r => ?_
  cases r.node with
  | leaf l => exact .fail _
  | branch b =>
    dsimp only
    rcases b.children[slot]? with _ | ⟨p | c⟩
    · exact .fail _
    · refine (resolve_blind p).bind fun c => (held_blind id).bind fun r => ?_
      exact (put_blind id _).bind fun _ => .pure c
    · exact .pure c

theorem writeTo_blind (id : NodeId) (p : PageNo) : Blind withJournal (writeTo id p) := by
  refine (held_blind id).bind fun r => .get_bind (fun _ _ => rfl) fun t => ?_
  refine (Blind.orFault _).bind fun n => (Node.encode_blind p n).bind fun b => ?_
  exact onStore_blind (PageStore.writePage_blind p b)

theorem write_blind (id : NodeId) : Blind withJournal (write id) :=
  (held_blind id).bind fun r => writeTo_blind id r.page

theorem update_blind (id : NodeId) (n : NodeOf Slot) : Blind withJournal (update id n) :=
  (put_blind id n).bind fun _ => write_blind id

/-! ## Reading -/

/-- A walk that starts at the root and is as long as the pages allow. -/
theorem fromRoot_blind {walk : Nat → NodeId → Call Tree α}
    (h : ∀ limit id, Blind withJournal (walk limit id)) :
    Blind withJournal (do let t ← get; walk t.walkLimit t.rootId) :=
  .get_bind (fun _ _ => rfl) fun t => h t.walkLimit t.rootId

theorem lookupBelow_blind (key : UInt64) (limit : Nat) (id : NodeId) :
    Blind withJournal (lookupBelow key limit id) := by
  induction limit generalizing id with
  | zero => exact .throw _
  | succ limit ih =>
    refine (held_blind id).bind fun r => ?_
    cases r.node with
    | leaf l => exact .pure _
    | branch b => exact .findSomeM? (fun slot => (child_blind id slot).bind fun c => ih c) _

theorem leafBelow_blind (slot? : Branch Slot → Option Nat) (limit : Nat) (id : NodeId) :
    Blind withJournal (leafBelow slot? limit id) := by
  induction limit generalizing id with
  | zero => exact .throw _
  | succ limit ih =>
    refine (held_blind id).bind fun r => ?_
    cases r.node with
    | leaf l => exact .pure _
    | branch b =>
      exact (Blind.orFault _).bind fun slot => (child_blind id slot).bind fun c => ih c

theorem dumpBelow_blind (limit depth : Nat) (id : NodeId) :
    Blind withJournal (dumpBelow limit depth id) := by
  induction limit generalizing depth id with
  | zero => exact .throw _
  | succ limit ih =>
    refine (held_blind id).bind fun r => ?_
    cases r.node with
    | leaf l => exact .pure _
    | branch b =>
      refine Blind.bind (.mapM (fun slot => ?_) _) fun below => .pure _
      exact (child_blind id slot).bind fun c => ih (depth + 1) c

theorem cursorLeaf_blind (pos : Position) : Blind withJournal (cursorLeaf pos) := by
  refine (held_blind pos.leaf).bind fun r => ?_
  cases r.node with
  | leaf l => exact .pure l
  | branch b => exact .fail _

theorem seek_blind (limit : Nat) : Blind withJournal (seek limit) := by
  induction limit with
  | zero => exact .throw _
  | succ limit ih =>
    refine .get_bind (fun _ _ => rfl) fun t => ?_
    cases t.cursor with
    | none => exact .pure _
    | some pos =>
      refine (cursorLeaf_blind pos).bind fun l => ?_
      split
      · exact .pure _
      cases l.next with
      | none => exact place_blind none
      | some next => exact (resolve_blind next).bind fun c => (place_blind _).bind fun _ => ih

theorem seekEntry_blind : Blind withJournal seekEntry :=
  .get_bind (fun _ _ => rfl) fun t => seek_blind t.walkLimit

theorem scanFrom_blind (limit : Nat) : Blind withJournal (scanFrom limit) := by
  induction limit with
  | zero => exact .throw _
  | succ limit ih =>
    refine .get_bind (fun _ _ => rfl) fun t => ?_
    cases t.cursor with
    | none => exact .pure _
    | some pos =>
      refine (cursorLeaf_blind pos).bind fun l => (place_blind _).bind fun _ => ?_
      exact seekEntry_blind.bind fun _ => ih.bind fun es => .pure _

theorem get?_blind (key : UInt64) : Blind withJournal (get? key) :=
  fromRoot_blind (lookupBelow_blind key)

theorem firstLeaf_blind : Blind withJournal firstLeaf := fromRoot_blind (leafBelow_blind _)

theorem lastLeaf_blind : Blind withJournal lastLeaf := fromRoot_blind (leafBelow_blind _)

theorem lastLeafSize_blind : Blind withJournal lastLeafSize := lastLeaf_blind.bind fun _ => .pure _

theorem dump_blind : Blind withJournal dump := fromRoot_blind (dumpBelow_blind · 0)

theorem scan_blind : Blind withJournal scan := by
  have hfront : Blind withJournal toFront :=
    firstLeaf_blind.bind fun x => (place_blind _).bind fun _ => seekEntry_blind
  exact hfront.bind fun _ => .get_bind (fun _ _ => rfl) fun t => scanFrom_blind t.walkLimit

theorem greatestKey_blind : Blind withJournal greatestKey := by
  refine lastLeaf_blind.bind fun x => ?_
  cases x.2.keys.getLast? with
  | some key => exact .pure _
  | none => exact scan_blind.bind fun es => .pure _

theorem nextId_blind : Blind withJournal nextId := by
  refine greatestKey_blind.bind fun k => ?_
  cases k with
  | none => exact .pure _
  | some key => exact .orFault _

/-! ## Changing -/

theorem updateBranch_blind (id : NodeId) (f : Branch Slot → Option (Branch Slot)) :
    Blind withJournal (updateBranch id f) := by
  refine (held_blind id).bind fun r => ?_
  cases r.node with
  | leaf l => exact .pure _
  | branch b => exact (Blind.orFault _).bind fun c => update_blind id _

theorem tidy_blind (id : NodeId) (slot : Nat) (c : NodeId) : Blind withJournal (tidy id slot c) := by
  refine (held_blind c).bind fun r => ?_
  cases r.node with
  | leaf l =>
    dsimp only
    split
    · refine (held_blind id).bind fun r => ?_
      cases r.node with
      | leaf l => exact .pure _
      | branch b =>
        dsimp only
        split
        · exact updateBranch_blind id _
        · exact .pure _
    · exact .pure _
  | branch d =>
    dsimp only
    split
    · exact (Blind.orFault _).bind fun only => updateBranch_blind id _
    · exact .pure _

theorem eraseBelow_blind (key : UInt64) (limit : Nat) (id : NodeId) :
    Blind withJournal (eraseBelow key limit id) := by
  induction limit generalizing id with
  | zero => exact .throw _
  | succ limit ih =>
    refine (held_blind id).bind fun r => ?_
    cases r.node with
    | leaf l =>
      dsimp only
      split
      · exact (update_blind id _).bind fun _ => .pure true
      · exact .pure false
    | branch b =>
      refine .anyM (fun slot => ?_) _
      refine (child_blind id slot).bind fun c => (ih c).bind fun erased => ?_
      cases erased with
      | true => exact (tidy_blind id slot c).bind fun _ => .pure true
      | false => exact .pure false

theorem erase_blind (key : UInt64) : Blind withJournal (erase key) :=
  fromRoot_blind (eraseBelow_blind key)

theorem allocate_blind : Blind withJournal (onStore PageStore.allocate) :=
  onStore_blind PageStore.allocate_blind

theorem putHalves_blind (id : NodeId) (right : PageNo) (x : NodeOf Slot × UInt64 × NodeOf Slot) :
    Blind withJournal (putHalves id right x) := by
  obtain ⟨l, key, r⟩ := x
  refine (put_blind id l).bind fun _ => (keep_blind _).bind fun new => ?_
  exact (write_blind new).bind fun _ => (write_blind id).bind fun _ => .pure _

theorem splitLeaf_blind (id : NodeId) : Blind withJournal (splitLeaf id) :=
  allocate_blind.bind fun right => (heldLeaf_blind id).bind fun _ =>
    (Blind.orFault _).bind fun _ => putHalves_blind id right _

theorem splitBranch_blind (id : NodeId) : Blind withJournal (splitBranch id) :=
  allocate_blind.bind fun right => (heldBranch_blind id).bind fun _ =>
    (Blind.orFault _).bind fun _ => putHalves_blind id right _

theorem insertIntoLeaf_blind (id : NodeId) (e : Entry) :
    Blind withJournal (insertIntoLeaf id e) := by
  refine (heldLeaf_blind id).bind fun l => (put_blind id _).bind fun _ => ?_
  split
  · exact (splitLeaf_blind id).bind fun s => .pure _
  · exact (write_blind id).bind fun _ => .pure _

theorem absorb_blind (id : NodeId) (slot : Nat) (s : Split) :
    Blind withJournal (absorb id slot s) := by
  refine (heldBranch_blind id).bind fun b => (Blind.orFault _).bind fun c => ?_
  refine (put_blind id _).bind fun _ => ?_
  split
  · exact (splitBranch_blind id).bind fun s => .pure _
  · exact (write_blind id).bind fun _ => .pure _

theorem insertBelow_blind (e : Entry) (limit : Nat) (id : NodeId) :
    Blind withJournal (insertBelow e limit id) := by
  induction limit generalizing id with
  | zero => exact .throw _
  | succ limit ih =>
    refine (held_blind id).bind fun r => ?_
    cases r.node with
    | leaf l => exact insertIntoLeaf_blind id e
    | branch b =>
      refine (child_blind id _).bind fun c => (ih c).bind fun s => ?_
      cases s with
      | some s => exact absorb_blind id _ s
      | none => exact .pure none

theorem rebind_blind (id : NodeId) (p : PageNo) : Blind withJournal (rebind id p) := by
  intro t js
  refine ⟨js, ?_⟩
  simp only [rebind, result_bind_ok (result_get _)]
  simp only [show (t.withJournal js).resident = t.resident from rfl]
  cases t.resident.rebind? id p <;> rfl

theorem raiseRoot_blind (s : Split) : Blind withJournal (raiseRoot s) := by
  refine (held_blind s.left).bind fun r => allocate_blind.bind fun moved => ?_
  refine (writeTo_blind s.left moved).bind fun _ => (rebind_blind s.left moved).bind fun _ => ?_
  refine (keep_blind _).bind fun id => (write_blind id).bind fun _ => ?_
  exact .modify fun _ js => ⟨js, rfl⟩

theorem insert_blind (key : UInt64) (value : ByteArray) : Blind withJournal (insert key value) := by
  rw [insert]
  refine .guard <| .get_bind (fun _ _ => rfl) fun t => (insertBelow_blind _ _ _).bind fun s => ?_
  cases s with
  | some s => exact raiseRoot_blind s
  | none => exact .pure _

/-! ## Handles -/

/-- A fresh handle is the same but for the journal. -/
theorem load_blind {s s' : PageStore} {t : Tree} (js : List SparseFile) (root : PageNo)
    (h : (load root).result s = (.ok t, s')) : ∃ js' js'',
      (load root).result (s.withJournal js) = (.ok (t.withJournal js'), s'.withJournal js'') := by
  obtain ⟨js', hread⟩ := readNode_blind root s js
  obtain ⟨n, s₁, hn, hrest⟩ := exists_of_bind_ok h
  rw [hn] at hread
  cases hrest
  exact ⟨js', js', by rw [load, result_bind_ok hread]; rfl⟩

theorem on_blind {c : Call Tree α} (hc : Blind withJournal c) (root : PageNo) :
    Blind PageStore.withJournal (on root c) := by
  intro s js
  rcases hload : (load root).result s with ⟨r, s'⟩
  cases r with
  | ok t =>
    obtain ⟨js', js'', hload'⟩ := load_blind js root hload
    obtain ⟨js₁, hrun⟩ := hc t js'
    exact ⟨js₁, by rw [on_loaded hload, on_loaded hload', hrun]; rfl⟩
  | error i =>
    obtain ⟨js', hload'⟩ : ∃ js', (load root).result (s.withJournal js) =
        (.error i, s'.withJournal js') := by
      obtain ⟨js', hread⟩ := readNode_blind root s js
      rcases hn : (readNode root).result s with ⟨r, s₁⟩
      rw [hn] at hread
      cases r with
      | ok n =>
        rw [load, result_bind_ok hn] at hload
        cases hload
      | error e =>
        rw [load, result_bind_error hn] at hload
        cases hload
        exact ⟨js', by rw [load, result_bind_error hread]⟩
    refine ⟨js', ?_⟩
    rw [on, result_bind_error hload, result_bind_error hload']

end Tree

theorem Catalog.tables_blind : Blind PageStore.withJournal Catalog.tables :=
  (Tree.on_blind Tree.scan_blind root).bind fun _ => .ofExcept _

end PagedTree
