import PagedTree.Proofs.CatalogAdding
import PagedTree.Proofs.LayeredChanges
import PagedTree.Proofs.LayeredReading
import PagedTree.Shell.Basic

/-! # Databases in use

A new database is a single page. Calls on its catalog and lines given to shells on any of its pages leave
its file in layers, whether they end well or not, and also a table may lead to any page: where two trees
share pages, or one lies within another, links still only lead down.
-/
namespace PagedTree

/-- However the call ends, it has an end and the file is in layers still. -/
def Call.Settles {α : Type} (L : Layering) (c : Call PageStore α) (s : PageStore) : Prop :=
  c.Ends s (fun _ s' => s'.Settled L) fun i s' => i ≠ .endless ∧ s'.Settled L

section

variable {α β : Type} {L : Layering} {s : PageStore}

namespace Call.Settles

theorem bind {c : Call PageStore α} {f : α → Call PageStore β} (h : c.Settles L s)
    (hf : ∀ a L' s', L'.Extends L → s'.Layered L' → (f a).Settles L' s') : (c >>= f).Settles L s := by
  refine Call.Ends.bind h ?_
  rintro a s' ⟨L', hL', hs'⟩
  exact (hf a L' s' hL' hs').mono (fun _ _ h => h.mono hL') fun _ _ h => ⟨h.1, h.2.mono hL'⟩

theorem pure (hs : s.Layered L) (a : α) : (Pure.pure a : Call PageStore α).Settles L s :=
  Call.Ends.pure hs.settled

theorem fail (hs : s.Layered L) (e : StoreError) : (Call.fail e : Call PageStore α).Settles L s :=
  Call.Ends.of_error (Call.result_fail e s) ⟨by simp, hs.settled⟩

theorem ofExcept (hs : s.Layered L) (x : Except StoreError α) :
    (Call.ofExcept x : Call PageStore α).Settles L s := by
  cases x with
  | ok a => exact pure hs a
  | error e => exact fail hs e

theorem state {c : Call PageStore α} (h : c.Settles L s) : (c.result s).2.Settled L := by
  rcases hrun : c.result s with ⟨r, s'⟩
  cases r with
  | ok a => exact h.good_of_ok hrun
  | error i => exact (h.bad_of_error hrun).2

end Call.Settles

namespace Tree

variable {root : PageNo} {t : Tree} {c : Call Tree α}

theorem Steady.settled {good : α → Tree → Prop} (h : Steady L c t good) :
    c.Ends t (fun _ t' => t'.store.Settled L) (Stops L) :=
  Call.Ends.mono h (fun _ _ h => h.1.layered.store.settled) fun _ _ h => h

theorem load_layered (hs : s.Layered L) (hroot : root.toNat < L.count) :
    ∃ t, (load root).result s = (.ok t, s) ∧ t.store = s ∧ t.Layered L := by
  obtain ⟨n, hn, hsits⟩ := hs.sits root hroot
  refine ⟨_, load_read hn, rfl, hs, Arena.indexed_fresh _, ?_, root, Arena.pageOf?_add_self⟩
  intro id r hr
  obtain rfl := Arena.eq_of_fresh hr
  exact hsits.unloaded _

theorem load_refused (hroot : ¬root.toNat < s.pageCount) :
    ∃ e, (load root).result s = (.error (.error e), s) := by
  obtain ⟨e, -, hread⟩ := readNode_fails (if_neg hroot)
  exact ⟨e, by rw [load, Call.result_bind_error hread]⟩

/-- A call on a handle of its own, on any page. -/
theorem on_settles (hs : s.Layered L) (root : PageNo)
    (hc : ∀ t, t.Layered L → c.Ends t (fun _ t' => t'.store.Settled L) (Stops L)) :
    (on root c).Settles L s := by
  by_cases hroot : root.toNat < L.count
  · obtain ⟨t, hload, -, ht⟩ := load_layered hs hroot
    have hrun := on_loaded hload c
    rcases hct : c.result t with ⟨r, t'⟩
    rw [hct] at hrun
    cases r with
    | ok a => exact .of_ok hrun ((hc t ht).good_of_ok hct)
    | error i => exact .of_error hrun ((hc t ht).bad_of_error hct)
  · obtain ⟨e, hload⟩ := load_refused (hs.count ▸ hroot)
    exact .of_error (by rw [on, Call.result_bind_error hload]) ⟨by simp, hs.settled⟩

/-- The first page of a new tree is an empty leaf, which leads nowhere. -/
theorem create_settles (hs : s.Layered L) (hcount : 0 < L.count) : create.Settles L s := by
  by_cases hroom : s.HasRoom
  · have hp : (0 : PageNo).toNat < L.count := hcount
    have hwithin : NodeOf.WithinOrder (.leaf .empty : Node) := .no_entries none
    obtain ⟨b, hsize, hdecode, hrun⟩ := create_puts hs.sound hroom
    refine .of_ok hrun ⟨L.under 0 hp, Layering.under_extends hp,
      hs.extend hroom hp hsize hdecode ⟨?_, hwithin, ?_⟩⟩
    · rw [PageStore.toNat_allocated, hs.count]
      exact Nat.lt_succ_self _
    · simp [NodeOf.Leads, Leaf.empty]
  · exact .of_error (create_full hroom) ⟨by simp, hs.settled⟩

end Tree

/-! ## Calls on the catalog -/

namespace Catalog

theorem tables_settles (hs : s.Layered L) : tables.Settles L s :=
  (Tree.on_settles hs root fun _ ht => (Tree.scan_steady ht).settled).bind
    fun _ _ _ _ hs' => .ofExcept hs' _

theorem find?_settles (hs : s.Layered L) (name : String) : (find? name).Settles L s :=
  (tables_settles hs).bind fun _ _ _ _ hs' => .pure hs' _

theorem append_settled {t : Tree} (row : UInt64 → ByteArray) (ht : t.Layered L) :
    (append row).Ends t (fun _ t' => t'.store.Settled L) (Tree.Stops L) := by
  refine Call.Ends.bind (Tree.nextId_steady ht) fun rowId t₁ ht₁ => ?_
  refine (Tree.insert_settled rowId (row rowId) ht₁.1.layered).bind fun _ _ hs => ?_
  exact .pure hs

theorem addTable_settles (hs : s.Layered L) (hcount : 0 < L.count) (name sql : String) :
    (addTable name sql).Settles L s := by
  have hmade : ∀ L' s', L'.Extends L → s'.Layered L' → Call.Settles L' (do
      let page ← Tree.create
      let table := fun rowId => (⟨rowId, name, page, sql⟩ : Table)
      return table (← Tree.on root (append fun rowId => (table rowId).encode))) s' := by
    intro L' s' hL' hs'
    refine (Tree.create_settles hs' (Nat.lt_of_lt_of_le hcount hL'.count_le)).bind ?_
    intro page _ _ _ hs''
    refine (Tree.on_settles hs'' root fun _ ht => append_settled _ ht).bind ?_
    exact fun _ _ _ _ hs => .pure hs _
  refine (find?_settles hs name).bind fun table L' s' hL' hs' => ?_
  by_cases h : table.isSome = true
  · rw [if_pos h]
    exact (Call.Settles.fail hs' _).bind fun _ L'' s'' hL'' => hmade L'' s'' (hL'.trans hL'')
  · rw [if_neg h]
    exact hmade L' s' hL' hs'

theorem addRow_settles (hs : s.Layered L) (name : String) (row : Row) :
    (addRow name row).Settles L s := by
  refine (find?_settles hs name).bind fun table _ _ _ hs' => ?_
  cases table with
  | none => exact .fail hs' _
  | some t => exact Tree.on_settles hs' t.root fun _ ht => append_settled _ ht

end Catalog

/-! ## Lines for a shell -/

namespace Shell

theorem perform_settles (hs : s.Layered L) (root : PageNo) (c : Command) :
    (perform root c).Settles L s := by
  have hon : ∀ {α β : Type} {c : Call Tree α} (f : α → Call PageStore β),
      (∀ t, t.Layered L → c.Ends t (fun _ t' => t'.store.Settled L) (Tree.Stops L)) →
      (∀ a L' s', L'.Extends L → s'.Layered L' → (f a).Settles L' s') → (Tree.on root c >>= f).Settles L s :=
    fun f hc hf => (Tree.on_settles hs root hc).bind hf
  cases c with
  | quit => exact .pure hs _
  | help => exact .pure hs _
  | add key value =>
    exact hon _ (fun _ => Tree.insert_settled key value.toUTF8) fun _ _ _ _ hs' => .pure hs' _
  | get key =>
    refine hon _ (fun _ ht => (Tree.get?_steady key ht).settled) fun v _ _ _ hs' => ?_
    cases v <;> exact .pure hs' _
  | del key =>
    refine hon _ (fun _ ht => (Tree.erase_steady key ht).settled) fun erased _ _ _ hs' => ?_
    cases erased <;> exact .pure hs' _
  | scan => exact hon _ (fun _ ht => (Tree.scan_steady ht).settled) fun _ _ _ _ hs' => .pure hs' _
  | print => exact hon _ (fun _ ht => (Tree.dump_steady ht).settled) fun _ _ _ _ hs' => .pure hs' _
  | last =>
    refine Tree.on_settles hs root fun t ht => ?_
    refine Call.Ends.bind (Tree.lastLeafSize_steady ht) fun size t₁ ht₁ => ?_
    refine Call.Ends.bind (Tree.nextId_steady ht₁.1.layered) fun next t₂ ht₂ => ?_
    exact .pure ht₂.1.layered.store.settled
  | tables => exact (Catalog.tables_settles hs).bind fun _ _ _ _ hs' => .pure hs' _

/-- How a shell answers a line, and the shell that is left. -/
inductive Answered (sh : Shell) (line : String) : Reply → Shell → Prop where
  | rejected {e : LineFault} : Command.parse line = .error e → Answered sh line (.rejected e) sh
  | quit : Command.parse line = .ok .quit → Answered sh line .quit sh
  | printed {c : Command} {text : String} {store : PageStore} : Command.parse line = .ok c →
      (perform sh.root c).result sh.store = (.ok text, store) →
      Answered sh line (.print text) { sh with store }
  | stopped {c : Command} {i : Interrupt} {store : PageStore} : Command.parse line = .ok c →
      (perform sh.root c).result sh.store = (.error i, store) →
      Answered sh line (.stopped i) { sh with store }

theorem answer_answered (sh : Shell) (line : String) :
    Answered sh line (sh.answer line).1 (sh.answer line).2 := by
  unfold answer
  split
  case h_1 hparse => exact .rejected hparse
  case h_2 hparse => exact .quit hparse
  case h_3 hparse =>
    dsimp only
    split
    case h_1 hrun => exact .printed hparse (Prod.ext hrun rfl)
    case h_2 hrun => exact .stopped hparse (Prod.ext hrun rfl)

theorem Answered.settled {sh sh' : Shell} {line : String} {reply : Reply}
    (h : Answered sh line reply sh') (hs : sh.store.Layered L) :
    sh'.store.Settled L ∧ sh'.root = sh.root := by
  cases h with
  | rejected => exact ⟨hs.settled, rfl⟩
  | quit => exact ⟨hs.settled, rfl⟩
  | printed _ hrun => exact ⟨(perform_settles hs sh.root _).good_of_ok hrun, rfl⟩
  | stopped _ hrun => exact ⟨((perform_settles hs sh.root _).bad_of_error hrun).2, rfl⟩

/-- The shell after these lines. -/
def after (lines : List String) (sh : Shell) : Shell :=
  lines.foldl (fun sh line => (sh.answer line).2) sh

theorem after_cons (sh : Shell) (line : String) (lines : List String) :
    sh.after (line :: lines) = (sh.answer line).2.after lines := rfl

theorem after_settled (sh : Shell) (hs : sh.store.Layered L) (lines : List String) :
    (sh.after lines).store.Settled L ∧ (sh.after lines).root = sh.root := by
  induction lines generalizing sh L with
  | nil => exact ⟨hs.settled, rfl⟩
  | cons line lines ih =>
    obtain ⟨⟨L', hL', hs'⟩, hroot⟩ := (answer_answered sh line).settled hs
    obtain ⟨hafter, hroot'⟩ := ih _ hs'
    rw [after_cons]
    exact ⟨hafter.mono hL', hroot'.trans hroot⟩

theorem start_of_load {root : PageNo} {t : Tree} {s' : PageStore}
    (h : (Tree.load root).result s = (.ok t, s')) : start s root = .ok ⟨s, root⟩ := by
  rw [start, h]
  rfl

theorem start_ok {sh : Shell} {root : PageNo} (h : start s root = .ok sh) : sh = ⟨s, root⟩ := by
  unfold start at h
  cases hload : ((Tree.load root).result s).1 with
  | error i =>
    rw [hload] at h
    cases h
  | ok t =>
    rw [hload] at h
    cases h
    rfl

end Shell

/-! ## The life of a database -/

theorem PageStore.Layered.forgetJournal (h : s.Layered L) : s.forgetJournal.Layered L :=
  ⟨h.sound, h.synced, h.count, h.sits⟩

namespace Catalog

/-- A database that was new once and has been used since, by calls on its catalog and by lines for shells
on any of its pages, and opened again at any moment. -/
inductive Database : PageStore → Prop where
  | create {disk : Disk} {s : PageStore} : create disk = .ok s → Database s
  | load {path : String} {s s' : PageStore} : Database s → load path (.file s.file) = .ok s' →
      Database s'
  | addTable {s : PageStore} (name sql : String) : Database s →
      Database ((addTable name sql).result s).2
  | addRow {s : PageStore} (name : String) (row : Row) : Database s →
      Database ((addRow name row).result s).2
  | lines {s : PageStore} {root : PageNo} {sh : Shell} (lines : List String) : Database s →
      Shell.start s root = .ok sh → Database (sh.after lines).store

theorem create_layered {disk : Disk} (h : create disk = .ok s) : s.Layered .single := by
  obtain ⟨hkeeps, hcount⟩ := create_keeps h
  refine ⟨hkeeps.forest.sound, hkeeps.synced, hcount, fun p hp => ?_⟩
  obtain rfl : p = root := UInt32.toNat_inj.1 (Nat.lt_one_iff.1 hp)
  have hleaf : s.view root = some (.leaf .empty) := Shape.on_leaf.1 hkeeps.lists.standing.on
  have hwithin : NodeOf.WithinOrder (.leaf .empty : Node) := .no_entries none
  exact ⟨_, hleaf, hp, hwithin, by simp [NodeOf.Leads, Leaf.empty]⟩

theorem load_layered (hs : s.Layered L) (hcount : 0 < L.count) (path : String) :
    load path (.file s.file) = .ok s.forgetJournal ∧ s.forgetJournal.Layered L := by
  refine ⟨?_, hs.forgetJournal⟩
  rw [load, PageStore.load_synced hs.synced path]
  exact if_neg (hs.count ▸ Nat.ne_of_gt hcount)

/-- At every moment of its life the file is in layers. -/
theorem Database.layered (h : Database s) : ∃ L : Layering, 0 < L.count ∧ s.Layered L := by
  have hmore : ∀ {s : PageStore} {L : Layering}, 0 < L.count → s.Settled L →
      ∃ L : Layering, 0 < L.count ∧ s.Layered L := by
    rintro s L hcount ⟨L', hL', hs⟩
    exact ⟨L', Nat.lt_of_lt_of_le hcount hL'.count_le, hs⟩
  induction h with
  | create hrun => exact ⟨.single, Nat.one_pos, create_layered hrun⟩
  | @load path s s' _ hrun ih =>
    obtain ⟨L, hcount, hs⟩ := ih
    obtain ⟨hrun', hs'⟩ := load_layered hs hcount path
    cases hrun.symm.trans hrun'
    exact ⟨L, hcount, hs'⟩
  | addTable name sql _ ih =>
    obtain ⟨L, hcount, hs⟩ := ih
    exact hmore hcount (addTable_settles hs hcount name sql).state
  | addRow name row _ ih =>
    obtain ⟨L, hcount, hs⟩ := ih
    exact hmore hcount (addRow_settles hs name row).state
  | lines lines _ hstart ih =>
    obtain ⟨L, hcount, hs⟩ := ih
    obtain rfl := Shell.start_ok hstart
    exact hmore hcount (Shell.after_settled ⟨_, _⟩ hs lines).1

end Catalog

end

end PagedTree
