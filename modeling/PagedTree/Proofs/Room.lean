import Mathlib.Algebra.GroupWithZero.Nat
import PagedTree.Proofs.Histories

/-! # Room for insertions

An insertion asks for a page for every node that splits and for one more if the root does. So it ends
well in a file that may become twice as large, and a tree takes in entry after entry as long as the
file may go on growing like that, whatever their keys are. What a tree has can be taken out again in
any order.
-/
namespace PagedTree

variable {e : Entry} {s : Shape} {fs gs : List PageNo} {g g' : Growth} {ws vs : List (PageNo × Node)}

/-! ## Pages asked for -/

theorem LeafInserted.length_le {p : PageNo} {l : Leaf} (h : LeafInserted e p l fs g ws) :
    fs.length ≤ 1 := by
  cases h <;> simp

theorem Absorbed.length_le {p : PageNo} {ks ls : List UInt64} {cs ds : List Shape}
    (h : Absorbed p ks ls cs ds g gs g' vs) : gs.length ≤ 1 := by
  cases h <;> simp

/-- Below the root an insertion asks for no more pages than there are nodes. -/
theorem Inserted.length_le (h : Inserted e s fs g ws) : fs.length ≤ s.pages.length := by
  induction h with
  | leaf h => simpa using h.length_le
  | full => simp
  | branch _ _ _ habs ih =>
    have hgs := habs.length_le
    simp only [Shape.pages_branch, List.length_cons, List.flatMap_append, List.flatMap_cons,
      List.length_append]
    omega

/-- One page more is for the left half of the root. One that finds no page has not asked for that. -/
theorem Insertion.length_le (h : Insertion e s fs g ws) : fs.length ≤ s.pages.length + 1 ∧
    (¬g.Going → fs.length ≤ s.pages.length) := by
  cases h with
  | whole h | stopped h | full h => exact ⟨Nat.le_succ_of_le h.length_le, fun _ => h.length_le⟩
  | raised h => exact ⟨by simpa using h.length_le, fun hg => absurd trivial hg⟩

/-! ## Files that may grow -/

namespace PageStore

/-- A file may have so many pages: the cursor behind them is still a word. -/
def Allows (n : Nat) : Prop := firstPageOffset + pageSize * n < UInt32.size

instance (n : Nat) : Decidable (Allows n) := inferInstanceAs (Decidable (_ < _))

theorem Allows.mono {m n : Nat} (h : Allows n) (hle : m ≤ n) : Allows m :=
  Nat.lt_of_le_of_lt (Nat.add_le_add_left (Nat.mul_le_mul_left pageSize hle) _) h

/-- The file may so many times become twice as large and two pages larger. -/
def RoomFor (store : PageStore) (n : Nat) : Prop := Allows ((store.pageCount + 2) * 2 ^ n)

variable {store store' : PageStore} {m n : Nat}

theorem RoomFor.allows (h : store.RoomFor (n + 1)) (hm : m ≤ 2 * store.pageCount + 2) : Allows m := by
  refine Allows.mono h ?_
  calc m ≤ 2 * (store.pageCount + 2) := by omega
    _ ≤ 2 * (store.pageCount + 2) * 2 ^ n := Nat.le_mul_of_pos_right _ (Nat.two_pow_pos n)
    _ = (store.pageCount + 2) * 2 ^ (n + 1) := by
      rw [Nat.mul_comm 2, Nat.mul_assoc, ← Nat.pow_succ']

theorem RoomFor.hasRoom (h : store.RoomFor (n + 1)) (hsound : store'.header.Sound)
    (hle : store'.pageCount ≤ 2 * store.pageCount + 1) : store'.HasRoom :=
  (hasRoom_iff hsound).2 (h.allows (by omega))

theorem RoomFor.next (h : store.RoomFor (n + 1))
    (hle : store'.pageCount ≤ 2 * store.pageCount + 2) : store'.RoomFor n := by
  refine Allows.mono h ?_
  calc (store'.pageCount + 2) * 2 ^ n ≤ (store.pageCount + 2) * 2 * 2 ^ n :=
        Nat.mul_le_mul_right _ (by omega)
    _ = (store.pageCount + 2) * 2 ^ (n + 1) := by rw [Nat.mul_assoc, ← Nat.pow_succ']

end PageStore

/-- A tree has no more nodes than there are pages. -/
theorem Shape.Stands.length_pages_le {store : PageStore} (h : s.Stands store.view) :
    s.pages.length ≤ store.pageCount := length_le_of_nodup h.distinct h.on.lt_pageCount

namespace Tree

variable {t t' u : Tree} {s' : Shape} {root : PageNo} {rs qs : List Request}
  {rule : Request → Tree → Prop} {n : Nat}

/-- In a file that may become twice as large an insertion finds its pages. -/
theorem Represents.insert_room (h : t.Represents s) (key : UInt64) {value : ByteArray}
    (hv : value.size ≤ maxValueSize) (hroom : t.store.RoomFor (n + 1)) :
    ∃ t' s', (insert key value).result t = (.ok (), t') ∧ t'.Represents s' ∧
      s'.entries.Perm (⟨key, value⟩ :: s.entries) ∧ t'.store.RoomFor n := by
  have hsound := h.coherent.sound
  have hpages := h.stands.length_pages_le
  obtain ⟨fs, g, ws, r, t', hrun, hins, hwrote, hentered⟩ := h.insert_ok hv key
  obtain ⟨hlen, hstopped⟩ := hins.length_le
  have hcount := hwrote.pageCount_eq hsound
  cases g with
  | whole s' =>
    obtain ⟨rfl, hrep⟩ := hentered
    obtain ⟨-, -, hentries⟩ :=
      hins.stands h.stands (hwrote.unseen hsound) (hwrote.fresh hsound).1 hv
    obtain ⟨pre, post, hcut, hwith, -⟩ := h.stands.ordered.entriesWith ⟨key, value⟩
    refine ⟨t', s', hrun, hrep, ?_, hroom.next (by omega)⟩
    rw [hentries, hwith, hcut]
    exact List.perm_middle
  | halves => exact hentered.elim
  | stopped kept held =>
    -- there is a page left over, so none was missing
    have hfew := hstopped (by simp)
    exact absurd (hroom.hasRoom (hwrote.sound hsound) (by omega)) hentered.2.1

/-! ## Runs -/

/-- Requests that are made on a handle one after the other, all of which end well. -/
inductive Runs : Tree → List Request → Tree → Prop where
  | nil {t : Tree} : Runs t [] t
  | cons {t u t' : Tree} {r : Request} {rs : List Request} : r.run.result t = (.ok (), u) →
      Runs u rs t' → Runs t (r :: rs) t'

namespace Runs

theorem reached (hruns : t.Runs rs t') (h : Reached root t) : Reached root t' := by
  induction hruns with
  | nil => exact h
  | cons hrun _ ih => exact ih (.request _ h hrun)

theorem governed (hruns : t.Runs rs t') (hrule : ∀ r ∈ rs, ∀ u, rule r u)
    (h : Governed rule root qs t) : Governed rule root (rs.reverse ++ qs) t' := by
  induction hruns generalizing qs with
  | nil => exact h
  | @cons t u t' r rs hrun _ ih =>
    have hnext := h.request r hrun (hrule r List.mem_cons_self u)
    rw [List.reverse_cons, List.append_assoc]
    exact ih (fun q hq => hrule q (List.mem_cons_of_mem _ hq)) hnext

end Runs

/-- Entries can be inserted one after the other as long as there is room. -/
theorem Represents.insert_all (h : t.Represents s) (es : List Entry)
    (hv : ∀ e ∈ es, e.value.size ≤ maxValueSize) (hroom : t.store.RoomFor (n + es.length)) :
    ∃ t' s', t.Runs (es.map fun e => .insert e.key e.value) t' ∧ t'.Represents s' ∧
      s'.entries.Perm (es ++ s.entries) ∧ t'.store.RoomFor n := by
  induction es generalizing t s with
  | nil => exact ⟨t, s, .nil, h, .refl _, hroom⟩
  | cons e es ih =>
    obtain ⟨u, s₁, hrun, hrep, hperm, hless⟩ :=
      h.insert_room e.key (hv e List.mem_cons_self) hroom
    obtain ⟨t', s', hruns, hrep', hperm', hleft⟩ :=
      ih hrep (fun x hx => hv x (List.mem_cons_of_mem _ hx)) hless
    refine ⟨t', s', .cons hrun hruns, hrep', ?_, hleft⟩
    exact hperm'.trans ((hperm.append_left es).trans List.perm_middle)

/-- Keys that the tree has can be erased, each as often as the tree has it. -/
theorem Represents.erase_all (h : t.Represents s) {ks rest : List UInt64}
    (hkeys : (s.entries.map Entry.key).Perm (ks ++ rest)) :
    ∃ t' s', t.Runs (ks.map .erase) t' ∧ t'.Represents s' ∧ s'.entries.Sublist s.entries ∧
      (s'.entries.map Entry.key).Perm rest := by
  induction ks generalizing t s with
  | nil => exact ⟨t, s, .nil, h, .refl _, hkeys⟩
  | cons key ks ih =>
    have hmem : key ∈ s.entries.map Entry.key := hkeys.symm.subset (by simp)
    obtain ⟨x, hx, hxkey⟩ := List.mem_map.1 hmem
    rcases h.erase_ok key with ⟨u, -, -, hnone⟩ | ⟨u, hrun, ws, s₁, herased, -, hrep⟩
    · exact absurd hxkey (h.stands.ordered.find?_eq_none hnone x hx)
    · obtain ⟨pre, v, post, hentries, hentries₁⟩ := herased.entries h.stands
      have hsub : s₁.entries.Sublist s.entries := by
        rw [hentries, hentries₁]
        exact (List.sublist_cons_self _ post).append_left pre
      have hfewer : (s₁.entries.map Entry.key).Perm (ks ++ rest) := by
        have hcut : (s.entries.map Entry.key).Perm (key :: s₁.entries.map Entry.key) := by
          rw [hentries, hentries₁]
          exact List.perm_middle.map Entry.key
        exact (hcut.symm.trans hkeys).cons_inv
      obtain ⟨t', s', hruns, hrep', hsub', hperm⟩ := ih hrep hfewer
      refine ⟨t', s', .cons ?_ hruns, hrep', hsub'.trans hsub, hperm⟩
      rw [Request.run, Call.result_silent, hrun]
      rfl

/-- The keys of a tree stand in their order. -/
theorem Represents.keys_eq (h : t.Represents s) {ks : List UInt64}
    (hkeys : (s.entries.map Entry.key).Perm ks) (hsorted : ks.Pairwise (· ≤ ·)) :
    s.entries.map Entry.key = ks :=
  hkeys.eq_of_pairwise (fun _ _ _ _ => UInt64.le_antisymm)
    (List.pairwise_map.2 h.stands.ordered.sorted) hsorted

/-- Entries that share a value are known from their keys. -/
theorem Represents.entries_eq (h : t.Represents s) {ks : List UInt64} {value : ByteArray}
    (hvalues : ∀ e ∈ s.entries, e.value = value) (hkeys : (s.entries.map Entry.key).Perm ks)
    (hsorted : ks.Pairwise (· ≤ ·)) : s.entries = ks.map fun key => ⟨key, value⟩ := by
  rw [← h.keys_eq hkeys hsorted, List.map_map]
  exact (List.map_id' _).symm.trans (List.map_congr_left fun e he => by simp [← hvalues e he])

/-- A tree in a new store takes in some entries under any rule that lets it. -/
theorem exists_filled {es : List Entry} (hlen : es.length ≤ 15)
    (hv : ∀ e ∈ es, e.value.size ≤ maxValueSize)
    (hrule : ∀ e ∈ es, ∀ u, rule (.insert e.key e.value) u) :
    ∃ rs t s, Governed rule 0 rs t ∧ t.Represents s ∧ s.entries.Perm es := by
  obtain ⟨store, s₁, s₂, t, hs, hcreate, hload, hcount⟩ := exists_created
  obtain ⟨hsound, hsynced, hstands⟩ := create_represents hs.sound hcreate
  obtain ⟨u, hrun, hstore, -, hrep⟩ := load_represents hstands hsound hsynced
  cases hload.symm.trans hrun
  have hroom : t.store.RoomFor (15 - es.length + es.length) := by
    rw [Nat.sub_add_cancel hlen, PageStore.RoomFor, hstore, hcount]
    decide
  obtain ⟨t', s', hruns, hrep', hperm, -⟩ := hrep.insert_all es hv hroom
  refine ⟨_, t', s', hruns.governed ?_ (.create hs hcreate hload), hrep', ?_⟩
  · intro r hr
    obtain ⟨e, he, rfl⟩ := List.mem_map.1 hr
    exact hrule e he
  · simpa [Leaf.empty] using hperm

/-- A tree in a new store can have any few keys, also after others have come and gone. -/
theorem exists_keys {gone ks : List UInt64} (hlen : gone.length + ks.length ≤ 15)
    (hsorted : ks.Pairwise (· ≤ ·)) : ∃ t s, Reached 0 t ∧ t.Represents s ∧
      s.entries = (ks.map fun key => ⟨key, .empty⟩) ∧
      ∀ n, (order - 1) * n < ks.length → n < s.leaves.length := by
  have hvalues : ∀ e ∈ (gone ++ ks).map fun key => (⟨key, .empty⟩ : Entry), e.value = .empty := by
    intro e he
    obtain ⟨key, -, rfl⟩ := List.mem_map.1 he
    rfl
  obtain ⟨rs, t, s, hrs, hrep, hperm⟩ := @exists_filled (fun _ _ => True) _ (by simpa using hlen)
    (fun e he => hvalues e he ▸ Nat.zero_le _) (fun _ _ _ => trivial)
  have hkeys : (s.entries.map Entry.key).Perm (gone ++ ks) := by
    simpa [Function.comp_def] using hperm.map Entry.key
  obtain ⟨t', s', hruns, hrep', hsub, hrest⟩ := hrep.erase_all hkeys
  have hentries := hrep'.entries_eq (fun e he => hvalues e (hperm.subset (hsub.subset he))) hrest
    hsorted
  refine ⟨t', s', hruns.reached hrs.reached, hrep', hentries, fun n hn => ?_⟩
  exact hrep'.stands.small.lt_length_leaves (by rwa [hentries, List.length_map])

end Tree

end PagedTree
