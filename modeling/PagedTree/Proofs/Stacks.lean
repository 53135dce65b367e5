import PagedTree.Proofs.Histories
import PagedTree.Proofs.Strictness

/-! # Each key as a stack

An entry goes in front of all with its key, and erasures take the first. As long as no key fills a
leaf this is so wherever the leaf has been split, and the values under a key are a stack.
-/
namespace PagedTree.Tree

variable {t t' : Tree} {s s' : Shape} {root : PageNo} {rs : List Request} {r : Request}
  {fs : List PageNo} {ws : List (PageNo × Node)}

/-- The values under the key that the requests, the newest first, have put in and not taken out again,
where each erasure takes the newest. -/
def stack (key : UInt64) : List Request → List ByteArray
  | [] => []
  | .insert k v :: rs => if k = key then v :: stack key rs else stack key rs
  | .erase k :: rs => if k = key then (stack key rs).tail else stack key rs
  | _ :: rs => stack key rs

/-- After an insertion no key has entries enough to fill a leaf. -/
def FewCopies (r : Request) (t : Tree) : Prop :=
  (∃ key value, r = .insert key value) → ∀ es, t.Shows es → ∀ key, es.countP (·.key == key) ≤ order - 1

theorem stack_read (h : r.Reads) (key : UInt64) : stack key (r :: rs) = stack key rs := by
  cases r with
  | insert | erase => exact h.elim
  | get | scan | dump | toFront | toNext | lastLeafSize | greatestKey | nextId => rfl

/-- Each request does to the values under a key what it does to the stack. -/
theorem Request.Makes.stacked {P : Pages} (h : r.Makes s fs ws s') (hstrict : s.Strict)
    (hs : s.Stands P) (hlisted : ∀ key, valuesUnder key s.entries = stack key rs) (key : UInt64) :
    valuesUnder key s'.entries = stack key (r :: rs) := by
  cases h with
  | @inserted k v fs ws s' _ hins =>
    obtain ⟨pre, post, hentries, hwith, hpre⟩ := hstrict.entriesWith hs.ordered ⟨k, v⟩
    rw [hins.entries hs.on, hwith, stack, ← hlisted key, hentries]
    split
    case isTrue he =>
      subst he
      exact valuesUnder_cut fun x hx => UInt64.ne_of_lt (hpre x hx)
    case isFalse hne => exact valuesUnder_other hne
  | @erased k v ws s' herased =>
    obtain ⟨pre, post, hentries, hentries', hpre⟩ := herased.first hstrict hs.ordered
    rw [hentries', stack, ← hlisted key, hentries]
    split
    case isTrue he =>
      subst he
      rw [valuesUnder_cut hpre, List.tail_cons]
    case isFalse hne => exact (valuesUnder_other hne).symm
  | @missed k hfind =>
    rw [hlisted, stack]
    split
    case isTrue he =>
      subst he
      rw [← hlisted, valuesUnder_eq_nil.2 (hs.ordered.find?_eq_none hfind), List.tail_nil]
    case isFalse => rfl
  | read hr => rw [hlisted, stack_read hr]

/-- A tree in which each key is a stack. -/
structure Stacked (root : PageNo) (t : Tree) (s : Shape) (rs : List Request) : Prop
    extends Displays root t s where
  below : ∀ p keys kids, .branch p keys kids ∈ s.parts → ∀ (i : Nat) (k : UInt64) (c : Shape),
    keys[i]? = some k → kids[i]? = some c → ∀ e ∈ c.entries, e.key < k
  together : ∀ x ∈ s.leaves, ∀ y ∈ s.leaves, ∀ key, key ∈ x.2.keys → key ∈ y.2.keys → x = y
  listed : ∀ key, valuesUnder key s.entries = stack key rs
  got : ∀ key, ∃ t', (get? key).result t = (.ok (stack key rs).head?, t')
  erased : ∀ key, ∃ found t', (erase key).result t = (.ok found, t') ∧
    (found = false ∧ stack key rs = [] ∧ t'.Shows s.entries ∨
      found = true ∧ ∃ v pre post, (stack key rs).head? = some v ∧
        s.entries = pre ++ ⟨key, v⟩ :: post ∧ (∀ x ∈ pre, x.key ≠ key) ∧ t'.Shows (pre ++ post))

theorem Represents.stacked (h : t.Represents s) (hstrict : s.Strict)
    (hlisted : ∀ key, valuesUnder key s.entries = stack key rs) : Stacked t.root t s rs := by
  have hordered := h.stands.ordered
  refine ⟨h.displays, ?_, ?_, hlisted, ?_, ?_⟩
  · intro p keys kids hpart i k c hk hc
    exact (hstrict p keys kids hpart).getElem? hk hc
  · intro x hx y hy key hkx hky
    exact hstrict.leaf_unique hordered hx hy hkx hky
  · intro key
    obtain ⟨t', hrun, -⟩ := h.get?_ok key
    rw [hstrict.find?_eq hordered, hlisted] at hrun
    exact ⟨t', hrun⟩
  · intro key
    rcases h.erased_ok key with ⟨t', hrun, hadv, hnone⟩ | ⟨t', hrun, v, ws, s', herased, -, hrep⟩
    · refine ⟨false, t', hrun, .inl ⟨rfl, ?_, (h.advance hadv).shows⟩⟩
      rw [← hlisted, valuesUnder_eq_nil.2 (hordered.find?_eq_none hnone)]
    · obtain ⟨pre, post, hentries, hentries', hpre⟩ := herased.first hstrict hordered
      refine ⟨true, t', hrun, .inr ⟨rfl, v, pre, post, ?_, hentries, hpre, hentries' ▸ hrep.shows⟩⟩
      rw [← hlisted, ← hstrict.find?_eq hordered, herased.find?]

/-- As long as no key fills a leaf, the newest entry with a key is the one that is found and taken
out. -/
theorem few_copies_stack (h : Governed FewCopies root rs t) : ∃ s, Stacked root t s rs := by
  obtain ⟨rfl, s, hrep, hstrict, hlisted⟩ := h.represents
    (I := fun rs s => s.Strict ∧ ∀ key, valuesUnder key s.entries = stack key rs)
    ⟨Shape.strict_leaf, fun _ => by simp [Leaf.empty, valuesUnder, stack]⟩
    fun {rs t t' s s' r fs ws} ⟨hstrict, hlisted⟩ hrep hrep' hrule hmakes => by
      refine ⟨?_, hmakes.stacked hstrict hrep.stands hlisted⟩
      cases hmakes with
      | @inserted key value fs ws s' _ hins =>
        have hcount := hrule ⟨key, value, rfl⟩ s'.entries hrep'.shows key
        rw [hins.entries hrep.stands.on] at hcount
        exact hins.strict hstrict hrep.stands (Nat.lt_of_le_pred (by decide) hcount)
      | erased herased => exact herased.erasure.strict hstrict
      | missed | read => exact hstrict
  exact ⟨s, hrep.stacked hstrict hlisted⟩

theorem few_copies_stack_of_two :
    ∃ t, Governed FewCopies 0 [.insert 5 ⟨#[1]⟩, .insert 5 .empty] t ∧
      t.Shows [⟨5, ⟨#[1]⟩⟩, ⟨5, .empty⟩] ∧
      ∃ s, Stacked 0 t s [.insert 5 ⟨#[1]⟩, .insert 5 .empty] := by
  have hfew : ∀ (value : ByteArray) {t : Tree} {es : List Entry}, t.Shows es → es.length ≤ 2 →
      FewCopies (.insert 5 value) t := by
    rintro value t es ⟨u, hu⟩ hlen - fs ⟨u', hu'⟩ key
    cases hu.symm.trans hu'
    exact Nat.le_trans List.countP_le_length (Nat.le_trans hlen (by decide))
  obtain ⟨t, hrs, hrep⟩ := @exists_pair FewCopies 5 .empty ⟨#[1]⟩ (by decide) (by decide) hfew
  have hshows := hrep.shows
  rw [Shape.entries_leaf] at hshows
  exact ⟨t, hrs, hshows, few_copies_stack hrs⟩

end PagedTree.Tree
