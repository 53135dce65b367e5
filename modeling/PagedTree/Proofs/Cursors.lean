import PagedTree.Proofs.Unfailing

/-! # What a change does under a cursor

A move leaves the cursor on an entry or used up. A change leaves the cursor where it is, and the leaf
under it can lose the entry at its index in two ways: the leaf is split and the index belongs to the
right half, or an erasure takes one entry and the index was that of the last. Then the cursor is on no
entry and yet not used up, until it is moved.
-/
namespace PagedTree

/-- Every leaf on the first pages is a leaf on the second ones, which comes from it in this way. -/
def Pages.Turns (R : Leaf → Leaf → Prop) (P Q : Pages) : Prop :=
  ∀ p l, P p = some (.leaf l) → ∃ l', Q p = some (.leaf l') ∧ R l l'

namespace Pages.Turns

variable {R : Leaf → Leaf → Prop} {P Q Q' : Pages}

theorem of_same (hR : ∀ l, R l l) (h : ∀ p l, P p = some (.leaf l) → Q p = some (.leaf l)) :
    P.Turns R Q := fun p l hl => ⟨l, h p l hl, hR l⟩

theorem keep (h : P.Turns R Q) (hQ : ∀ p l, Q p = some (.leaf l) → Q' p = some (.leaf l)) :
    P.Turns R Q' := by
  intro p l hl
  obtain ⟨l', hl', hR⟩ := h p l hl
  exact ⟨l', hQ p l' hl', hR⟩

end Pages.Turns

namespace Tree

/-- What a request can make of a leaf, whether the tree still has it or not. -/
inductive Request.Turns : Request → Leaf → Leaf → Prop where
  | same (r : Request) (l : Leaf) : Turns r l l
  | grown {key : UInt64} {value : ByteArray} {l : Leaf} : (l.insert ⟨key, value⟩).isFull = false →
      Turns (.insert key value) l (l.insert ⟨key, value⟩)
  | split {key mid : UInt64} {value : ByteArray} {q : PageNo} {l a b : Leaf} :
      (l.insert ⟨key, value⟩).isFull = true → (l.insert ⟨key, value⟩).split? q = some (a, mid, b) →
      Turns (.insert key value) l a
  | taken {key : UInt64} {v : ByteArray} {l : Leaf} : l.get? key = some v →
      Turns (.erase key) l (l.erase key)

end Tree

open PagedTree.Tree (Request)

section
variable {P : Pages} {key : UInt64} {value : ByteArray} {p : PageNo} {l : Leaf}
  {as bs : List (PageNo × Leaf)} {s s' : Shape} {fs : List PageNo} {g : Growth}
  {ws : List (PageNo × Node)}

theorem LeafInserted.turns (h : LeafInserted ⟨key, value⟩ p l fs g ws) (hp : P p = some (.leaf l))
    (hfs : ∀ f ∈ fs, P f = none) : P.Turns (Request.insert key value).Turns (P.write ws) := by
  intro q m hm
  by_cases hq : q = p
  · subst hq
    obtain rfl : l = m := by simpa using hp.symm.trans hm
    cases h with
    | fits hfits => exact ⟨_, by rw [Pages.write_cons, Pages.write_nil, Pages.set_same], .grown hfits⟩
    | splits hfull hsplit =>
      exact ⟨_, by rw [Pages.write_cons, Pages.write_cons, Pages.write_nil, Pages.set_same],
        .split hfull hsplit⟩
  · exact ⟨m, h.write_other hfs hq hm, .same _ m⟩

theorem Reaches.turns (h : Reaches P ⟨key, value⟩ p l as bs fs g ws) (hp : P p = some (.leaf l))
    (hfs : ∀ f ∈ fs, P f = none) (hd : fs.Nodup) :
    P.Turns (Request.insert key value).Turns (P.write ws) := by
  cases h with
  | nothing => exact .of_same (.same _) fun _ _ hl => hl
  | @leaf fs gs g₀ _ ws vs hleaf hkeeps _ =>
    have hfs' : ∀ f ∈ fs, P f = none := fun f hf => hfs f (List.mem_append_left _ hf)
    have hway := sameWay_of_keepsWay (hleaf.write_branch hfs' hp) (hleaf.write_fresh hp hfs hd)
      hkeeps
    rw [Pages.write_append]
    exact (hleaf.turns hp hfs').keep fun _ _ => hway.leaf

theorem Inserted.turns (h : Inserted ⟨key, value⟩ s fs g ws) (hs : s.On P)
    (hfs : ∀ f ∈ fs, P f = none) (hd : fs.Nodup) :
    P.Turns (Request.insert key value).Turns (P.write ws) := by
  obtain ⟨as, p, l, bs, hleaves, -, hreach⟩ := h.reaches hs
  have hp : P p = some (.leaf l) := hs.leaf (x := (p, l)) (by simp [hleaves])
  exact hreach.turns hp hfs hd

theorem ErasureStep.turns {w : PageNo × Node} (h : ErasureStep (some key) s w s') (hs : s.On P) :
    P.Turns (Request.erase key).Turns (P.set w.1 w.2) := by
  obtain ⟨as, p, l, v, bs, hleaves, -, hv, rfl⟩ := h.taken
  have hp : P p = some (.leaf l) := hs.leaf (x := (p, l)) (by simp [hleaves])
  intro q m hm
  by_cases hq : q = p
  · subst hq
    obtain rfl : l = m := by simpa using hp.symm.trans hm
    exact ⟨_, Pages.set_same .., .taken hv⟩
  · exact ⟨m, by rw [Pages.set_other _ hq, hm], .same _ m⟩

/-- Tidying up leaves every leaf as it is. -/
theorem Erasure.turns (h : Erasure key s ws s') (hs : s.Stands P) :
    P.Turns (Request.erase key).Turns (P.write ws) := by
  induction h with
  | take hstep => exact hstep.turns hs.on
  | tidy h hstep ih =>
    obtain ⟨⟨b, hb⟩, -⟩ := hstep.tidied (h.stands hs).on
    rw [Pages.write_append]
    refine ih.keep fun q l hl => ?_
    rw [Pages.write_cons, Pages.write_nil, Pages.set_other, hl]
    rintro rfl
    simp [hb] at hl

end

namespace Tree

variable {t t' : Tree} {s : Shape} {root : PageNo} {id : NodeId} {l : Leaf} {r : Request}

/-! ## The leaf under a cursor -/

theorem Coherent.holds_leaf (ht : t.Coherent) {p : PageNo} (hid : t.resident.pageOf? id = some p)
    (hl : t.store.view p = some (.leaf l)) : t.resident.nodeOf? id = some (.leaf l) := by
  rw [Arena.nodeOf?, ht.leaf hid hl]
  rfl

/-- A leaf that is held is on its page. -/
theorem Coherent.exists_page (ht : t.Coherent) (hl : t.resident.nodeOf? id = some (.leaf l)) :
    ∃ p, t.resident.pageOf? id = some p ∧ t.store.view p = some (.leaf l) := by
  obtain ⟨⟨p, n⟩, hr, hn⟩ := Option.map_eq_some_iff.1 hl
  obtain rfl : n = .leaf l := hn
  obtain ⟨m, hm, hview⟩ := ht.agrees id _ hr
  obtain rfl : .leaf l = m := Option.some.inj hm
  exact ⟨p, Arena.pageOf?_of_getElem? hr, hview⟩

theorem Advanced.turns {R : Leaf → Leaf → Prop} {fs : List PageNo} {ws : List (PageNo × Node)}
    (hadv : t.Advanced fs ws t') (ht : t.Coherent) (hturns : t.store.view.Turns R t'.store.view)
    (hl : t.resident.nodeOf? id = some (.leaf l)) :
    ∃ l', t'.resident.nodeOf? id = some (.leaf l') ∧ R l l' := by
  obtain ⟨p, hid, hview⟩ := ht.exists_page hl
  obtain ⟨l', hview', hR⟩ := hturns p l hview
  exact ⟨l', hadv.coherent.holds_leaf (hadv.pages id p hid) hview', hR⟩

/-- A root that is a leaf goes to another page as it is. -/
theorem raiseRoot_leaf (ht : t.Coherent) {n : Node} (hn : t.store.view t.root = some n)
    (hfit : Node.FitsPage n) {new : NodeId} {q : PageNo} (hq : t.resident.pageOf? new = some q)
    (hnew : new ≠ t.rootId) {key : UInt64}
    (hrun : (raiseRoot ⟨key, t.rootId, new⟩).result t = (.ok (), t'))
    (hl : t.resident.nodeOf? id = some (.leaf l)) : t'.resident.nodeOf? id = some (.leaf l) := by
  by_cases hroom : t.store.HasRoom
  · obtain ⟨u, hraise, hwrote, hcoherent, hroot, -, hmoved, hstay⟩ :=
      raiseRoot_ok ht hn hfit hq hnew hroom key
    cases hrun.symm.trans hraise
    obtain ⟨hcopied, hkeep⟩ := raised_view ht hn hwrote
    obtain ⟨p, hid, hview⟩ := ht.exists_page hl
    by_cases hidroot : id = t.rootId
    · subst hidroot
      obtain rfl : p = t.root := Option.some.inj (hid.symm.trans ht.rooted)
      obtain rfl : n = .leaf l := Option.some.inj (hn.symm.trans hview)
      exact hcoherent.holds_leaf hmoved hcopied
    · have hp : p ≠ t.root := fun he => hidroot (ht.indexed.inj (he ▸ hid) ht.rooted)
      exact hcoherent.holds_leaf (hstay id p hidroot hid) (hkeep p _ hp hview)
  · cases hrun.symm.trans (raiseRoot_full ht.rooted hroom key new)

theorem Represents.insert_turns (h : t.Represents s) {key : UInt64} {value : ByteArray}
    (hrun : (insert key value).result t = (.ok (), t'))
    (hl : t.resident.nodeOf? id = some (.leaf l)) :
    ∃ l', t'.resident.nodeOf? id = some (.leaf l') ∧ (Request.insert key value).Turns l l' := by
  by_cases hv : maxValueSize < value.size
  · cases hrun.symm.trans (insert_tooLarge hv key)
  have hsound := h.coherent.sound
  simp only [insert, if_neg hv, Call.result_bind_ok (Call.result_get t)] at hrun
  obtain ⟨fs, g, ws, hins, hgrew⟩ := insertBelow_ok (e := ⟨key, value⟩) (Nat.not_lt.1 hv)
    h.length_parts_le h.stands.distinct h.coherent h.holds
  have hturns : ∀ {u : Tree}, t.Advanced fs ws u →
      t.store.view.Turns (Request.insert key value).Turns u.store.view := fun hadv =>
    (hins.turns h.stands.on (hadv.wrote.unseen hsound) (hadv.wrote.fresh hsound).1).keep
      fun p _ => hadv.wrote.view hsound p _
  cases g with
  | stopped kept held =>
    obtain ⟨u, hbelow, -⟩ := hgrew
    rw [Call.result_bind_error hbelow] at hrun
    cases hrun
  | whole s' =>
    obtain ⟨u, hbelow, hadv⟩ := hgrew
    rw [Call.result_bind_ok hbelow] at hrun
    cases hrun
    exact hadv.turns h.coherent (hturns hadv) hl
  | halves a mid b =>
    obtain ⟨new, u, hbelow, hadv, hnew, hnewroot⟩ := hgrew
    obtain ⟨l', hl', hturn⟩ := hadv.turns h.coherent (hturns hadv) hl
    obtain ⟨hpage, hon, hfit⟩ := h.left_half (Nat.not_lt.1 hv) hins hadv
    rw [Call.result_bind_ok hbelow, ← hadv.rootId] at hrun
    exact ⟨l', raiseRoot_leaf hadv.coherent (hpage ▸ hon.top) hfit hnew (hadv.rootId ▸ hnewroot) hrun
      hl', hturn⟩

theorem Represents.erase_turns (h : t.Represents s) {key : UInt64} {erased : Bool}
    (hrun : (erase key).result t = (.ok erased, t'))
    (hl : t.resident.nodeOf? id = some (.leaf l)) :
    ∃ l', t'.resident.nodeOf? id = some (.leaf l') ∧ (Request.erase key).Turns l l' := by
  rw [erase, Call.result_bind_ok (Call.result_get t)] at hrun
  rcases eraseBelow_ok h.length_parts_le h.stands.distinct h.coherent h.holds with
    ⟨u, hbelow, hadv, -⟩ | ⟨u, hbelow, v, ws, s', herased, hadv⟩
  · cases hrun.symm.trans hbelow
    refine hadv.turns h.coherent (.of_same (.same _) fun p m hm => ?_) hl
    rwa [hadv.store_eq]
  · cases hrun.symm.trans hbelow
    exact hadv.turns h.coherent ((herased.erasure.turns h.stands).keep
      fun p _ => hadv.wrote.view h.coherent.sound p _) hl

theorem Represents.turns (h : t.Represents s) (hrun : r.run.result t = (.ok (), t'))
    (hl : t.resident.nodeOf? id = some (.leaf l)) :
    ∃ l', t'.resident.nodeOf? id = some (.leaf l') ∧ r.Turns l l' := by
  have hread : r.Reads → ∃ l', t'.resident.nodeOf? id = some (.leaf l') ∧ r.Turns l l' := by
    intro hr
    have hadv := h.reads hr
    rw [hrun] at hadv
    refine hadv.turns h.coherent (.of_same (.same r) fun p m hm => ?_) hl
    rwa [hadv.store_eq]
  cases r with
  | insert key value => exact h.insert_turns hrun hl
  | erase key =>
    obtain ⟨erased, herase⟩ := Call.exists_of_silent_ok hrun
    exact h.erase_turns herase hl
  | get | scan | dump | toFront | toNext | lastLeafSize | greatestKey | nextId => exact hread trivial

/-! ## Where a cursor rests -/

/-- The cursor is there just when it has an entry, with its key and its value. -/
def Poised (t : Tree) : Prop := t.cursor.isSome ↔ t.current?.isSome

theorem Poised.of_none (h : t.cursor = none) : t.Poised := by simp [Poised, current?, h]

theorem poised_on {pos : Position} (hpos : t.cursor = some pos)
    (hl : t.resident.nodeOf? pos.leaf = some (.leaf l)) :
    t.Poised ↔ pos.index < l.entries.length := by
  simp [Poised, current?, hpos, hl]

theorem Poised.exists_leaf (h : t.Poised) {pos : Position} (hpos : t.cursor = some pos) :
    ∃ l, t.resident.nodeOf? pos.leaf = some (.leaf l) ∧ pos.index < l.entries.length := by
  have hcurrent : t.current?.isSome := h.1 (by simp [hpos])
  simp only [current?, hpos, Option.bind_eq_bind, Option.bind_some] at hcurrent
  split at hcurrent
  case h_1 l hl => exact ⟨l, hl, by simpa using hcurrent⟩
  case h_2 => simp at hcurrent

theorem cursorLeaf_held {pos : Position} (hrun : (cursorLeaf pos).result t = (.ok l, t')) :
    t' = t ∧ t.resident.nodeOf? pos.leaf = some (.leaf l) := by
  have hstate := cursorLeaf_state (t := t) pos
  rw [hrun] at hstate
  obtain rfl : t' = t := hstate
  obtain ⟨⟨p, n⟩, u, hheld, hrest⟩ := Call.exists_of_bind_ok hrun
  rw [held, Call.result_bind_ok (Call.result_get t')] at hheld
  cases hr : t'.resident.nodes[pos.leaf]? with
  | none =>
    rw [hr] at hheld
    cases hheld
  | some r =>
    rw [hr] at hheld
    cases hheld
    cases n with
    | leaf m =>
      cases hrest
      exact ⟨rfl, by rw [Arena.nodeOf?, hr]; rfl⟩
    | branch b => cases hrest

/-- A walk stops only where there is an entry, or behind the last leaf. -/
theorem seek_poised {limit : Nat} (hrun : (seek limit).result t = (.ok (), t')) : t'.Poised := by
  induction limit generalizing t with
  | zero => cases hrun
  | succ limit ih =>
    rw [seek, Call.result_bind_ok (Call.result_get t)] at hrun
    cases hcursor : t.cursor with
    | none =>
      rw [hcursor] at hrun
      cases hrun
      exact .of_none hcursor
    | some pos =>
      rw [hcursor] at hrun
      obtain ⟨l, u, hleaf, hrest⟩ := Call.exists_of_bind_ok hrun
      obtain ⟨rfl, hl⟩ := cursorLeaf_held hleaf
      by_cases hi : pos.index < l.entries.length
      · rw [if_pos hi] at hrest
        cases hrest
        exact (poised_on hcursor hl).2 hi
      · rw [if_neg hi] at hrest
        cases hnext : l.next with
        | none =>
          rw [hnext] at hrest
          cases hrest
          exact .of_none rfl
        | some next =>
          rw [hnext] at hrest
          obtain ⟨id, _, -, hrest⟩ := Call.exists_of_bind_ok hrest
          obtain ⟨⟨⟩, _, -, hrest⟩ := Call.exists_of_bind_ok hrest
          exact ih hrest

theorem seekEntry_poised (hrun : seekEntry.result t = (.ok (), t')) : t'.Poised := by
  rw [seekEntry, Call.result_bind_ok (Call.result_get t)] at hrun
  exact seek_poised hrun

theorem toFront_poised (hrun : toFront.result t = (.ok (), t')) : t'.Poised := by
  obtain ⟨_, _, -, hrun⟩ := Call.exists_of_bind_ok hrun
  obtain ⟨⟨⟩, _, -, hrun⟩ := Call.exists_of_bind_ok hrun
  exact seekEntry_poised hrun

theorem toNext_poised (hrun : toNext.result t = (.ok (), t')) : t'.Poised := by
  cases hcursor : t.cursor with
  | none =>
    rw [toNext_used hcursor] at hrun
    cases hrun
    exact .of_none hcursor
  | some pos =>
    rw [toNext_at hcursor] at hrun
    exact seekEntry_poised hrun

/-- Requests that put the cursor elsewhere. -/
def Request.Moves (r : Request) : Prop := r = .toFront ∨ r = .toNext

theorem Request.Moves.poised (h : r.Moves) (hrun : r.run.result t = (.ok (), t')) : t'.Poised := by
  rcases h with rfl | rfl
  · exact toFront_poised hrun
  · exact toNext_poised hrun

/-- A request moves the cursor to an entry, uses it up or leaves it alone. -/
theorem cursor_kept (hrun : r.run.result t = (.ok (), t')) :
    t'.Poised ∨ t'.cursor = t.cursor := by
  have hleave : ∀ {α : Type} {c : Call Tree α}, Call.Leaves cursor c →
      c.silent.result t = (.ok (), t') → t'.cursor = t.cursor := by
    intro α c hleaves hsilent
    obtain ⟨a, hc⟩ := Call.exists_of_silent_ok hsilent
    have hcursor := hleaves t
    rwa [hc] at hcursor
  have hgreatest : ∀ {key : Option UInt64} {u : Tree}, greatestKey.result t = (.ok key, u) →
      u.Poised ∨ u.cursor = t.cursor := fun hkey => (greatestKey_cursor hkey).symm.imp_left .of_none
  cases r with
  | insert key value =>
    have hcursor := insert_leaves key value t
    rw [show (insert key value).result t = (.ok (), t') from hrun] at hcursor
    exact .inr hcursor
  | erase key => exact .inr (hleave (erase_leaves key) hrun)
  | get key => exact .inr (hleave (get?_leaves key) hrun)
  | dump => exact .inr (hleave dump_leaves hrun)
  | lastLeafSize => exact .inr (hleave lastLeafSize_leaves hrun)
  | scan =>
    obtain ⟨es, hscan⟩ := Call.exists_of_silent_ok hrun
    exact .inl (.of_none (scan_cursor hscan))
  | toFront => exact .inl (toFront_poised hrun)
  | toNext => exact .inl (toNext_poised hrun)
  | greatestKey =>
    obtain ⟨key, hkey⟩ := Call.exists_of_silent_ok hrun
    exact hgreatest hkey
  | nextId =>
    obtain ⟨next, hnext⟩ := Call.exists_of_silent_ok hrun
    obtain ⟨key, u, hkey, hrest⟩ := Call.exists_of_bind_ok hnext
    have hu := hgreatest hkey
    cases key with
    | none =>
      cases hrest
      exact hu
    | some key =>
      dsimp only at hrest
      split at hrest
      · cases hrest
        exact hu
      · cases hrest

/-! ## Changes that overtake a cursor -/

/-- A change takes the entry away that the cursor rests on and puts none in its place: it splits the
leaf and the right half gets the entry, or it takes an entry out of the leaf, whose last the cursor is
on. -/
inductive Overtaken : Request → Tree → Tree → Prop where
  | split {t t' : Tree} {key mid : UInt64} {value : ByteArray} {pos : Position} {q : PageNo}
      {l a b : Leaf} : t.cursor = some pos → t.resident.nodeOf? pos.leaf = some (.leaf l) →
      (l.insert ⟨key, value⟩).isFull = true → (l.insert ⟨key, value⟩).split? q = some (a, mid, b) →
      t'.resident.nodeOf? pos.leaf = some (.leaf a) → a.entries.length ≤ pos.index →
      Overtaken (.insert key value) t t'
  | erased {t t' : Tree} {key : UInt64} {v : ByteArray} {pos : Position} {l : Leaf} :
      t.cursor = some pos → t.resident.nodeOf? pos.leaf = some (.leaf l) → l.get? key = some v →
      t'.resident.nodeOf? pos.leaf = some (.leaf (l.erase key)) → l.entries.length = pos.index + 1 →
      Overtaken (.erase key) t t'

theorem length_erase {key : UInt64} {v : ByteArray} (h : l.get? key = some v) :
    (l.erase key).entries.length + 1 = l.entries.length := by
  obtain ⟨pre, post, hl, herased⟩ := Leaf.get?_eq_some h
  simp only [hl, herased, List.length_append, List.length_cons]
  omega

theorem Overtaken.not_poised (h : Overtaken r t t') (hrun : r.run.result t = (.ok (), t')) :
    ¬t'.Poised := by
  cases h with
  | @split _ _ key mid value pos q l a b hpos _ _ _ ha hle =>
    have hcursor := insert_leaves key value t
    rw [show (insert key value).result t = (.ok (), t') from hrun] at hcursor
    rw [poised_on (hcursor.trans hpos) ha]
    exact Nat.not_lt.2 hle
  | @erased _ _ key v pos l hpos _ hv hl' hlen =>
    obtain ⟨erased, herase⟩ := Call.exists_of_silent_ok hrun
    have hcursor := erase_leaves key t
    rw [herase] at hcursor
    have hless := length_erase hv
    rw [poised_on (hcursor.trans hpos) hl']
    omega

/-- A cursor on an entry stays on one, unless it is overtaken. -/
theorem Represents.poised_iff (h : t.Represents s) (hpoised : t.Poised)
    (hrun : r.run.result t = (.ok (), t')) : t'.Poised ↔ ¬Overtaken r t t' := by
  refine ⟨fun hp hover => hover.not_poised hrun hp, fun hnot => ?_⟩
  rcases cursor_kept hrun with hp | hcursor
  · exact hp
  cases hpos : t.cursor with
  | none => exact .of_none (hcursor.trans hpos)
  | some pos =>
    obtain ⟨l, hl, hlt⟩ := hpoised.exists_leaf hpos
    obtain ⟨l', hl', hturn⟩ := h.turns hrun hl
    rw [poised_on (hcursor.trans hpos) hl']
    cases hturn with
    | same => exact hlt
    | grown =>
      rw [Leaf.length_insert]
      exact Nat.lt_succ_of_lt hlt
    | split hfull hsplit =>
      exact Nat.not_le.1 fun hle => hnot (.split hpos hl hfull hsplit hl' hle)
    | taken hv =>
      have hless := length_erase hv
      refine Nat.not_le.1 fun hle => hnot (.erased hpos hl hv hl' ?_)
      omega

/-- A handle whose cursor no change has overtaken since it was last moved. Its calls have all ended
well. -/
inductive Unspoiled (root : PageNo) : Tree → Prop where
  | fresh {t : Tree} : Reached root t → t.cursor = none → Unspoiled root t
  | moved {t t' : Tree} {r : Request} : Reached root t → r.Moves → r.run.result t = (.ok (), t') →
      Unspoiled root t'
  | kept {t t' : Tree} {r : Request} : Unspoiled root t → r.run.result t = (.ok (), t') →
      ¬Overtaken r t t' → Unspoiled root t'

theorem Unspoiled.reached (h : Unspoiled root t) : Reached root t ∧ t.Poised := by
  induction h with
  | fresh hreached hcursor => exact ⟨hreached, .of_none hcursor⟩
  | moved hreached hmoves hrun => exact ⟨.request _ hreached hrun, hmoves.poised hrun⟩
  | kept _ hrun hnot ih =>
    obtain ⟨-, s, hrep⟩ := ih.1.represents
    exact ⟨.request _ ih.1 hrun, (hrep.poised_iff ih.2 hrun).2 hnot⟩

/-- A cursor is there just when it has an entry, from each move on until a change overtakes it, and not
from then on. -/
theorem cursor_rests (h : Unspoiled root t) : t.Poised ∧ ∀ r t', r.run.result t = (.ok (), t') →
    (t'.Poised ↔ ¬Overtaken r t t') ∧ (r.Moves → t'.Poised) := by
  obtain ⟨hreached, hpoised⟩ := h.reached
  obtain ⟨-, s, hrep⟩ := hreached.represents
  exact ⟨hpoised, fun r t' hrun => ⟨hrep.poised_iff hpoised hrun, fun hr => hr.poised hrun⟩⟩

/-- In a tree that is one leaf the cursor goes to the first entry. -/
theorem Represents.toFront_leaf {p : PageNo} {es : List Entry}
    (h : t.Represents (.leaf p ⟨es, none⟩)) (hes : es ≠ []) :
    ∃ t' id, toFront.result t = (.ok (), t') ∧ t'.Represents (.leaf p ⟨es, none⟩) ∧
      t'.cursor = some ⟨id, 0⟩ ∧ t'.resident.pageOf? id = some p := by
  obtain ⟨d, f, chain, hdown, hlinks, -⟩ := h.stands.scans
  have hp := Shape.on_leaf.1 h.stands.on
  obtain ⟨-, rfl⟩ := Descent.unique (.leaf hp) hdown
  obtain rfl : chain = [(p, ⟨es, none⟩)] := hlinks.unique ⟨rfl, hp, rfl⟩
  rw [h.page] at hdown
  obtain ⟨t', chain', i, hrun, hadv, hrests, hentries, hsuffix⟩ := toFront_ok h.coherent hdown hlinks
  rcases List.suffix_cons_iff.1 hsuffix with rfl | hnil
  · obtain ⟨id, hcursor, hid⟩ := hrests.cursor
    have hi := congrArg List.length hentries
    have hpos := List.length_pos_iff.2 hes
    simp only [entriesFrom, List.flatMap_nil, List.append_nil, List.length_drop, List.flatMap_cons]
      at hi
    obtain rfl : i = 0 := by omega
    exact ⟨t', id, hrun, h.advance hadv, hcursor, hid⟩
  · obtain rfl := List.suffix_nil.1 hnil
    exact absurd (by simpa [entriesFrom] using hentries) hes

/-- A cursor on the only entry of a tree is left without one when that is erased. -/
theorem cursor_rests_until_erased : ∃ t t', Unspoiled 0 t ∧ t.current? = some ⟨5, .empty⟩ ∧
    (Request.erase 5).run.result t = (.ok (), t') ∧ t'.cursor.isSome ∧ ¬t'.Poised := by
  obtain ⟨u, hreached, hrep⟩ := @exists_one 5 .empty (by decide)
  obtain ⟨t, id, hfront, hrep, hcursor, hid⟩ := hrep.toFront_leaf (by simp)
  have hunspoiled : Unspoiled 0 t := .moved hreached (.inl rfl) hfront
  have hl := hrep.coherent.holds_leaf hid (Shape.on_leaf.1 hrep.stands.on)
  have hcurrent : t.current? = some ⟨5, .empty⟩ := by simp [current?, hcursor, hl]
  have hlimit := hrep.length_parts_le
  rcases @eraseBelow_ok _ _ _ 5 _ hlimit hrep.stands.distinct hrep.coherent hrep.holds with
    ⟨t', -, -, hnone⟩ | ⟨t', hrun, v, ws, s', herased, hadv⟩
  · simp [Shape.find?_leaf, Leaf.get?] at hnone
  cases herased with
  | leaf hv =>
    have herase : (erase 5).result t = (.ok true, t') := by
      rw [erase, Call.result_bind_ok (Call.result_get t), hrun]
    have hrun' : (Request.erase 5).run.result t = (.ok (), t') := by
      rw [Request.run, Call.result_silent, herase]
      rfl
    have hkept := erase_leaves 5 t
    rw [herase] at hkept
    have hcursor' : t'.cursor = some ⟨id, 0⟩ := hkept.trans hcursor
    have hview := hadv.wrote.view hrep.coherent.sound 0 _
      (by rw [Pages.write_cons, Pages.write_nil, Pages.set_same])
    have hl' := hadv.coherent.holds_leaf (hadv.pages id 0 hid) hview
    have hover : Overtaken (.erase 5) t t' := .erased hcursor hl hv hl' rfl
    obtain ⟨-, hall⟩ := cursor_rests hunspoiled
    exact ⟨t, t', hunspoiled, hcurrent, hrun', by simp [hcursor'],
      fun hp => (hall _ t' hrun').1.1 hp hover⟩

end Tree

end PagedTree
