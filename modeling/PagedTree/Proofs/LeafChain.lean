import Mathlib.Data.List.Perm.Subperm
import PagedTree.Proofs.Shape

/-! # The chain of leaves

The links lead from leaf to leaf and stop behind the last one, so they visit no page twice. The
chain holds every leaf of a tree from left to right, and between them leaves that the tree has
dropped, which are empty. A scan needs no more of a tree than the way down to its leftmost leaf and
the chain from there.
-/
namespace PagedTree

/-- Distinct page numbers below a bound are no more than the bound. -/
theorem length_le_of_nodup {ps : List PageNo} (h : ps.Nodup) {n : Nat} (hn : ∀ p ∈ ps, p.toNat < n) :
    ps.length ≤ n := by
  have hmap : (ps.map UInt32.toNat).Nodup :=
    List.Pairwise.map _ (fun a b hab he => hab (UInt32.toNat_inj.1 he)) h
  have hsub : ps.map UInt32.toNat ⊆ List.range n := by
    intro i hi
    obtain ⟨p, hp, rfl⟩ := List.mem_map.1 hi
    exact List.mem_range.2 (hn p hp)
  simpa using (List.subperm_of_subset hmap hsub).length_le

/-- The links from `start` on lead through the leaves in the list, and then to `stop`. -/
def Linked (P : Pages) : Option PageNo → List (PageNo × Leaf) → Option PageNo → Prop
  | start, [], stop => start = stop
  | start, (p, l) :: ls, stop => start = some p ∧ P p = some (.leaf l) ∧ Linked P l.next ls stop

namespace Linked

variable {P Q : Pages} {start stop : Option PageNo} {xs ys : List (PageNo × Leaf)}

theorem append : Linked P start (xs ++ ys) stop ↔
    ∃ mid, Linked P start xs mid ∧ Linked P mid ys stop := by
  induction xs generalizing start with
  | nil => simp [Linked]
  | cons x xs ih => simp only [List.cons_append, Linked, ih, exists_and_left, and_assoc]

theorem leaf (h : Linked P start xs stop) {x : PageNo × Leaf} (hx : x ∈ xs) :
    P x.1 = some (.leaf x.2) := by
  induction xs generalizing start with
  | nil => simp at hx
  | cons y xs ih =>
    rcases List.mem_cons.1 hx with rfl | hx
    · exact h.2.1
    · exact ih h.2.2 hx

theorem mono (h : Linked P start xs stop)
    (hPQ : ∀ x ∈ xs, P x.1 = some (.leaf x.2) → Q x.1 = some (.leaf x.2)) :
    Linked Q start xs stop := by
  induction xs generalizing start with
  | nil => exact h
  | cons x xs ih =>
    exact ⟨h.1, hPQ x List.mem_cons_self h.2.1,
      ih h.2.2 fun y hy => hPQ y (List.mem_cons_of_mem _ hy)⟩

/-- There is one way to follow the links. -/
theorem unique (h : Linked P start xs none) (h' : Linked P start ys none) : xs = ys := by
  induction xs generalizing start ys with
  | nil =>
    cases ys with
    | nil => rfl
    | cons y ys => exact absurd (h.symm.trans h'.1) (by simp)
  | cons x xs ih =>
    cases ys with
    | nil => exact absurd (h'.symm.trans h.1) (by simp)
    | cons y ys =>
      obtain ⟨p, l⟩ := x
      obtain ⟨q, m⟩ := y
      obtain rfl : p = q := Option.some.inj (h.1.symm.trans h'.1)
      obtain rfl : l = m := by simpa using h.2.1.symm.trans h'.2.1
      rw [ih h.2.2 h'.2.2]

/-- Links that come to an end do not come back to a page. -/
theorem nodup (h : Linked P start xs none) : (xs.map Prod.fst).Nodup := by
  induction xs generalizing start with
  | nil => simp
  | cons x xs ih =>
    rw [List.map_cons, List.nodup_cons]
    refine ⟨?_, ih h.2.2⟩
    intro hx
    -- coming back to `x`, the links would lead once more through all of `xs`
    obtain ⟨y, hy, hyx⟩ := List.mem_map.1 hx
    obtain ⟨as, bs, hxs⟩ := List.append_of_mem hy
    have htail := h.2.2
    rw [hxs] at htail
    obtain ⟨mid, -, hfrom⟩ := append.1 htail
    have hmid : mid = start := by rw [hfrom.1, hyx, h.1]
    have hlen := congrArg List.length (unique (hmid ▸ hfrom) h)
    rw [hxs] at hlen
    simp only [List.length_cons, List.length_append] at hlen
    omega

/-- A leaf gives way to others that lead on to where it led. -/
theorem replace {p : PageNo} {l : Leaf} {new : List (PageNo × Leaf)}
    (h : Linked P start (xs ++ (p, l) :: ys) none)
    (hPQ : ∀ q m, q ≠ p → P q = some m → Q q = some m) (hnew : Linked Q (some p) new l.next) :
    Linked Q start (xs ++ (new ++ ys)) none := by
  have hnodup := h.nodup
  rw [List.map_append, List.map_cons] at hnodup
  have hother : ∀ x ∈ xs ++ ys, x.1 ≠ p := by
    intro x hx he
    refine (List.nodup_cons.1 (List.perm_middle.nodup hnodup)).1 ?_
    rw [← List.map_append]
    exact List.mem_map.2 ⟨x, hx, he⟩
  obtain ⟨mid, hxs, rfl, -, hys⟩ := append.1 h
  refine append.2 ⟨some p, ?_, append.2 ⟨l.next, hnew, ?_⟩⟩
  · exact hxs.mono fun x hx => hPQ x.1 _ (hother x (List.mem_append_left _ hx))
  · exact hys.mono fun x hx => hPQ x.1 _ (hother x (List.mem_append_right _ hx))

theorem length_le (h : Linked P start xs none) {n : Nat}
    (hn : ∀ p m, P p = some m → p.toNat < n) : xs.length ≤ n := by
  have hle := length_le_of_nodup h.nodup (n := n) fun p hp => by
    obtain ⟨x, hx, rfl⟩ := List.mem_map.1 hp
    exact hn _ _ (h.leaf hx)
  simpa using hle

end Linked

/-- The second list is the first with empty leaves put in. -/
inductive Padded : List (PageNo × Leaf) → List (PageNo × Leaf) → Prop where
  | nil : Padded [] []
  | live (x : PageNo × Leaf) {ls cs : List (PageNo × Leaf)} : Padded ls cs →
      Padded (x :: ls) (x :: cs)
  | dead (x : PageNo × Leaf) {ls cs : List (PageNo × Leaf)} : x.2.entries = [] → Padded ls cs →
      Padded ls (x :: cs)

namespace Padded

variable {ls ms cs ds : List (PageNo × Leaf)} {x : PageNo × Leaf}

theorem refl (ls : List (PageNo × Leaf)) : Padded ls ls := by
  induction ls with
  | nil => exact .nil
  | cons x ls ih => exact .live x ih

theorem sublist (h : Padded ls cs) : ls.Sublist cs := by
  induction h with
  | nil => exact .slnil
  | live x _ ih => exact ih.cons_cons x
  | dead x _ _ ih => exact ih.cons x

theorem mem_or_empty (h : Padded ls cs) : ∀ x ∈ cs, x ∈ ls ∨ x.2.entries = [] := by
  induction h with
  | nil => simp
  | live y _ ih =>
    intro x hx
    rcases List.mem_cons.1 hx with rfl | hx
    · exact .inl List.mem_cons_self
    · exact (ih x hx).imp_left (List.mem_cons_of_mem _)
  | dead y hy _ ih =>
    intro x hx
    rcases List.mem_cons.1 hx with rfl | hx
    · exact .inr hy
    · exact ih x hx

theorem entries (h : Padded ls cs) :
    cs.flatMap (·.2.entries) = ls.flatMap (·.2.entries) := by
  induction h with
  | nil => rfl
  | live x _ ih => rw [List.flatMap_cons, List.flatMap_cons, ih]
  | dead x hx _ ih => rw [List.flatMap_cons, hx, ih, List.nil_append]

theorem append (h : Padded ls cs) (h' : Padded ms ds) : Padded (ls ++ ms) (cs ++ ds) := by
  induction h with
  | nil => exact h'
  | live x _ ih => exact .live x ih
  | dead x hx _ ih => exact .dead x hx ih

theorem of_append (h : Padded (ls ++ ms) cs) :
    ∃ as bs, cs = as ++ bs ∧ Padded ls as ∧ Padded ms bs := by
  generalize hxs : ls ++ ms = xs at h
  induction h generalizing ls with
  | nil =>
    obtain ⟨rfl, rfl⟩ := List.append_eq_nil_iff.1 hxs
    exact ⟨[], [], rfl, .nil, .nil⟩
  | @live x xs cs h ih =>
    cases ls with
    | nil =>
      subst hxs
      exact ⟨[], x :: cs, rfl, .nil, .live x h⟩
    | cons y ls =>
      obtain ⟨rfl, htail⟩ := List.cons.inj hxs
      obtain ⟨as, bs, rfl, has, hbs⟩ := ih htail
      exact ⟨y :: as, bs, rfl, .live y has, hbs⟩
  | dead x hx _ ih =>
    obtain ⟨as, bs, rfl, has, hbs⟩ := ih hxs
    exact ⟨x :: as, bs, rfl, .dead x hx has, hbs⟩

theorem of_cons (h : Padded (x :: ls) cs) :
    ∃ as bs, cs = as ++ x :: bs ∧ Padded [] as ∧ Padded ls bs := by
  generalize hxs : x :: ls = xs at h
  induction h with
  | nil => cases hxs
  | @live y _ cs h _ =>
    cases hxs
    exact ⟨[], cs, rfl, .nil, h⟩
  | dead y hy _ ih =>
    obtain ⟨as, bs, rfl, has, hbs⟩ := ih hxs
    exact ⟨y :: as, bs, rfl, .dead y hy has, hbs⟩

theorem cut (h : Padded (ls ++ x :: ms) cs) :
    ∃ as bs, cs = as ++ x :: bs ∧ Padded ls as ∧ Padded ms bs := by
  obtain ⟨as, bs, rfl, has, hbs⟩ := h.of_append
  obtain ⟨ds, es, rfl, hds, hes⟩ := hbs.of_cons
  refine ⟨as ++ ds, es, by simp, ?_, hes⟩
  simpa using has.append hds

end Padded

/-- The links from the first of the leaves run through all of them, and else only through empty
leaves. -/
def Chained (P : Pages) (ls : List (PageNo × Leaf)) : Prop :=
  ∃ chain, Padded ls chain ∧ Linked P (ls.head?.map Prod.fst) chain none

/-! ## Reading a chain from its leftmost leaf -/

/-- Going down through the child that `pick` chooses at every branch, `d` of them, leads to the leaf
on `f`. -/
inductive Descent (P : Pages) (pick : Branch PageNo → Option PageNo) :
    Nat → PageNo → PageNo → Prop where
  | leaf {p : PageNo} {l : Leaf} : P p = some (.leaf l) → Descent P pick 0 p p
  | branch {d : Nat} {p c f : PageNo} {b : Branch PageNo} : P p = some (.branch b) →
      pick b = some c → Descent P pick d c f → Descent P pick (d + 1) p f

namespace Descent

variable {P Q : Pages} {pick : Branch PageNo → Option PageNo} {d e : Nat} {p f g : PageNo}

theorem unique (h : Descent P pick d p f) (h' : Descent P pick e p g) : d = e ∧ f = g := by
  induction h generalizing e with
  | leaf hl =>
    cases h' with
    | leaf => exact ⟨rfl, rfl⟩
    | branch hb => simp [hl] at hb
  | branch hb hc _ ih =>
    cases h' with
    | leaf hl => simp [hb] at hl
    | branch hb' hc' hrest =>
      obtain rfl := NodeOf.branch.inj (Option.some.inj (hb.symm.trans hb'))
      obtain rfl := Option.some.inj (hc.symm.trans hc')
      obtain ⟨rfl, rfl⟩ := ih hrest
      exact ⟨rfl, rfl⟩

/-- The way down sees no leaf but the last. -/
theorem change_leaf (h : Descent P pick d p f)
    (hPQ : ∀ q b, P q = some (.branch b) → Q q = some (.branch b)) {l : Leaf}
    (hf : Q f = some (.leaf l)) : Descent Q pick d p f := by
  induction h with
  | leaf => exact .leaf hf
  | branch hb hc _ ih => exact .branch (hPQ _ _ hb) hc (ih hf)

theorem end_leaf (h : Descent P pick d p f) : ∃ l, P f = some (.leaf l) := by
  induction h with
  | leaf hl => exact ⟨_, hl⟩
  | branch _ _ _ ih => exact ih

/-- The way down does not come back to a page. -/
theorem pages (h : Descent P pick d p f) : ∃ ps : List PageNo, ps.length = d + 1 ∧ ps.Nodup ∧
    ∀ q ∈ ps, (∃ n, P q = some n) ∧ ∃ e ≤ d, Descent P pick e q f := by
  induction h with
  | @leaf p l hl =>
    refine ⟨[p], rfl, by simp, ?_⟩
    intro q hq
    rw [List.mem_singleton.1 hq]
    exact ⟨⟨_, hl⟩, 0, Nat.le_refl 0, .leaf hl⟩
  | @branch d p c f b hb hc hrest ih =>
    obtain ⟨ps, hlen, hnodup, hps⟩ := ih
    have hdown := Descent.branch hb hc hrest
    refine ⟨p :: ps, by simp [hlen], List.nodup_cons.2 ⟨?_, hnodup⟩, ?_⟩
    · intro hp
      obtain ⟨-, e, he, hback⟩ := hps p hp
      have heq := (hdown.unique hback).1
      omega
    · intro q hq
      rcases List.mem_cons.1 hq with rfl | hq
      · exact ⟨⟨_, hb⟩, d + 1, Nat.le_refl _, hdown⟩
      · obtain ⟨hn, e, he, hfrom⟩ := hps q hq
        exact ⟨hn, e, Nat.le_succ_of_le he, hfrom⟩

theorem lt (h : Descent P pick d p f) {n : Nat} (hn : ∀ q m, P q = some m → q.toNat < n) : d < n := by
  obtain ⟨ps, hlen, hnodup, hps⟩ := h.pages
  have hle := length_le_of_nodup hnodup fun q hq => by
    obtain ⟨⟨m, hm⟩, -⟩ := hps q hq
    exact hn q m hm
  omega

end Descent

/-- The way down to the leftmost leaf. -/
abbrev Leftmost (P : Pages) : Nat → PageNo → PageNo → Prop := Descent P fun b => b.children.head?

/-- From page `root` the leaves show these entries, in this order. -/
def Scans (P : Pages) (root : PageNo) (es : List Entry) : Prop :=
  ∃ d f chain, Leftmost P d root f ∧ Linked P (some f) chain none ∧
    chain.flatMap (·.2.entries) = es

/-- The way down to the leftmost leaf and along the links goes on alike from two nodes. -/
def NodeOf.SameWay : Node → Node → Prop
  | .leaf l, .leaf m => l = m
  | .branch b, .branch c => b.children.head? = c.children.head?
  | _, _ => False

theorem NodeOf.SameWay.refl (n : Node) : n.SameWay n := by cases n <;> rfl

namespace Pages

/-- Wherever there is a node on the first pages, the way goes on alike on the second. -/
def SameWay (P Q : Pages) : Prop := ∀ p n, P p = some n → ∃ m, Q p = some m ∧ n.SameWay m

theorem Within.sameWay {P Q : Pages} (h : P.Within Q) : P.SameWay Q :=
  fun p n hn => ⟨n, h p n hn, NodeOf.SameWay.refl n⟩

theorem SameWay.leaf {P Q : Pages} (h : P.SameWay Q) {p : PageNo} {l : Leaf}
    (hl : P p = some (.leaf l)) : Q p = some (.leaf l) := by
  obtain ⟨m, hm, hsame⟩ := h p _ hl
  cases m with
  | leaf k => rw [hm, show l = k from hsame]
  | branch b => exact hsame.elim

/-- Writes to pages without a node, and to branches whose first child stays. -/
theorem sameWay_write {P : Pages} {ws : List (PageNo × Node)}
    (h : ∀ w ∈ ws, ∀ n, P w.1 = some n → n.SameWay w.2) : P.SameWay (P.write ws) := by
  intro p n hn
  suffices hsuff : ∀ (Q : Pages) m, Q p = some m → n.SameWay m →
      (∀ w ∈ ws, w.1 = p → n.SameWay w.2) → ∃ k, Q.write ws p = some k ∧ n.SameWay k from
    hsuff P n hn (NodeOf.SameWay.refl n) fun w hw hwp => h w hw n (hwp ▸ hn)
  clear h hn
  induction ws with
  | nil => exact fun Q m hm hnm _ => ⟨m, hm, hnm⟩
  | cons w ws ih =>
    intro Q m hm hnm hws
    have hrest : ∀ v ∈ ws, v.1 = p → n.SameWay v.2 := fun v hv => hws v (List.mem_cons_of_mem _ hv)
    rw [write_cons]
    by_cases hwp : w.1 = p
    · exact ih _ w.2 (by rw [← hwp, set_same]) (hws w List.mem_cons_self hwp) hrest
    · exact ih _ m (by rw [set_other _ fun he => hwp he.symm, hm]) hnm hrest

end Pages

theorem Leftmost.sameWay {P Q : Pages} {d : Nat} {p f : PageNo} (h : Leftmost P d p f)
    (hPQ : P.SameWay Q) : Leftmost Q d p f := by
  induction h with
  | leaf hl => exact .leaf (hPQ.leaf hl)
  | branch hb hc _ ih =>
    obtain ⟨m, hm, hsame⟩ := hPQ _ _ hb
    cases m with
    | leaf l => exact hsame.elim
    | branch b => exact .branch hm (hsame.symm.trans hc) ih

theorem Chained.mono {P Q : Pages} {ls : List (PageNo × Leaf)} (h : Chained P ls)
    (hPQ : ∀ p l, P p = some (.leaf l) → Q p = some (.leaf l)) : Chained Q ls := by
  obtain ⟨chain, hpadded, hlinks⟩ := h
  exact ⟨chain, hpadded, hlinks.mono fun x _ => hPQ x.1 x.2⟩

theorem Chained.tail {P : Pages} {x : PageNo × Leaf} {ls : List (PageNo × Leaf)}
    (h : Chained P (x :: ls)) : Chained P ls := by
  obtain ⟨chain, hpadded, hlinks⟩ := h
  obtain ⟨as, bs, rfl, -, hbs⟩ := hpadded.of_cons
  obtain ⟨mid, -, hfrom⟩ := Linked.append.1 hlinks
  cases ls with
  | nil => exact ⟨[], .nil, rfl⟩
  | cons y ls =>
    -- leaves that the tree has dropped may lie between the two
    obtain ⟨cs, ds, rfl, -, hds⟩ := hbs.of_cons
    obtain ⟨mid', -, hrest⟩ := Linked.append.1 hfrom.2.2
    have hmid : mid' = some y.1 := hrest.1
    subst hmid
    exact ⟨y :: ds, .live y hds, hrest⟩

/-- The chain still runs through an empty leaf that the tree has dropped. -/
theorem Chained.drop {P : Pages} {x : PageNo × Leaf} {as bs : List (PageNo × Leaf)}
    (h : Chained P (as ++ x :: bs)) (hx : x.2.entries = []) : Chained P (as ++ bs) := by
  cases as with
  | nil => exact h.tail
  | cons y as =>
    obtain ⟨chain, hpadded, hlinks⟩ := h
    obtain ⟨cs, ds, rfl, hcs, hds⟩ := hpadded.cut
    exact ⟨cs ++ x :: ds, hcs.append (.dead x hx hds), hlinks⟩

/-- A leaf changes in its place. -/
theorem Chained.change {P Q : Pages} {p : PageNo} {l m : Leaf} {as bs : List (PageNo × Leaf)}
    (h : Chained P (as ++ (p, l) :: bs)) (hPQ : ∀ q n, q ≠ p → P q = some n → Q q = some n)
    (hp : Q p = some (.leaf m)) (hm : m.next = l.next) : Chained Q (as ++ (p, m) :: bs) := by
  obtain ⟨chain, hpadded, hlinks⟩ := h
  obtain ⟨cs, ds, rfl, hcs, hds⟩ := hpadded.cut
  have hhead : (as ++ (p, m) :: bs).head?.map Prod.fst = (as ++ (p, l) :: bs).head?.map Prod.fst := by
    cases as <;> rfl
  refine ⟨cs ++ (p, m) :: ds, hcs.append (.live _ hds), ?_⟩
  rw [hhead]
  have hnew : Linked Q (some p) [(p, m)] l.next := ⟨rfl, hp, hm⟩
  exact hlinks.replace hPQ hnew

/-- The first leaf may move to another page, as no link leads to it. -/
theorem Chained.move {P Q : Pages} {p m : PageNo} {l : Leaf} {ls : List (PageNo × Leaf)}
    (h : Chained P ((p, l) :: ls)) (hm : Q m = some (.leaf l))
    (hPQ : ∀ q k, q ≠ p → P q = some (.leaf k) → Q q = some (.leaf k)) :
    Chained Q ((m, l) :: ls) := by
  obtain ⟨chain, hpadded, hlinks⟩ := h
  obtain ⟨as, bs, rfl, -, hbs⟩ := hpadded.of_cons
  obtain ⟨mid, -, hfrom⟩ := Linked.append.1 hlinks
  have hmid : mid = some p := hfrom.1
  have hchain := Linked.unique hlinks (hmid ▸ hfrom)
  rw [hchain] at hlinks
  have hnodup := hlinks.nodup
  rw [List.map_cons, List.nodup_cons] at hnodup
  refine ⟨(m, l) :: bs, .live _ hbs, rfl, hm, hlinks.2.2.mono fun x hx => hPQ x.1 x.2 ?_⟩
  exact fun he => hnodup.1 (List.mem_map.2 ⟨x, hx, he⟩)

theorem Chained.scans {P : Pages} {ls : List (PageNo × Leaf)} (h : Chained P ls) {d : Nat}
    {root f : PageNo} (hdown : Leftmost P d root f) (hf : ls.head?.map Prod.fst = some f) :
    Scans P root (ls.flatMap (·.2.entries)) := by
  obtain ⟨chain, hpadded, hlinks⟩ := h
  rw [hf] at hlinks
  exact ⟨d, f, chain, hdown, hlinks, hpadded.entries⟩

theorem Scans.sameWay {P Q : Pages} {root : PageNo} {es : List Entry} (h : Scans P root es)
    (hPQ : P.SameWay Q) : Scans Q root es := by
  obtain ⟨d, f, chain, hdown, hlinks, hes⟩ := h
  exact ⟨d, f, chain, hdown.sameWay hPQ, hlinks.mono fun x _ hx => hPQ.leaf hx, hes⟩

end PagedTree
