import Mathlib.Algebra.GroupWithZero.Nat
import PagedTree.Proofs.Occupancy

/-! # Trees that only grow

An insertion splits nodes sideways, and only a root that splits adds a level, above all others. So the
leaves of a tree from which nothing was erased lie at one depth. A branch then has two children or
more, and the entries of such a tree at least double with each level.
-/
namespace PagedTree

/-- All leaves of the tree lie this deep. -/
inductive Shape.Level : Nat → Shape → Prop where
  | leaf {p : PageNo} {l : Leaf} : Level 0 (.leaf p l)
  | branch {d : Nat} {p : PageNo} {keys : List UInt64} {kids : List Shape} :
      (∀ c ∈ kids, Level d c) → Level (d + 1) (.branch p keys kids)

namespace Shape

variable {d : Nat} {p m : PageNo} {keys : List UInt64} {kids : List Shape} {s : Shape}

theorem Level.of_branch (h : Level d (.branch p keys kids)) :
    ∃ n, d = n + 1 ∧ ∀ c ∈ kids, Level n c := by
  cases h with
  | branch h => exact ⟨_, rfl, h⟩

theorem Level.moveTo (h : s.Level d) : (s.moveTo m).Level d := by
  cases h with
  | leaf => exact .leaf
  | branch h => exact .branch h

/-- Each level doubles the entries. -/
theorem Level.pow_le (h : s.Level d) (hsolid : s.Solid) (hsmall : s.Small) :
    2 ^ d ≤ s.entries.length := by
  induction h with
  | leaf =>
    rw [entries_leaf]
    exact List.length_pos_iff.2 (solid_leaf.1 hsolid)
  | @branch n p keys kids _ ih =>
    obtain ⟨hkeys, hsolidKids⟩ := solid_branch.1 hsolid
    obtain ⟨⟨hlen, -⟩, hsmallKids⟩ := small_branch.1 hsmall
    obtain ⟨a, b, cs, rfl⟩ : ∃ a b cs, kids = a :: b :: cs := by
      match kids, hlen with
      | [_], hlen => exact absurd (List.length_eq_zero_iff.1 (Nat.succ.inj hlen).symm) hkeys
      | a :: b :: cs, _ => exact ⟨a, b, cs, rfl⟩
    have ha := ih a (by simp) (hsolidKids a (by simp)) (hsmallKids a (by simp))
    have hb := ih b (by simp) (hsolidKids b (by simp)) (hsmallKids b (by simp))
    calc 2 ^ (n + 1) = 2 ^ n + 2 ^ n := Nat.two_pow_succ n
      _ ≤ a.entries.length + b.entries.length := Nat.add_le_add ha hb
      _ ≤ (Shape.branch p keys (a :: b :: cs)).entries.length := by
        simp only [entries_branch, List.flatMap_cons, List.length_append, ← Nat.add_assoc]
        exact Nat.le_add_right ..

/-- No level holds more than four times what the one above it may hold. -/
theorem Level.le_pow (h : s.Level d) (hsmall : s.Small) :
    s.entries.length ≤ order ^ d * (order - 1) := by
  induction h with
  | @leaf p l =>
    rw [entries_leaf, Nat.pow_zero, Nat.one_mul]
    exact Nat.le_pred_of_lt (small_leaf.1 hsmall).1
  | @branch n p keys kids _ ih =>
    obtain ⟨⟨hlen, hkeys⟩, hsmallKids⟩ := small_branch.1 hsmall
    calc (Shape.branch p keys kids).entries.length
        = (kids.flatMap entries).length := by rw [entries_branch]
      _ ≤ kids.length * (order ^ n * (order - 1)) :=
        length_flatMap_le fun c hc => ih c hc (hsmallKids c hc)
      _ ≤ order * (order ^ n * (order - 1)) := Nat.mul_le_mul_right _ (by omega)
      _ = order ^ (n + 1) * (order - 1) := by rw [Nat.pow_succ', Nat.mul_assoc]

end Shape

section
variable {d : Nat} {e : Entry} {s s' : Shape} {fs gs : List PageNo} {g g' : Growth}
  {ws vs : List (PageNo × Node)} {p : PageNo} {ks ls : List UInt64} {cs ds : List Shape}

theorem Absorbed.level (h : Absorbed p ks ls cs ds g gs g' vs)
    (hrow : ∀ t ∈ cs ++ (g.trees ++ ds), t.Level d) : ∀ t ∈ g'.trees, t.Level (d + 1) := by
  cases h with
  | whole c => exact Growth.forall_mem_whole.2 (.branch hrow)
  | fits => exact Growth.forall_mem_whole.2 (.branch hrow)
  | @splits a b q key mid lks rks lcs rcs _ htrees =>
    have hall : ∀ t ∈ lcs ++ rcs, t.Level d := by
      rw [htrees]
      exact hrow
    obtain ⟨hleft, hright⟩ := List.forall_mem_append.1 hall
    exact Growth.forall_mem_halves.2 ⟨.branch hleft, .branch hright⟩
  | full => exact Growth.forall_mem_stopped
  | stopped => exact Growth.forall_mem_stopped

/-- What a tree grows into is as deep as the tree. -/
theorem Inserted.level (h : Inserted e s fs g ws) (hs : s.Level d) : ∀ t ∈ g.trees, t.Level d := by
  induction h generalizing d with
  | leaf h =>
    cases hs
    cases h with
    | fits => exact Growth.forall_mem_whole.2 .leaf
    | splits => exact Growth.forall_mem_halves.2 ⟨.leaf, .leaf⟩
  | full => exact Growth.forall_mem_stopped
  | branch _ _ _ habs ih =>
    obtain ⟨n, rfl, hkids⟩ := hs.of_branch
    exact habs.level (forall_mem_replace hkids (ih (hkids _ (by simp))))

theorem Insertion.level (h : Insertion e s fs (.whole s') ws) (hs : s.Level d) :
    ∃ d', s'.Level d' := by
  cases h with
  | whole h => exact ⟨d, Growth.forall_mem_whole.1 (h.level hs)⟩
  | @raised fs a b key m ws h =>
    obtain ⟨ha, hb⟩ := Growth.forall_mem_halves.1 (h.level hs)
    exact ⟨d + 1, .branch (by simpa using And.intro ha.moveTo hb)⟩

end

/-! ## Throughout a life without erasures -/

namespace Tree

variable {d : Nat} {t : Tree} {s : Shape} {root : PageNo} {rs : List Request}

/-- A tree whose leaves lie `d` levels below the root, and how many separators and entries its nodes
and how many entries the whole tree has. -/
structure Balanced (root : PageNo) (t : Tree) (s : Shape) (d : Nat) : Prop
    extends Displays root t s where
  level : s.Level d
  branches : ∀ p keys kids, .branch p keys kids ∈ s.parts → kids.length = keys.length + 1 ∧
    1 ≤ keys.length ∧ keys.length ≤ order - 1
  leaves : ∀ p l, .leaf p l ∈ s.parts → l.entries.length ≤ order - 1 ∧
    (p ≠ root → 1 ≤ l.entries.length)
  filled : s.entries ≠ [] → 2 ^ d ≤ s.entries.length ∧ d ≤ Nat.log2 s.entries.length

theorem Represents.balanced (h : t.Represents s) (hlevel : s.Level d) (hfirm : s.Firm) :
    Balanced t.root t s d := by
  refine ⟨h.displays, hlevel, ?_, ?_, ?_⟩
  · intro p keys kids hpart
    obtain ⟨hlen, hmost⟩ := h.stands.small.branch_part hpart
    refine ⟨hlen, ?_, hmost⟩
    rcases hfirm.part hpart with hstocked | ⟨rfl, q, l, he⟩
    · exact List.length_pos_iff.2 hstocked
    · cases he
  · intro p l hpart
    refine ⟨h.stands.small.leaf_part hpart, fun hp => ?_⟩
    rcases hfirm.part hpart with hstocked | ⟨rfl, -⟩
    · exact List.length_pos_iff.2 hstocked
    · exact absurd h.page hp
  · intro hne
    have hsolid : s.Solid := by
      rcases hfirm with hsolid | ⟨p, l, rfl⟩
      · exact hsolid
      · exact Shape.solid_leaf.2 (by simpa using hne)
    have hpow := hlevel.pow_le hsolid h.stands.small
    exact ⟨hpow, (Nat.le_log2 (by simpa using hne)).2 hpow⟩

/-- Insertions alone keep a tree balanced. -/
theorem balance (h : Governed (fun r _ => ∀ key, r ≠ .erase key) root rs t) :
    ∃ s d, Balanced root t s d := by
  obtain ⟨rfl, s, hrep, ⟨d, hlevel⟩, hfirm⟩ := h.represents
    (I := fun _ s => (∃ d, s.Level d) ∧ s.Firm) ⟨⟨0, .leaf⟩, .leaf root _⟩
    fun ⟨⟨d, hlevel⟩, hfirm⟩ _ _ hrule hmakes => by
      cases hmakes with
      | inserted _ hins => exact ⟨hins.level hlevel, .inl (hins.solid hfirm)⟩
      | erased | missed => exact absurd rfl (hrule _)
      | read => exact ⟨⟨d, hlevel⟩, hfirm⟩
  exact ⟨s, d, hrep.balanced hlevel hfirm⟩

/-- Thirteen insertions make a tree of three levels or more. -/
theorem balance_of_thirteen : ∃ rs t s d, Governed (fun r _ => ∀ key, r ≠ .erase key) 0 rs t ∧
    s.entries.map Entry.key = [1, 2, 3, 4, 5, 6, 7, 8, 9, 10, 11, 12, 13] ∧ 2 ≤ d ∧
    Balanced 0 t s d := by
  obtain ⟨rs, t, s, hrs, hrep, hperm⟩ := @exists_filled (fun r _ => ∀ key, r ≠ .erase key)
    ([1, 2, 3, 4, 5, 6, 7, 8, 9, 10, 11, 12, 13].map fun key => ⟨key, .empty⟩) (by decide)
    (by simp) (by simp)
  obtain ⟨s', d, hbalanced⟩ := balance hrs
  obtain rfl := hrs.reached.eq_of_on hrep hbalanced.on hbalanced.page
  have hmost := hbalanced.level.le_pow hrep.stands.small
  rw [hperm.length_eq] at hmost
  refine ⟨rs, t, s', d, hrs, ?_, Nat.le_of_not_lt fun hlow => ?_, hbalanced⟩
  · exact hrep.keys_eq (hperm.map Entry.key) (by decide)
  · have hshallow : order ^ d * (order - 1) ≤ order ^ 1 * (order - 1) :=
      Nat.mul_le_mul_right _ (Nat.pow_le_pow_right (by decide) (Nat.le_of_lt_succ hlow))
    exact absurd (Nat.le_trans hmost hshallow) (by decide)

end Tree

end PagedTree
