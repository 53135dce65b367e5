import PagedTree.Proofs.Reading

/-! # A handle on a tree

A handle that is coherent, whose root page is that of a tree that stands on the file, answers every
call that reads from that tree alone.
-/
namespace PagedTree

namespace Shape

/-- The text that shows the tree, its top `depth` levels further in. -/
def render : Nat → Shape → String
  | depth, leaf p l => String.ofList (List.replicate (2 * depth) ' ') ++ Tree.leafLine p l
  | depth, branch p keys kids => String.ofList (List.replicate (2 * depth) ' ') ++
      Tree.branchLine p keys ++ String.join (kids.map (render (depth + 1)))

/-- The number of entries in the rightmost leaf. -/
def lastLeafSize (s : Shape) : Nat := (s.leaves.getLast?.map (·.2.entries.length)).getD 0

/-- The largest key of the rightmost leaf or, if it has none, of all leaves. -/
def greatestKey (s : Shape) : Option UInt64 :=
  match s.leaves.getLast?.bind (·.2.keys.getLast?) with
  | some key => some key
  | none => (s.entries.map Entry.key).max?

theorem render_leaf {p : PageNo} {l : Leaf} (depth : Nat) : (leaf p l).render depth =
    String.ofList (List.replicate (2 * depth) ' ') ++ Tree.leafLine p l := by simp [render]

theorem render_branch {p : PageNo} {keys : List UInt64} {kids : List Shape} (depth : Nat) :
    (branch p keys kids).render depth = String.ofList (List.replicate (2 * depth) ' ') ++
      Tree.branchLine p keys ++ String.join (kids.map (render (depth + 1))) := by simp [render]

end Shape

namespace Tree

variable {t t' : Tree} {s : Shape} {id : NodeId}

theorem mapM_ok {α β : Type} {f : α → Call Tree β} {g : α → β} {xs : List α} (ht : t.Coherent)
    (hf : ∀ x ∈ xs, ∀ t', t.Advanced [] [] t' →
      ∃ t'', (f x).result t' = (.ok (g x), t'') ∧ t'.Advanced [] [] t'') :
    ∃ t', (xs.mapM f).result t = (.ok (xs.map g), t') ∧ t.Advanced [] [] t' := by
  induction xs generalizing t with
  | nil => exact ⟨t, rfl, .refl ht⟩
  | cons x xs ih =>
    obtain ⟨t₁, hx, hadv⟩ := hf x List.mem_cons_self t (.refl ht)
    obtain ⟨t₂, hrest, hadv'⟩ := ih hadv.coherent fun y hy t' h =>
      hf y (List.mem_cons_of_mem _ hy) t' (hadv.trans h)
    refine ⟨t₂, ?_, hadv.trans hadv'⟩
    rw [List.mapM_cons, Call.result_bind_ok hx, Call.result_bind_ok hrest, Call.result_pure,
      List.map_cons]

theorem dumpBelow_ok {limit : Nat} (hlim : s.parts.length ≤ limit) (depth : Nat) (ht : t.Coherent)
    (h : t.Holds id s) : ∃ t', (dumpBelow limit depth id).result t = (.ok (s.render depth), t') ∧
      t.Advanced [] [] t' := by
  induction s using Shape.induct generalizing limit depth t id with
  | leaf p l =>
    obtain ⟨limit, rfl⟩ := Shape.exists_limit hlim
    rw [Shape.render_leaf]
    simp only [dumpBelow, Call.result_bind_ok (held_ok (h.leaf ht))]
    exact ⟨t, rfl, .refl ht⟩
  | branch p keys kids ih =>
    obtain ⟨limit, rfl⟩ := Shape.exists_limit hlim
    obtain ⟨slots, hr, hslots, -⟩ := h.branch ht
    have hlen : slots.length = kids.length := by simpa using congrArg List.length hslots
    have hall : (List.range kids.length).map
        (fun i => (kids[i]?.map (Shape.render (depth + 1))).getD "") =
        kids.map (Shape.render (depth + 1)) := by
      apply List.ext_getElem?
      intro i
      by_cases hi : i < kids.length
      · simp [hi]
      · simp [hi]
    have hkid : ∀ i ∈ List.range kids.length, ∀ t₁, t.Advanced [] [] t₁ → ∃ t₂,
        (do dumpBelow limit (depth + 1) (← child id i)).result t₁ =
          (.ok ((kids[i]?.map (Shape.render (depth + 1))).getD ""), t₂) ∧
        t₁.Advanced [] [] t₂ := by
      intro i hi t₁ hadv
      obtain ⟨c, hc⟩ : ∃ c, kids[i]? = some c :=
        ⟨_, List.getElem?_eq_getElem (List.mem_range.1 hi)⟩
      obtain ⟨cid, t₂, hrun, hadv', hhold⟩ := (h.advance ht hadv).child hadv.coherent hc
      have hlim' := Shape.length_parts_kid hlim (List.mem_of_getElem? hc)
      obtain ⟨t₃, hbelow, hadv''⟩ :=
        ih c (List.mem_of_getElem? hc) hlim' (depth + 1) hadv'.coherent hhold
      refine ⟨t₃, ?_, hadv'.trans hadv''⟩
      rw [Call.result_bind_ok hrun, hbelow, hc, Option.map_some, Option.getD_some]
    obtain ⟨t₁, hrun, hadv⟩ := mapM_ok ht hkid
    rw [hall] at hrun
    refine ⟨t₁, ?_, hadv⟩
    rw [Shape.render_branch]
    simp only [dumpBelow, Call.result_bind_ok (held_ok hr), hlen, Call.result_bind_ok hrun,
      Call.result_pure]

/-- The entries need to be scanned only if the rightmost leaf has none. -/
theorem greatestKey_ok {lo hi : UInt64} (ht : t.Coherent) (hs : s.On t.store.view)
    (hordered : s.Ordered lo hi) (hroot : s.page = t.root)
    (hscans : s.leaves.getLast?.bind (·.2.keys.getLast?) = none →
      Scans t.store.view t.root s.entries) :
    ∃ t', greatestKey.result t = (.ok s.greatestKey, t') ∧ t.Advanced [] [] t' := by
  obtain ⟨ls, f, l, id, t₁, hls, hrun, hadv⟩ := lastLeaf_ok ht hs hordered hroot
  rw [hls, List.getLast?_concat, Option.bind_some] at hscans
  rw [greatestKey, Call.result_bind_ok hrun, Shape.greatestKey, hls]
  simp only [List.getLast?_concat, Option.bind_some]
  cases hkey : l.keys.getLast? with
  | some key => exact ⟨t₁, rfl, hadv⟩
  | none =>
    have hrest := hscans hkey
    rw [← hadv.store_eq, ← hadv.root ht] at hrest
    obtain ⟨t₂, hscan, hadv'⟩ := scan_ok hadv.coherent hrest
    refine ⟨t₂, ?_, hadv.trans hadv'⟩
    simp only [Call.result_bind_ok hscan, Call.result_pure]

/-- A handle on a tree that stands on the file. -/
structure Represents (t : Tree) (s : Shape) : Prop where
  coherent : t.Coherent
  page : s.page = t.root
  stands : s.Stands t.store.view
  synced : t.store.Synced

namespace Represents

theorem advance (h : t.Represents s) (hadv : t.Advanced [] [] t') : t'.Represents s := by
  refine ⟨hadv.coherent, h.page.trans (hadv.root h.coherent).symm, ?_, hadv.synced h.synced⟩
  rw [hadv.store_eq]
  exact h.stands

theorem recalls (h : t.Represents s) : t.Recalls t.store.view s :=
  ⟨h.coherent.mirrors, h.page, h.stands.on, h.stands.distinct, ⟨0, topKey, h.stands.ordered⟩,
    h.stands.on.lt_pageCount⟩

theorem holds (h : t.Represents s) : t.Holds t.rootId s :=
  ⟨h.recalls.knows.here, h.stands.on, h.stands.small, h.recalls.knows.free⟩

theorem length_parts_le (h : t.Represents s) : s.parts.length ≤ t.walkLimit :=
  h.recalls.length_parts_le

theorem get?_ok (h : t.Represents s) (key : UInt64) : ∃ t', (get? key).result t =
    (.ok (s.find? key), t') ∧ t.Advanced [] [] t' := by
  obtain ⟨t', hrun, hread⟩ := h.recalls.get?_ok key
  exact ⟨t', hrun, h.coherent.browse hread⟩

theorem scan_ok (h : t.Represents s) : ∃ t', scan.result t = (.ok s.entries, t') ∧
    t.Advanced [] [] t' :=
  Tree.scan_ok h.coherent (h.page ▸ h.stands.scans)

theorem dump_ok (h : t.Represents s) : ∃ t', dump.result t = (.ok (s.render 0), t') ∧
    t.Advanced [] [] t' := by
  rw [dump, Call.result_bind_ok (Call.result_get t)]
  exact dumpBelow_ok h.length_parts_le 0 h.coherent h.holds

theorem lastLeafSize_ok (h : t.Represents s) : ∃ t', lastLeafSize.result t =
    (.ok s.lastLeafSize, t') ∧ t.Advanced [] [] t' := by
  obtain ⟨ls, f, l, id, t', hls, hrun, hadv⟩ :=
    lastLeaf_ok h.coherent h.stands.on h.stands.ordered h.page
  refine ⟨t', ?_, hadv⟩
  rw [lastLeafSize, Call.result_bind_ok hrun, Call.result_pure, Shape.lastLeafSize, hls]
  simp

theorem greatestKey_ok (h : t.Represents s) : ∃ t', greatestKey.result t =
    (.ok s.greatestKey, t') ∧ t.Advanced [] [] t' :=
  Tree.greatestKey_ok h.coherent h.stands.on h.stands.ordered h.page
    fun _ => h.page ▸ h.stands.scans

theorem nextId_keeps (h : t.Represents s) : t.Advanced [] [] (nextId.result t).2 := by
  obtain ⟨t₁, hrun, hadv⟩ := h.greatestKey_ok
  rw [nextId, Call.result_bind_ok hrun]
  cases s.greatestKey with
  | none => exact hadv
  | some key =>
    simp only
    split <;> exact hadv

theorem toFront_keeps (h : t.Represents s) : t.Advanced [] [] (toFront.result t).2 := by
  obtain ⟨d, f, chain, hdown, hlinks, -⟩ := h.stands.scans
  rw [h.page] at hdown
  obtain ⟨t', chain', i, hrun, hadv, -⟩ := toFront_ok h.coherent hdown hlinks
  rw [hrun]
  exact hadv

end Represents

end Tree

end PagedTree
