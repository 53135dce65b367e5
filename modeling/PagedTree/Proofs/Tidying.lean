import PagedTree.Proofs.Erasure

/-! # Erasing, as one descent

Which entry an erasure takes out and what it leaves of the tree on the way back. Of the children
that may have the key the rightmost that has it is searched, as in a lookup, and each branch on the
way tidies up after the child, once: an empty leaf is dropped and a branch without separators gives
way to its only child. Only a branch without separators keeps an empty leaf.
-/
namespace PagedTree

/-- A leaf with an entry or a branch with a separator. -/
def NodeOf.Stocked {Child : Type} : NodeOf Child → Prop
  | .leaf l => l.entries ≠ []
  | .branch b => b.keys ≠ []

/-- A search for the key that comes to this branch goes on in this slot: in the slots to search before
it there is no such entry. -/
def Shape.StopsAt (key : UInt64) (keys : List UInt64) (kids : List Shape) (slot : Nat) : Prop :=
  ∃ before behind, Branch.slotsFor ⟨keys, kids⟩ key = before ++ slot :: behind ∧
    ∀ i ∈ before, kids[i]?.bind (Shape.find? key) = none

/-- What a branch on page `p` does after an entry was erased below the child between `cs` and `ds`. -/
inductive Tidied (p : PageNo) (cs : List Shape) :
    List UInt64 → List UInt64 → List Shape → Shape → List (PageNo × Node) → Shape → Prop where
  | kept {ks ls : List UInt64} {ds : List Shape} {c : Shape} : c.node.Stocked →
      Tidied p cs ks ls ds c [] (.branch p (ks ++ ls) (cs ++ c :: ds))
  | only {q : PageNo} {ds : List Shape} {l : Leaf} : l.entries = [] →
      Tidied p cs [] [] ds (.leaf q l) [] (.branch p [] (cs ++ .leaf q l :: ds))
  | unlink {q : PageNo} {ks ls : List UInt64} {k : UInt64} {ds : List Shape} {l : Leaf} :
      l.entries = [] → Tidied p cs ks (k :: ls) ds (.leaf q l)
        [(p, .branch ⟨ks ++ ls, (cs ++ ds).map Shape.page⟩)] (.branch p (ks ++ ls) (cs ++ ds))
  | unlinkLast {q : PageNo} {ks : List UInt64} {k : UInt64} {l : Leaf} : l.entries = [] →
      Tidied p cs (ks ++ [k]) [] [] (.leaf q l) [(p, .branch ⟨ks, cs.map Shape.page⟩)]
        (.branch p ks cs)
  | collapse {q : PageNo} {ks ls : List UInt64} {ds : List Shape} {d : Shape} :
      Tidied p cs ks ls ds (.branch q [] [d])
        [(p, .branch ⟨ks ++ ls, (cs ++ d :: ds).map Shape.page⟩)]
        (.branch p (ks ++ ls) (cs ++ d :: ds))

/-- What erasing the entry that a search for the key finds makes of a tree, with its writes. -/
inductive Erased (key : UInt64) (v : ByteArray) : Shape → List (PageNo × Node) → Shape → Prop where
  | leaf {p : PageNo} {l : Leaf} : l.get? key = some v →
      Erased key v (.leaf p l) [(p, .leaf (l.erase key))] (.leaf p (l.erase key))
  | branch {p : PageNo} {ks ls : List UInt64} {cs ds : List Shape} {c c' s' : Shape}
      {ws vs : List (PageNo × Node)} : cs.length = ks.length →
      Shape.StopsAt key (ks ++ ls) (cs ++ c :: ds) ks.length → Erased key v c ws c' →
      Tidied p cs ks ls ds c' vs s' →
      Erased key v (.branch p (ks ++ ls) (cs ++ c :: ds)) (ws ++ vs) s'

section
variable {p : PageNo} {ks ls : List UInt64} {cs ds : List Shape} {c s s' : Shape} {key : UInt64}
  {v : ByteArray} {ws vs : List (PageNo × Node)}

theorem Shape.StopsAt.findSome? {β : Type} {f : Nat → Option β} {keys : List UInt64}
    {kids : List Shape} {slot : Nat} {b : β} (h : StopsAt key keys kids slot)
    (hf : ∀ i, kids[i]?.bind (Shape.find? key) = none → f i = none) (hslot : f slot = some b) :
    (Branch.slotsFor ⟨keys, kids⟩ key).findSome? f = some b := by
  obtain ⟨before, behind, hslots, hnone⟩ := h
  exact List.findSome?_eq_some_iff.2
    ⟨before, slot, behind, hslots, hslot, fun i hi => hf i (hnone i hi)⟩

/-- Tidying up does nothing or makes one step of an erasure. -/
theorem Tidied.step (h : Tidied p cs ks ls ds c vs s') (hcs : cs.length = ks.length) :
    (vs = [] ∧ s' = .branch p (ks ++ ls) (cs ++ c :: ds)) ∨
      ∃ w, vs = [w] ∧ ErasureStep none (.branch p (ks ++ ls) (cs ++ c :: ds)) w s' := by
  cases h with
  | kept => exact .inl ⟨rfl, rfl⟩
  | only => exact .inl ⟨rfl, rfl⟩
  | unlink hl => exact .inr ⟨_, rfl, .unlink hcs hl⟩
  | unlinkLast hl =>
    rw [List.append_nil]
    exact .inr ⟨_, rfl, .unlinkLast (by simpa using hcs) hl⟩
  | collapse => exact .inr ⟨_, rfl, .collapse hcs⟩

theorem Tidied.entries (h : Tidied p cs ks ls ds c vs s') :
    s'.entries = cs.flatMap Shape.entries ++ (c.entries ++ ds.flatMap Shape.entries) := by
  cases h with
  | unlink hl => simp [hl]
  | unlinkLast hl => simp [hl]
  | kept | only | collapse => simp

/-- The descent runs through the steps of an erasure. -/
theorem Erased.erasure (h : Erased key v s ws s') : Erasure key s ws s' := by
  induction h with
  | leaf hv => exact .take (.take hv)
  | branch hcs _ _ htidied ih =>
    rcases htidied.step hcs with ⟨rfl, rfl⟩ | ⟨w, rfl, hstep⟩
    · rw [List.append_nil]
      exact ih.inside hcs
    · exact .tidy (ih.inside hcs) hstep

/-- The entry that a lookup finds is the one that goes, and no other. -/
theorem Erased.place? (h : Erased key v s ws s') : ∃ i, s.place? key = some i ∧
    s.entries[i]? = some ⟨key, v⟩ ∧ s'.entries = s.entries.eraseIdx i := by
  induction h with
  | leaf hv =>
    rw [Shape.place?_leaf, Shape.entries_leaf, Shape.entries_leaf]
    exact Leaf.findIdx?_of_get? hv
  | @branch p ks ls cs ds c c' s' ws vs hcs hstop _ htidied ih =>
    obtain ⟨i, hplace, hentry, herased⟩ := ih
    have hlt : i < c.entries.length := (List.getElem?_eq_some_iff.1 hentry).1
    refine ⟨(cs.flatMap Shape.entries).length + i, ?_, ?_, ?_⟩
    · rw [Shape.place?_branch]
      refine hstop.findSome? (fun j hj => ?_) (by simp [← hcs, hplace])
      cases hkid : (cs ++ c :: ds)[j]? with
      | none => rfl
      | some d =>
        rw [hkid, Option.bind_some] at hj
        rw [Option.bind_some, Shape.place?_eq_none.2 hj, Option.map_none]
    · rw [Shape.entries_branch, List.flatMap_append, List.flatMap_cons, getElem?_middle hlt, hentry]
    · rw [htidied.entries, herased, Shape.entries_branch, List.flatMap_append, List.flatMap_cons,
        eraseIdx_middle hlt]

theorem Erased.find? (h : Erased key v s ws s') : s.find? key = some v := by
  induction h with
  | leaf hv => rwa [Shape.find?_leaf]
  | branch hcs hstop _ _ ih =>
    rw [Shape.find?_branch]
    exact hstop.findSome? (fun _ => id) (by simp [← hcs, ih])

end

end PagedTree
