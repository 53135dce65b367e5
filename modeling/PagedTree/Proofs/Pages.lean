import PagedTree.Proofs.NodeCodec
import PagedTree.Tree.Basic

/-! # The nodes on the pages of a file

A file is seen as the node that stands on each page. Writing a node changes that view at one page,
allocating a page does not change it, and the header that every write leaves on file is the one in
memory. A run of allocations and writes is known by the list of what it wrote.
-/
namespace PagedTree

theorem SparseFile.read_write_same (f : SparseFile) (pos : Nat) (b : ByteArray) :
    (f.write pos b).read pos b.size = b := by
  apply ByteArray.ext
  apply Array.toList_inj.1
  apply List.ext_getElem?
  intro i
  by_cases hi : i < b.size
  · have hi' : i < b.data.size := hi
    rw [SparseFile.getElem?_read _ _ _ _ hi, SparseFile.byteAt_write, if_pos (by omega),
      Nat.add_sub_cancel_left, Array.getElem?_toList, Array.getElem?_eq_getElem hi', Array.getD,
      dif_pos hi']
    rfl
  · rw [List.getElem?_eq_none, List.getElem?_eq_none]
    · simp
      omega
    · simp
      omega

theorem SparseFile.read_write_disjoint {f : SparseFile} {pos q len : Nat} {b : ByteArray}
    (h : pos + b.size ≤ q ∨ q + len ≤ pos) : (f.write pos b).read q len = f.read q len := by
  apply ByteArray.ext
  apply Array.toList_inj.1
  apply List.ext_getElem?
  intro i
  by_cases hi : i < len
  · rw [SparseFile.getElem?_read _ _ _ _ hi, SparseFile.getElem?_read _ _ _ _ hi,
      SparseFile.byteAt_write, if_neg (by omega)]
  · rw [List.getElem?_eq_none, List.getElem?_eq_none]
    · simp
      omega
    · simp
      omega

/-- The node on each page, where there is one. -/
abbrev Pages := PageNo → Option Node

namespace Pages

def set (P : Pages) (p : PageNo) (n : Node) : Pages := fun q => if q = p then some n else P q

/-- The pages after a list of writes, the oldest first. -/
def write (P : Pages) (ws : List (PageNo × Node)) : Pages := ws.foldl (fun P w => P.set w.1 w.2) P

@[simp] theorem set_same (P : Pages) (p : PageNo) (n : Node) : P.set p n p = some n := if_pos rfl

theorem set_other {P : Pages} {p q : PageNo} (n : Node) (h : q ≠ p) : P.set p n q = P q := if_neg h

@[simp] theorem write_nil (P : Pages) : P.write [] = P := rfl

@[simp] theorem write_cons (P : Pages) (w : PageNo × Node) (ws : List (PageNo × Node)) :
    P.write (w :: ws) = (P.set w.1 w.2).write ws := rfl

theorem write_append (P : Pages) (ws vs : List (PageNo × Node)) :
    P.write (ws ++ vs) = (P.write ws).write vs := List.foldl_append ..

/-- A page that is not written keeps its node. -/
theorem write_other {P : Pages} {ws : List (PageNo × Node)} {q : PageNo}
    (h : ∀ w ∈ ws, w.1 ≠ q) : P.write ws q = P q := by
  induction ws generalizing P with
  | nil => rfl
  | cons w ws ih =>
    have hw : q ≠ w.1 := fun he => h w List.mem_cons_self he.symm
    rw [write_cons, ih fun v hv => h v (List.mem_cons_of_mem _ hv), set_other _ hw]

/-- Every node of the first stands on its page in the second. -/
def Within (P Q : Pages) : Prop := ∀ p n, P p = some n → Q p = some n

theorem Within.refl (P : Pages) : P.Within P := fun _ _ h => h

theorem Within.trans {P Q R : Pages} (h : P.Within Q) (h' : Q.Within R) : P.Within R :=
  fun p n hn => h' p n (h p n hn)

theorem Within.set {P Q : Pages} (h : P.Within Q) (p : PageNo) (n : Node) :
    (P.set p n).Within (Q.set p n) := by
  intro q m hm
  by_cases hq : q = p
  · subst hq
    rwa [set_same] at hm ⊢
  · rw [set_other _ hq] at hm ⊢
    exact h q m hm

end Pages

def SparseFile.nodeAt (f : SparseFile) : Pages := fun p =>
  (Node.decode p (f.read p.offset pageSize)).toOption

namespace PageNo

theorem headerSize_lt_offset (p : PageNo) : headerSize < p.offset := by
  simp only [offset, firstPageOffset]
  omega

theorem offset_disjoint {p q : PageNo} (h : q ≠ p) :
    p.offset + pageSize ≤ q.offset ∨ q.offset + pageSize ≤ p.offset := by
  have hne : q.toNat ≠ p.toNat := fun he => h (UInt32.toNat_inj.1 he)
  simp only [offset, pageSize]
  omega

end PageNo

namespace Header

/-- A header that was made or accepted by this program. -/
structure Sound (h : Header) : Prop where
  size : h.pageSize.toNat = PagedTree.pageSize
  cursor : onBoundary h.freeOffset.toNat

theorem sound_fresh : fresh.Sound := ⟨by decide, by decide⟩

theorem sound_of_decode {b : ByteArray} {h : Header} (hd : decode b = .ok h) : h.Sound := by
  unfold decode at hd
  dsimp only at hd
  split at hd
  · cases hd
  split at hd
  · cases hd
  split at hd
  · cases hd
  case isFalse hsize =>
    split at hd
    · cases hd
    case isFalse hcursor =>
      have hlt : word 4 b 36 < UInt32.size := word_lt 4 b 36
      cases hd
      constructor
      · rw [Classical.not_not.1 hsize]
        rfl
      · rw [UInt32.toNat_ofNat_of_lt' hlt]
        exact Classical.not_not.1 hcursor

end Header

namespace PageStore

/-- What a store that has written its header last leaves for the next one to open. -/
def Synced (s : PageStore) : Prop :=
  headerSize ≤ s.file.size ∧ Header.decode (s.file.read 0 headerSize) = .ok s.header

theorem load_synced {s : PageStore} (h : s.Synced) (path : String) :
    load path (.file s.file) = .ok { s with journal := [] } := by
  unfold load
  simp [Nat.not_lt.2 h.1, h.2]

/-- A header that is written at the front is found there. -/
theorem synced_header {h : Header} (hs : h.Sound) (f : SparseFile) (js : List SparseFile) :
    Synced ⟨f.write 0 h.encode, h, js⟩ := by
  have hsize := Header.size_encode h
  have hne : h.encode.size ≠ 0 := by
    rw [hsize]
    decide
  have hread := SparseFile.read_write_same f 0 h.encode
  rw [hsize] at hread
  constructor
  · rw [SparseFile.size_write hne]
    omega
  · rw [hread]
    exact Header.decode_encode hs.size hs.cursor

theorem load_header {h : Header} (hs : h.Sound) (f : SparseFile) (path : String) :
    load path (.file (f.write 0 h.encode)) = .ok ⟨f.write 0 h.encode, h, []⟩ :=
  load_synced (synced_header hs f []) path

/-- A write leaves every other page as it is. -/
theorem read_putPage_other {s : PageStore} {p q : PageNo} {b : ByteArray} (hb : b.size = pageSize)
    (hq : q ≠ p) : (s.putPage p b).file.read q.offset pageSize = s.file.read q.offset pageSize := by
  have hbehind := q.headerSize_lt_offset
  have hdisjoint := PageNo.offset_disjoint hq
  have hheader := Header.size_encode s.header
  rw [putPage, SparseFile.read_write_disjoint (by omega), SparseFile.read_write_disjoint (by omega)]

theorem nodeAt_putPage {s : PageStore} {p : PageNo} {b : ByteArray} {n : Node}
    (hb : b.size = pageSize) (hn : Node.decode p b = .ok n) :
    (s.putPage p b).file.nodeAt = s.file.nodeAt.set p n := by
  funext q
  by_cases h : q = p
  · subst h
    have hq := q.headerSize_lt_offset
    have hheader := Header.size_encode s.header
    rw [SparseFile.nodeAt, putPage, SparseFile.read_write_disjoint (by omega), ← hb,
      SparseFile.read_write_same, hn, Pages.set_same]
    rfl
  · rw [SparseFile.nodeAt, read_putPage_other hb h, Pages.set_other _ h]
    rfl

theorem synced_putPage {s : PageStore} {p : PageNo} {b : ByteArray} (hs : s.header.Sound) :
    (s.putPage p b).Synced := synced_header hs _ _

/-- The header on file is the one in memory, byte for byte. -/
def Stamped (s : PageStore) : Prop := s.file.read 0 headerSize = s.header.encode

theorem stamped_putPage (s : PageStore) (p : PageNo) (b : ByteArray) : (s.putPage p b).Stamped := by
  have hread := SparseFile.read_write_same (s.file.write p.offset b) 0 s.header.encode
  rwa [Header.size_encode] at hread

/-- The store with one page more. -/
def grown (s : PageStore) : PageStore :=
  { s with header := { s.header with freeOffset := .ofNat (s.header.freeOffset.toNat + pageSize) } }

@[simp] theorem file_grown (s : PageStore) : s.grown.file = s.file := by
  cases s
  rfl

@[simp] theorem journal_grown (s : PageStore) : s.grown.journal = s.journal := by
  cases s
  rfl

/-- Whether there is a page number left to hand out. -/
def HasRoom (s : PageStore) : Prop := s.header.freeOffset.toNat + pageSize < UInt32.size

/-- The cursor is behind the last page. -/
theorem freeOffset_eq {s : PageStore} (hs : s.header.Sound) :
    s.header.freeOffset.toNat = firstPageOffset + pageSize * s.pageCount := by
  obtain ⟨hle, hmod⟩ := hs.cursor
  have hdiv := Nat.div_add_mod (s.header.freeOffset.toNat - firstPageOffset) pageSize
  simp only [pageCount, Header.pageCount]
  omega

theorem hasRoom_iff {s : PageStore} (hs : s.header.Sound) :
    s.HasRoom ↔ firstPageOffset + pageSize * (s.pageCount + 1) < UInt32.size := by
  rw [HasRoom, freeOffset_eq hs, Nat.mul_succ, Nat.add_assoc]

theorem allocate_ok {s : PageStore} (h : s.HasRoom) :
    allocate.result s = (.ok (UInt32.ofNat s.pageCount), s.grown) := by
  unfold HasRoom at h
  simp only [allocate, Call.result_bind, Call.result_get, if_pos h, Call.result_set,
    Call.result_pure, grown]

theorem allocate_full {s : PageStore} (h : ¬s.HasRoom) :
    allocate.result s = (.error (.error .full), s) := by
  unfold HasRoom at h
  simp only [allocate, Call.result_bind, Call.result_get, if_neg h, Call.result_fail]

theorem sound_grown {s : PageStore} (hs : s.header.Sound) (h : s.HasRoom) :
    s.grown.header.Sound := by
  have hfree : s.grown.header.freeOffset.toNat = s.header.freeOffset.toNat + pageSize :=
    UInt32.toNat_ofNat_of_lt' h
  have hsize : ∀ offset, { s.header with freeOffset := offset }.pageSize.toNat =
      s.header.pageSize.toNat := fun _ => rfl
  have hc := hs.cursor
  unfold Header.onBoundary at hc
  constructor
  · exact (hsize _).trans hs.size
  unfold Header.onBoundary
  rw [hfree]
  refine ⟨by omega, ?_⟩
  rw [show s.header.freeOffset.toNat + pageSize - firstPageOffset =
    s.header.freeOffset.toNat - firstPageOffset + pageSize by omega, Nat.add_mod_right]
  exact hc.2

theorem pageCount_grown {s : PageStore} (hs : s.header.Sound) (h : s.HasRoom) :
    s.grown.pageCount = s.pageCount + 1 := by
  have hfree : s.grown.header.freeOffset.toNat = s.header.freeOffset.toNat + pageSize :=
    UInt32.toNat_ofNat_of_lt' h
  have hc := hs.cursor.1
  simp only [pageCount, Header.pageCount, hfree]
  rw [show s.header.freeOffset.toNat + pageSize - firstPageOffset =
    s.header.freeOffset.toNat - firstPageOffset + pageSize by omega,
    Nat.add_div_right _ (by decide)]

theorem toNat_allocated (s : PageStore) :
    (UInt32.ofNat s.pageCount).toNat = s.pageCount := by
  apply UInt32.toNat_ofNat_of_lt'
  refine Nat.lt_of_le_of_lt ?_ (s.header.freeOffset.toNat_lt)
  exact Nat.le_trans (Nat.div_le_self _ _) (Nat.sub_le _ _)

theorem allocated_lt {s : PageStore} (hs : s.header.Sound) (h : s.HasRoom) :
    (UInt32.ofNat s.pageCount).toNat < s.grown.pageCount := by
  rw [pageCount_grown hs h, toNat_allocated]
  exact Nat.lt_succ_self _

theorem writePage_ok {s : PageStore} {p : PageNo} {b : ByteArray} (hp : p.toNat < s.pageCount)
    (hb : b.size = pageSize) : (writePage p b).result s = (.ok (), s.putPage p b) := by
  simp [writePage, checkAllocated, Call.result_bind, Nat.not_le.2 hp, hb]

theorem readPage_ok {s : PageStore} {p : PageNo} (hp : p.toNat < s.pageCount) :
    (readPage p).result s = (.ok (s.file.read p.offset pageSize), s) := by
  simp only [readPage, checkAllocated, Call.result_bind, Call.result_get, if_neg (Nat.not_le.2 hp),
    Call.result_pure]

theorem readPage_fails {s : PageStore} {p : PageNo} (hp : ¬p.toNat < s.pageCount) :
    (readPage p).result s = (.error (.error (.pageOutOfRange p s.pageCount)), s) := by
  simp [readPage, checkAllocated, Call.result_bind, Nat.not_lt.1 hp]

theorem readPage_state (p : PageNo) (s : PageStore) : ((readPage p).result s).2 = s := by
  by_cases hp : p.toNat < s.pageCount
  · rw [readPage_ok hp]
  · rw [readPage_fails hp]

/-- A write succeeds with one block onto a page that has been handed out, and is refused else. -/
theorem writePage_cases (p : PageNo) (c : ByteArray) (s : PageStore) :
    (c.size = pageSize ∧ p.toNat < s.pageCount ∧
      (writePage p c).result s = (.ok (), s.putPage p c)) ∨
    ∃ e, (writePage p c).result s = (.error (.error e), s) := by
  by_cases hp : p.toNat < s.pageCount
  · by_cases hc : c.size = pageSize
    · exact .inl ⟨hc, hp, writePage_ok hp hc⟩
    · exact .inr ⟨_, by
        simp [writePage, checkAllocated, Call.result_bind, Nat.not_le.2 hp, hc]; rfl⟩
  · exact .inr ⟨_, by simp [writePage, checkAllocated, Call.result_bind, Nat.not_lt.1 hp]; rfl⟩

theorem allocate_cases (s : PageStore) :
    s.HasRoom ∧ allocate.result s = (.ok (.ofNat s.pageCount), s.grown) ∨
    allocate.result s = (.error (.error .full), s) := by
  by_cases hroom : s.HasRoom
  · exact .inl ⟨hroom, allocate_ok hroom⟩
  · exact .inr (allocate_full hroom)

theorem header_writePage {s t : PageStore} {p : PageNo} {b : ByteArray}
    (h : (writePage p b).result s = (.ok (), t)) : t.header = s.header := by
  simp only [writePage, checkAllocated, Call.result_bind, Call.result_get] at h
  by_cases hp : s.pageCount ≤ p.toNat
  · simp [hp] at h
  by_cases hb : b.size = pageSize
  · simp only [if_neg hp, Call.result_pure, hb, ne_eq, not_true, if_false, Call.result_modify] at h
    cases h
    rfl
  · simp [hp, hb, Call.result_bind] at h

@[simp] theorem pageCount_putPage (s : PageStore) (p : PageNo) (b : ByteArray) :
    (s.putPage p b).pageCount = s.pageCount := rfl

theorem journal_putPage (s : PageStore) (p : PageNo) (b : ByteArray) :
    (s.putPage p b).journal = (s.putPage p b).file :: s.journal := rfl

/-! ## Runs of allocations and writes -/

/-- The nodes on the pages that have been handed out. -/
def view (s : PageStore) : Pages := fun p => if p.toNat < s.pageCount then s.file.nodeAt p else none

theorem lt_of_view {s : PageStore} {p : PageNo} {n : Node} (h : s.view p = some n) :
    p.toNat < s.pageCount := by
  by_cases hp : p.toNat < s.pageCount
  · exact hp
  · simp [view, hp] at h

theorem view_of_le {s : PageStore} {p : PageNo} (h : s.pageCount ≤ p.toNat) : s.view p = none :=
  if_neg (Nat.not_lt.2 h)

theorem view_grown {s : PageStore} (hs : s.header.Sound) (h : s.HasRoom) :
    s.view.Within s.grown.view := by
  intro p n hn
  have hp := lt_of_view hn
  have hp' : p.toNat < s.grown.pageCount := by
    rw [pageCount_grown hs h]
    omega
  rw [view, if_pos hp', file_grown]
  rwa [view, if_pos hp] at hn

theorem view_putPage {s : PageStore} {p : PageNo} {b : ByteArray} {n : Node}
    (hp : p.toNat < s.pageCount) (hb : b.size = pageSize) (hn : Node.decode p b = .ok n) :
    (s.putPage p b).view = s.view.set p n := by
  funext q
  simp only [view, pageCount_putPage, nodeAt_putPage hb hn]
  by_cases hq : q = p
  · subst hq
    rw [if_pos hp, Pages.set_same, Pages.set_same]
  · rw [Pages.set_other _ hq, Pages.set_other _ hq, view]

/-- A node on a page that has just been handed out leaves every other node in place. -/
theorem view_allocated {s : PageStore} {b : ByteArray} {n : Node} (hs : s.header.Sound)
    (h : s.HasRoom) (hb : b.size = pageSize) (hn : Node.decode (.ofNat s.pageCount) b = .ok n) :
    s.view.Within (s.grown.putPage (.ofNat s.pageCount) b).view ∧
      (s.grown.putPage (.ofNat s.pageCount) b).view (.ofNat s.pageCount) = some n := by
  rw [view_putPage (allocated_lt hs h) hb hn]
  constructor
  · intro p m hm
    have hp := lt_of_view hm
    rw [Pages.set_other, view_grown hs h p m hm]
    rintro rfl
    rw [toNat_allocated] at hp
    exact Nat.lt_irrefl _ hp
  · rw [Pages.set_same]

/-- From one store to another by allocating the pages in the first list and writing the nodes in
the second, both the oldest first. -/
inductive Wrote : PageStore → List PageNo → List (PageNo × Node) → PageStore → Prop where
  | refl (s : PageStore) : Wrote s [] [] s
  | allocate {s t : PageStore} {fs : List PageNo} {ws : List (PageNo × Node)} :
      Wrote s fs ws t → t.HasRoom → Wrote s (fs ++ [.ofNat t.pageCount]) ws t.grown
  | write {s t : PageStore} {fs : List PageNo} {ws : List (PageNo × Node)} {p : PageNo} {n : Node}
      {b : ByteArray} : Wrote s fs ws t → p.toNat < t.pageCount → b.size = pageSize →
      Node.decode p b = .ok n → Wrote s fs (ws ++ [(p, n)]) (t.putPage p b)

namespace Wrote

variable {s t u : PageStore} {fs gs : List PageNo} {ws vs : List (PageNo × Node)}

theorem trans (h : Wrote s fs ws t) (h' : Wrote t gs vs u) : Wrote s (fs ++ gs) (ws ++ vs) u := by
  induction h' with
  | refl => simpa using h
  | allocate _ hroom ih =>
    rw [← List.append_assoc]
    exact .allocate ih hroom
  | write _ hp hb hn ih =>
    rw [← List.append_assoc]
    exact .write ih hp hb hn

theorem eq_of_nil (h : Wrote s [] [] t) : t = s := by
  generalize hfs : ([] : List PageNo) = fs at h
  generalize hws : ([] : List (PageNo × Node)) = ws at h
  cases h with
  | refl => rfl
  | allocate => simp at hfs
  | write => simp at hws

theorem sound (h : Wrote s fs ws t) (hs : s.header.Sound) : t.header.Sound := by
  induction h with
  | refl => exact hs
  | allocate _ hroom ih => exact sound_grown ih hroom
  | write _ _ _ _ ih => exact ih

theorem pageCount_eq (h : Wrote s fs ws t) (hs : s.header.Sound) :
    t.pageCount = s.pageCount + fs.length := by
  induction h with
  | refl => rfl
  | allocate h hroom ih =>
    rw [pageCount_grown (h.sound hs) hroom, ih, List.length_append]
    rfl
  | write _ _ _ _ ih => exact ih

/-- All pages lie in front of the largest cursor. -/
theorem fits (h : Wrote s fs ws t) (hs : s.header.Sound) :
    firstPageOffset + pageSize * (s.pageCount + fs.length) < UInt32.size := by
  rw [← h.pageCount_eq hs, ← freeOffset_eq (h.sound hs)]
  exact t.header.freeOffset.toNat_lt

/-- The allocated pages are new and different. -/
theorem fresh (h : Wrote s fs ws t) (hs : s.header.Sound) :
    fs.Nodup ∧ ∀ f ∈ fs, s.pageCount ≤ f.toNat ∧ f.toNat < t.pageCount := by
  induction h with
  | refl => simp
  | @allocate t fs ws h hroom ih =>
    have hnew := toNat_allocated t
    have hcount := h.pageCount_eq hs
    rw [pageCount_grown (h.sound hs) hroom]
    constructor
    · refine List.nodup_append.2 ⟨ih.1, by simp, ?_⟩
      intro a ha b hb he
      have hlt := (ih.2 a ha).2
      rw [List.mem_singleton.1 hb] at he
      rw [he, hnew] at hlt
      omega
    · intro f hf
      rcases List.mem_append.1 hf with hf | hf
      · have hbound := ih.2 f hf
        omega
      · rw [List.mem_singleton.1 hf, hnew]
        omega
  | write _ _ _ _ ih => exact ih

/-- There are no new pages but those allocated. -/
theorem mem_of_new (h : Wrote s fs ws t) (hs : s.header.Sound) {p : PageNo}
    (hp : s.pageCount ≤ p.toNat) (hlt : p.toNat < t.pageCount) : p ∈ fs := by
  induction h with
  | refl => exact absurd hlt (Nat.not_lt.2 hp)
  | @allocate t fs ws h hroom ih =>
    rw [pageCount_grown (h.sound hs) hroom] at hlt
    by_cases hold : p.toNat < t.pageCount
    · exact List.mem_append_left _ (ih hold)
    · have hlast : p.toNat = (UInt32.ofNat t.pageCount).toNat := by
        rw [toNat_allocated]
        omega
      exact List.mem_append_right _ (List.mem_singleton.2 (UInt32.toNat_inj.1 hlast))
  | write _ _ _ _ ih => exact ih hlt

theorem unseen (h : Wrote s fs ws t) (hs : s.header.Sound) : ∀ f ∈ fs, s.view f = none :=
  fun f hf => view_of_le ((h.fresh hs).2 f hf).1

/-- A page that is not written keeps its bytes. -/
theorem read (h : Wrote s fs ws t) {p : PageNo} (hp : ∀ w ∈ ws, w.1 ≠ p) :
    t.file.read p.offset pageSize = s.file.read p.offset pageSize := by
  induction h with
  | refl => rfl
  | allocate _ _ ih => simpa using ih hp
  | @write t fs ws q n b _ _ hb _ ih =>
    have hq : q ≠ p := hp (q, n) (by simp)
    rw [read_putPage_other hb hq.symm, ih fun w hw => hp w (List.mem_append_left _ hw)]

/-- What was on the pages is there still, but for what has been written. -/
theorem view (h : Wrote s fs ws t) (hs : s.header.Sound) : (s.view.write ws).Within t.view := by
  induction h with
  | refl => exact Pages.Within.refl _
  | allocate h hroom ih => exact ih.trans (view_grown (h.sound hs) hroom)
  | write _ hp hb hn ih =>
    rw [view_putPage hp hb hn, Pages.write_append]
    exact ih.set _ _

theorem written_lt (h : Wrote s fs ws t) (hs : s.header.Sound) :
    ∀ w ∈ ws, w.1.toNat < t.pageCount := by
  induction h with
  | refl => simp
  | allocate h hroom ih =>
    rw [pageCount_grown (h.sound hs) hroom]
    exact fun w hw => Nat.lt_succ_of_lt (ih w hw)
  | write _ hp _ _ ih =>
    intro w hw
    rcases List.mem_append.1 hw with hw | hw
    · exact ih w hw
    · rw [List.mem_singleton.1 hw]
      exact hp

/-- The last step was a write, if there were any, unless a page that was asked for has not been
written. -/
theorem put_last (h : Wrote s fs ws t) (hs : s.header.Sound) (hfilled : ∀ f ∈ fs, ∃ n, (f, n) ∈ ws) :
    t = s ∨ ∃ (u : PageStore) (p : PageNo) (b : ByteArray), u.header.Sound ∧ t = u.putPage p b := by
  cases h with
  | refl => exact .inl rfl
  | @allocate t fs ws h hroom =>
    obtain ⟨n, hn⟩ := hfilled (.ofNat t.pageCount) (by simp)
    have hlt := h.written_lt hs _ hn
    rw [toNat_allocated] at hlt
    exact absurd hlt (Nat.lt_irrefl _)
  | write h => exact .inr ⟨_, _, _, h.sound hs, rfl⟩

/-- The header on the file is behind only while a page that was asked for has not been written. -/
theorem synced (h : Wrote s fs ws t) (hs : s.header.Sound) (hsynced : s.Synced)
    (hfilled : ∀ f ∈ fs, ∃ n, (f, n) ∈ ws) : t.Synced := by
  rcases h.put_last hs hfilled with rfl | ⟨u, p, b, hu, rfl⟩
  · exact hsynced
  · exact synced_putPage hu

theorem stamped (h : Wrote s fs ws t) (hs : s.header.Sound) (hstamped : s.Stamped)
    (hfilled : ∀ f ∈ fs, ∃ n, (f, n) ∈ ws) : t.Stamped := by
  rcases h.put_last hs hfilled with rfl | ⟨u, p, b, -, rfl⟩
  · exact hstamped
  · exact stamped_putPage u p b

theorem length_journal (h : Wrote s fs ws t) :
    t.journal.length = ws.length + s.journal.length := by
  induction h with
  | refl => simp
  | allocate _ _ ih => simpa using ih
  | write _ _ _ _ ih =>
    rw [journal_putPage, List.length_cons, ih, List.length_append, List.length_singleton]
    omega

theorem journal_ne (h : Wrote s fs ws t) (hws : ws ≠ []) : t.journal ≠ s.journal := by
  intro he
  have hlen := h.length_journal
  have hpos := List.length_pos_iff.2 hws
  rw [he] at hlen
  omega

/-- Every file that the run leaves behind on its way holds a first part of what it wrote, and can
be opened. -/
theorem journal (h : Wrote s fs ws t) (hs : s.header.Sound) :
    ∃ files, t.journal = files ++ s.journal ∧ ∀ f ∈ files, ∃ u gs pre post,
      ws = pre ++ post ∧ Wrote s gs pre u ∧ u.Synced ∧ u.file = f := by
  induction h with
  | refl => exact ⟨[], rfl, by simp⟩
  | allocate _ _ ih => simpa using ih
  | @write t fs ws p n b h hp hb hn ih =>
    obtain ⟨files, hfiles, hcut⟩ := ih
    refine ⟨(t.putPage p b).file :: files, by rw [journal_putPage, hfiles, List.cons_append], ?_⟩
    intro f hf
    rcases List.mem_cons.1 hf with rfl | hf
    · exact ⟨t.putPage p b, fs, ws ++ [(p, n)], [], by simp, .write h hp hb hn,
        synced_putPage (h.sound hs), rfl⟩
    · obtain ⟨u, gs, pre, post, rfl, hu⟩ := hcut f hf
      exact ⟨u, gs, pre, post ++ [(p, n)], by simp, hu⟩

end Wrote

end PageStore

end PagedTree
