import PagedTree.Proofs.Pages

/-! # What a page reads as

A page shows the block that was last written to it or, if there is none, what the file held in its
place when the store was made or opened, with zeroes where the file had ended. The two regions that a
write touches, its page and the header, are apart from every other page, and the magic text and the page
size that it puts into the header are those that were there. So a store may be closed and opened again
between any two calls.
-/
namespace PagedTree

namespace Header

/-- What stands in front of the free bytes of every header that is accepted. -/
def front : List UInt8 := magic.data.toList ++ leBytes 2 PagedTree.pageSize

theorem take_of_decode {b : ByteArray} {h : Header} (hd : decode b = .ok h) :
    b.data.toList.take 18 = front := by
  unfold decode at hd
  dsimp only at hd
  split at hd
  · cases hd
  case isFalse hlong =>
  split at hd
  · cases hd
  case isFalse hmagic =>
  split at hd
  · cases hd
  case isFalse hsize =>
  have hb : b.size = b.data.toList.length := by simp
  have hshort : ((b.data.toList.drop 16).take 2).length = 2 := by
    simp only [headerSize] at hlong
    rw [List.length_take, List.length_drop]
    omega
  have hword : leNat ((b.data.toList.drop 16).take 2) = PagedTree.pageSize := by
    rw [← word_eq]
    exact Classical.not_not.1 hsize
  have hfront : b.data.toList.take 16 = magic.data.toList := by
    rw [← Classical.not_not.1 hmagic]
    simp
  have hbytes := leBytes_leNat ((b.data.toList.drop 16).take 2)
  rw [hshort, hword] at hbytes
  rw [show (18 : Nat) = 16 + 2 from rfl, List.take_add, hfront, ← hbytes, front]

end Header

theorem SparseFile.byteAt_ofBytes (b : ByteArray) (i : Nat) :
    (ofBytes b).byteAt i = b.data.getD i 0 := by
  rw [ofBytes, byteAt_write]
  by_cases hi : i < b.size
  · rw [if_pos (by omega), Nat.sub_zero]
  · have hlen : b.data.size ≤ i := Nat.not_lt.1 hi
    rw [if_neg (by omega), Array.getD_eq_getD_getElem?, Array.getElem?_eq_none hlen]
    rfl

theorem SparseFile.toList_read (f : SparseFile) (pos len : Nat) :
    (f.read pos len).data.toList = (List.range len).map fun i => f.byteAt (pos + i) := by
  apply List.ext_getElem?
  intro i
  by_cases hi : i < len
  · rw [getElem?_read _ _ _ _ hi, List.getElem?_map, List.getElem?_range hi]
    rfl
  · rw [List.getElem?_eq_none, List.getElem?_eq_none]
    · simpa using hi
    · simpa using Nat.not_lt.1 hi

/-- A shorter stretch is the front of a longer one. -/
theorem SparseFile.take_read (f : SparseFile) {pos m n : Nat} (h : m ≤ n) :
    (f.read pos n).data.toList.take m = (f.read pos m).data.toList := by
  rw [toList_read, toList_read, ← List.map_take, List.take_range, Nat.min_eq_left h]

namespace PageStore

variable {b c : ByteArray} {ws : List (PageNo × ByteArray)} {s : PageStore} {p q : PageNo}

/-- A store that was made as, or opened over, a file with the bytes `b`, after any calls and after
being closed and opened again; `ws` lists the writes that succeeded, the newest first. -/
inductive Used : ByteArray → List (PageNo × ByteArray) → PageStore → Prop where
  | create {d : Disk} {s : PageStore} : PageStore.create d = .ok s → Used Header.fresh.encode [] s
  | load {path : String} {b : ByteArray} {s : PageStore} :
      PageStore.load path (.file (.ofBytes b)) = .ok s → Used b [] s
  | allocate {b : ByteArray} {ws : List (PageNo × ByteArray)} {s : PageStore} :
      Used b ws s → Used b ws (PageStore.allocate.result s).2
  | read {b : ByteArray} {ws : List (PageNo × ByteArray)} {s : PageStore} (p : PageNo) :
      Used b ws s → Used b ws ((readPage p).result s).2
  | write {b c : ByteArray} {ws : List (PageNo × ByteArray)} {s s' : PageStore} {p : PageNo} :
      Used b ws s → (writePage p c).result s = (.ok (), s') → Used b ((p, c) :: ws) s'
  | refused {b c : ByteArray} {ws : List (PageNo × ByteArray)} {s s' : PageStore} {p : PageNo}
      {i : Interrupt} : Used b ws s → (writePage p c).result s = (.error i, s') → Used b ws s'
  | release {b : ByteArray} {ws : List (PageNo × ByteArray)} {s : PageStore} (p : PageNo) :
      Used b ws s → Used b ws ((PageStore.release p).result s).2
  | reopen {b : ByteArray} {ws : List (PageNo × ByteArray)} {s s' : PageStore} {path : String} :
      Used b ws s → PageStore.load path (.file s.file) = .ok s' → Used b ws s'

/-- What is on a page after some writes to a file that held the bytes `b` before. -/
def contents (b : ByteArray) (ws : List (PageNo × ByteArray)) (p : PageNo) : List UInt8 :=
  match ws.find? (·.1 == p) with
  | some w => w.2.data.toList
  | none => (List.range pageSize).map fun i => b.data.getD (p.offset + i) 0

theorem contents_cons : contents b ((q, c) :: ws) p =
    if p = q then c.data.toList else contents b ws p := by
  by_cases h : p = q
  · simp [contents, h]
  · simp [contents, h, Ne.symm h]

/-! ## Single calls -/

theorem read_putPage_same (hc : c.size = pageSize) :
    (s.putPage p c).file.read p.offset pageSize = c := by
  have hbehind := p.headerSize_lt_offset
  have hheader := Header.size_encode s.header
  rw [putPage, SparseFile.read_write_disjoint (by omega), ← hc, SparseFile.read_write_same]

/-! ## Histories of calls -/

/-- What holds of a store between two calls. -/
structure Consistent (b : ByteArray) (ws : List (PageNo × ByteArray)) (s : PageStore) : Prop where
  sound : s.header.Sound
  size : headerSize ≤ s.file.size
  opens : ∃ h, Header.decode (s.file.read 0 headerSize) = .ok h
  pages : ∀ p : PageNo, (s.file.read p.offset pageSize).data.toList = contents b ws p

namespace Consistent

/-- A file holds its own bytes. -/
theorem of_bytes {h : Header} {js : List SparseFile} (hs : h.Sound)
    (hsize : headerSize ≤ (SparseFile.ofBytes b).size)
    (hopens : ∃ h, Header.decode ((SparseFile.ofBytes b).read 0 headerSize) = .ok h) :
    Consistent b [] ⟨.ofBytes b, h, js⟩ := by
  refine ⟨hs, hsize, hopens, fun p => ?_⟩
  rw [SparseFile.toList_read, contents, List.find?_nil]
  simp only [SparseFile.byteAt_ofBytes]

theorem grown (h : s.Consistent b ws) (hroom : s.HasRoom) : s.grown.Consistent b ws := by
  obtain ⟨hsound, hsize, hopens, hpages⟩ := h
  refine ⟨sound_grown hsound hroom, ?_, ?_, fun p => ?_⟩
  · rwa [file_grown]
  · rwa [file_grown]
  · rw [file_grown, hpages]

theorem putPage (h : s.Consistent b ws) (hc : c.size = pageSize) :
    (s.putPage p c).Consistent b ((p, c) :: ws) := by
  have hsynced := synced_putPage (p := p) (b := c) h.sound
  refine ⟨h.sound, hsynced.1, ⟨_, hsynced.2⟩, fun q => ?_⟩
  rw [contents_cons]
  by_cases hq : q = p
  · rw [if_pos hq, hq, read_putPage_same hc]
  · rw [if_neg hq, read_putPage_other hc hq, h.pages]

/-- The file can be opened again, with the header that is on it. -/
theorem load (h : s.Consistent b ws) (path : String) : ∃ s',
    PageStore.load path (.file s.file) = .ok s' ∧ s'.Consistent b ws := by
  obtain ⟨hd, hdecode⟩ := h.opens
  have hopen : PageStore.load path (.file s.file) = .ok ⟨s.file, hd, []⟩ := by
    simp [PageStore.load, Nat.not_lt.2 h.size, hdecode]
  exact ⟨_, hopen, Header.sound_of_decode hdecode, h.size, h.opens, h.pages⟩

/-- Every header on file starts alike. -/
theorem front (h : s.Consistent b ws) : (s.file.read 0 18).data.toList = Header.front := by
  obtain ⟨hd, hdecode⟩ := h.opens
  rw [← SparseFile.take_read s.file (show 18 ≤ headerSize by decide)]
  exact Header.take_of_decode hdecode

end Consistent

theorem Used.consistent (h : Used b ws s) : s.Consistent b ws := by
  induction h with
  | @create d s hcreate =>
    have hfresh : s = ⟨.ofBytes Header.fresh.encode, Header.fresh, []⟩ := by
      cases d with
      | directory => cases hcreate
      | absent | file => exact (Except.ok.inj hcreate).symm
    have hsynced := synced_header Header.sound_fresh SparseFile.empty []
    rw [hfresh]
    exact .of_bytes Header.sound_fresh hsynced.1 ⟨_, hsynced.2⟩
  | @load path b s hload =>
    simp only [PageStore.load] at hload
    split at hload
    · cases hload
    case isFalse hsize =>
      split at hload
      · rename_i hd hdecode
        cases hload
        exact .of_bytes (Header.sound_of_decode hdecode) (Nat.not_lt.1 hsize) ⟨_, hdecode⟩
      · cases hload
  | @allocate b ws s _ ih =>
    rcases allocate_cases s with ⟨hroom, hrun⟩ | hrun
    · rw [hrun]
      exact ih.grown hroom
    · rwa [hrun]
  | read p _ ih => rwa [readPage_state]
  | @write b c ws s s' p _ hrun ih =>
    rcases writePage_cases p c s with ⟨hc, -, hput⟩ | ⟨e, hfail⟩
    · cases hrun.symm.trans hput
      exact ih.putPage hc
    · cases hrun.symm.trans hfail
  | @refused b c ws s s' p i _ hrun ih =>
    rcases writePage_cases p c s with ⟨-, -, hput⟩ | ⟨e, hfail⟩
    · cases hrun.symm.trans hput
    · cases hrun.symm.trans hfail
      exact ih
  | release p _ ih => exact ih
  | reopen _ hload ih =>
    obtain ⟨s'', hopen, hconsistent⟩ := ih.load _
    cases hload.symm.trans hopen
    exact hconsistent

/-- Two stores that show the same pages. -/
def Alike (s t : PageStore) : Prop :=
  s.pageCount = t.pageCount ∧ ∀ p, ((readPage p).result s).1 = ((readPage p).result t).1

theorem forgetJournal_alike (s : PageStore) : s.forgetJournal.Alike s := by
  refine ⟨rfl, fun p => ?_⟩
  by_cases hp : p.toNat < s.pageCount
  · rw [readPage_ok hp, readPage_ok (s := s.forgetJournal) hp]
    rfl
  · rw [readPage_fails hp, readPage_fails (s := s.forgetJournal) hp]
    rfl

theorem load_putPage (hs : s.header.Sound) (p : PageNo) (c : ByteArray) (path : String) :
    ∃ s', PageStore.load path (.file (s.putPage p c).file) = .ok s' ∧ s'.pageCount = s.pageCount :=
  ⟨_, load_synced (synced_putPage hs) path, rfl⟩

/-- How a store answers for its pages. -/
structure Lawful (b : ByteArray) (ws : List (PageNo × ByteArray)) (s : PageStore) : Prop where
  readable : ∀ p, (∃ c, ((readPage p).result s).1 = .ok c) ↔ p.toNat < s.pageCount
  shows : ∀ p c, ((readPage p).result s).1 = .ok c → c.data.toList = contents b ws p
  opens : ∀ path, ∃ s', PageStore.load path (.file s.file) = .ok s'
  /-- Whether or not a write succeeds, it leaves the other pages and the front of the header. -/
  spares : ∀ p c s' r, (writePage p c).result s = (r, s') →
    (∀ q ≠ p, ((readPage q).result s').1 = ((readPage q).result s).1) ∧
    (s'.file.read 0 18).data.toList = (s.file.read 0 18).data.toList
  flushes : ∀ p c s', (writePage p c).result s = (.ok (), s') →
    s'.file.read 0 headerSize = s'.header.encode ∧
    ∀ path, ∃ s'', PageStore.load path (.file s'.file) = .ok s'' ∧ s''.Alike s'

/-- A page store keeps what is written to its pages and nothing else changes them. -/
theorem page_contents (h : Used b ws s) : Lawful b ws s := by
  have hcons := h.consistent
  refine ⟨?_, ?_, ?_, ?_, ?_⟩
  · intro p
    by_cases hp : p.toNat < s.pageCount
    · simp [readPage_ok hp, hp]
    · simp [readPage_fails hp, hp]
  · intro p c hread
    by_cases hp : p.toNat < s.pageCount
    · rw [readPage_ok hp] at hread
      rw [← Except.ok.inj hread, hcons.pages]
    · rw [readPage_fails hp] at hread
      cases hread
  · intro path
    obtain ⟨s', hopen, -⟩ := hcons.load path
    exact ⟨s', hopen⟩
  · intro p c s' r hrun
    rcases writePage_cases p c s with ⟨hc, -, hput⟩ | ⟨e, hfail⟩
    · cases hrun.symm.trans hput
      constructor
      · intro q hq
        by_cases hlt : q.toNat < s.pageCount
        · rw [readPage_ok hlt, readPage_ok (by rwa [pageCount_putPage]), read_putPage_other hc hq]
        · rw [readPage_fails hlt, readPage_fails (by rwa [pageCount_putPage]), pageCount_putPage]
      · rw [(hcons.putPage hc).front, hcons.front]
    · cases hrun.symm.trans hfail
      exact ⟨fun _ _ => rfl, rfl⟩
  · intro p c s' hrun
    rcases writePage_cases p c s with ⟨hc, -, hput⟩ | ⟨e, hfail⟩
    · cases hrun.symm.trans hput
      constructor
      · have hsame := SparseFile.read_write_same (s.file.write p.offset c) 0 s.header.encode
        rwa [Header.size_encode] at hsame
      · intro path
        exact ⟨_, load_synced (synced_putPage hcons.sound) path, forgetJournal_alike _⟩
    · cases hrun.symm.trans hfail

/-- Two pages are asked for in a new file and the second one is written; then the file is closed and
opened again, and a page more is asked for. -/
theorem page_contents_of_one : ∃ c s, c.size = pageSize ∧ Used Header.fresh.encode [(1, c)] s ∧
    s.pageCount = 3 ∧ Lawful Header.fresh.encode [(1, c)] s := by
  obtain ⟨s₀, hs₀⟩ : ∃ s, PageStore.create .absent = .ok s := ⟨_, rfl⟩
  have hused₀ : Used Header.fresh.encode [] s₀ := .create hs₀
  have hsound₀ := hused₀.consistent.sound
  have hcount₀ : s₀.pageCount = 0 := by
    cases hs₀
    rfl
  have hroom₀ : s₀.HasRoom := (hasRoom_iff hsound₀).2 (by rw [hcount₀]; decide)
  have hused₁ := hused₀.allocate
  rw [allocate_ok hroom₀] at hused₁
  have hsound₁ := hused₁.consistent.sound
  have hcount₁ : s₀.grown.pageCount = 1 := by rw [pageCount_grown hsound₀ hroom₀, hcount₀]
  have hroom₁ : s₀.grown.HasRoom := (hasRoom_iff hsound₁).2 (by rw [hcount₁]; decide)
  have hused₂ := hused₁.allocate
  rw [allocate_ok hroom₁] at hused₂
  have hsound₂ := hused₂.consistent.sound
  have hcount₂ : s₀.grown.grown.pageCount = 2 := by rw [pageCount_grown hsound₁ hroom₁, hcount₁]
  have hsize : (zeros pageSize).size = pageSize := size_zeros pageSize
  have hused₃ := hused₂.write (writePage_ok (p := 1) (by rw [hcount₂]; decide) hsize)
  obtain ⟨s₄, hload, hcount₄⟩ := load_putPage hsound₂ 1 (zeros pageSize) ""
  rw [hcount₂] at hcount₄
  have hused₄ := hused₃.reopen hload
  have hsound₄ := hused₄.consistent.sound
  have hroom₄ : s₄.HasRoom := (hasRoom_iff hsound₄).2 (by rw [hcount₄]; decide)
  have hused₅ := hused₄.allocate
  rw [allocate_ok hroom₄] at hused₅
  exact ⟨_, _, hsize, hused₅, by rw [pageCount_grown hsound₄ hroom₄, hcount₄],
    page_contents hused₅⟩

end PageStore

end PagedTree
