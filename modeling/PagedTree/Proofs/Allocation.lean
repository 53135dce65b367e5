import PagedTree.Proofs.Histories

/-! # Handing out pages

Page numbers are handed out one after the other. The cursor of a store is a word of four bytes and
lies just behind the last page, so the number of pages can be read off it at any time. When the word
is too small for another page the cursor stays where it is, and then no page is handed out any more.
-/
namespace PagedTree.PageStore

/-- A store whose file has just been made or opened. -/
inductive Opened : PageStore → Prop where
  | create {d : Disk} {s : PageStore} : PageStore.create d = .ok s → Opened s
  | load {path : String} {d : Disk} {s : PageStore} : PageStore.load path d = .ok s → Opened s

theorem Opened.sound {s : PageStore} (h : s.Opened) : s.header.Sound := by
  cases h with
  | create hs => exact (Reached.create hs).sound
  | load hs => exact (Reached.load hs).sound

/-- What a program can ask of a store. -/
inductive Request where
  | allocate
  | read (p : PageNo)
  | write (p : PageNo) (b : ByteArray)
  | release (p : PageNo)

/-- The call that a request makes, which ends with the page that it gets, if it asks for one. -/
def Request.run : Request → Call PageStore (Option PageNo)
  | .allocate => do return some (← PageStore.allocate)
  | .read p => do
    let _ ← readPage p
    return none
  | .write p b => do
    writePage p b
    return none
  | .release p => do
    PageStore.release p
    return none

/-- The store after the request, whether it was granted or refused. -/
def Request.after (r : Request) (s : PageStore) : PageStore := (r.run.result s).2

def Request.page? (r : Request) (s : PageStore) : Option PageNo := (r.run.result s).1.toOption.join

/-- The store after these requests, the first of which comes first. -/
def after (s : PageStore) (rs : List Request) : PageStore := rs.foldl (fun s r => r.after s) s

/-- The pages that these requests get. -/
def handedOut : PageStore → List Request → List PageNo
  | _, [] => []
  | s, r :: rs => (r.page? s).toList ++ handedOut (r.after s) rs

@[simp] theorem after_nil (s : PageStore) : s.after [] = s := rfl

@[simp] theorem after_cons (s : PageStore) (r : Request) (rs : List Request) :
    s.after (r :: rs) = (r.after s).after rs := rfl

@[simp] theorem handedOut_nil (s : PageStore) : s.handedOut [] = [] := rfl

theorem handedOut_cons (s : PageStore) (r : Request) (rs : List Request) :
    s.handedOut (r :: rs) = (r.page? s).toList ++ (r.after s).handedOut rs := rfl

theorem hasRoom_congr {s t : PageStore} (h : t.header = s.header) : t.HasRoom ↔ s.HasRoom := by
  unfold HasRoom
  rw [h]

/-- A request gets the next page and moves the cursor behind it, or it gets none and leaves the
header alone. -/
theorem Request.header_after (r : Request) (s : PageStore) :
    (s.HasRoom ∧ r.page? s = some (.ofNat s.pageCount) ∧ r.after s = s.grown) ∨
    (r.page? s = none ∧ (r.after s).header = s.header) := by
  unfold page? after
  cases r with
  | allocate =>
    rcases allocate_cases s with ⟨hroom, hrun⟩ | hrun
    · left
      rw [run, Call.result_bind_ok hrun]
      exact ⟨hroom, rfl, rfl⟩
    · right
      rw [run, Call.result_bind_error hrun]
      exact ⟨rfl, rfl⟩
  | read p =>
    right
    by_cases hp : p.toNat < s.pageCount
    · rw [run, Call.result_bind_ok (readPage_ok hp)]
      exact ⟨rfl, rfl⟩
    · rw [run, Call.result_bind_error (readPage_fails hp)]
      exact ⟨rfl, rfl⟩
  | write p b =>
    right
    rcases writePage_cases p b s with ⟨-, -, hrun⟩ | ⟨e, hrun⟩
    · rw [run, Call.result_bind_ok hrun]
      exact ⟨rfl, rfl⟩
    · rw [run, Call.result_bind_error hrun]
      exact ⟨rfl, rfl⟩
  | release p => exact .inr ⟨rfl, rfl⟩

/-- Requests get the pages behind those that were there, in order, and the cursor is behind the last
of them. -/
theorem after_counts {s : PageStore} (hs : s.header.Sound) (rs : List Request) :
    (s.after rs).header.Sound ∧
    (s.after rs).pageCount = s.pageCount + (s.handedOut rs).length ∧
    (s.handedOut rs).map UInt32.toNat = List.range' s.pageCount (s.handedOut rs).length := by
  -- the counter goes up with each page, so the pages of the rest start one further on
  induction rs generalizing s with
  | nil => exact ⟨hs, rfl, rfl⟩
  | cons r rs ih =>
    rw [after_cons, handedOut_cons]
    rcases r.header_after s with ⟨hroom, hpage, hafter⟩ | ⟨hpage, hafter⟩
    · obtain ⟨hsound, hcount, hpages⟩ := ih (s := r.after s) (hafter ▸ sound_grown hs hroom)
      have hgrown : (r.after s).pageCount = s.pageCount + 1 := hafter ▸ pageCount_grown hs hroom
      rw [hgrown] at hcount hpages
      rw [hpage, Option.toList_some, List.singleton_append, List.length_cons, List.map_cons, hpages,
        toNat_allocated, List.range'_succ]
      exact ⟨hsound, by omega, rfl⟩
    · obtain ⟨hsound, hcount, hpages⟩ := ih (s := r.after s) (hafter ▸ hs)
      have hsame : (r.after s).pageCount = s.pageCount := congrArg Header.pageCount hafter
      rw [hsame] at hcount hpages
      rw [hpage, Option.toList_none, List.nil_append]
      exact ⟨hsound, hcount, hpages⟩

/-- A store without room keeps its header. -/
theorem header_after_full {s : PageStore} (hfull : ¬s.HasRoom) (rs : List Request) :
    (s.after rs).header = s.header := by
  induction rs generalizing s with
  | nil => rfl
  | cons r rs ih =>
    rcases r.header_after s with ⟨hroom, -⟩ | ⟨-, hsame⟩
    · exact absurd hroom hfull
    · have hstill : ¬(r.after s).HasRoom := fun hroom => hfull ((hasRoom_congr hsame).1 hroom)
      rw [after_cons, ih hstill, hsame]

theorem handedOut_nodup {s : PageStore} (hs : s.header.Sound) (rs : List Request) :
    (s.handedOut rs).Nodup := by
  obtain ⟨-, -, hpages⟩ := after_counts hs rs
  have hnumbers : ((s.handedOut rs).map UInt32.toNat).Nodup := hpages ▸ List.nodup_range'
  exact (List.pairwise_map.1 hnumbers).imp fun hne he => hne (congrArg UInt32.toNat he)

/-- A page that has been handed out ends before the cursor. -/
theorem handedOut_below {s : PageStore} (hs : s.header.Sound) {rs : List Request} {p : PageNo}
    (hp : p ∈ s.handedOut rs) : p.offset + pageSize ≤ (s.after rs).header.freeOffset.toNat := by
  obtain ⟨hsound, hcount, hpages⟩ := after_counts hs rs
  have hmem : p.toNat ∈ List.range' s.pageCount (s.handedOut rs).length :=
    hpages ▸ List.mem_map_of_mem hp
  obtain ⟨-, hlt⟩ := List.mem_range'_1.1 hmem
  rw [freeOffset_eq hsound, PageNo.offset]
  simp only [pageSize]
  omega

/-- Whatever is asked of a store, the cursor stands exactly behind the last page. As long as it can
move by one page more, the next page number is handed out; from then on every request for a page is
refused and the header stays. No page is handed out twice, and each ends before the cursor. -/
theorem allocates_in_order {s : PageStore} (h : s.Opened) (rs : List Request) :
    (s.after rs).header.freeOffset.toNat = 101 + 32768 * (s.after rs).pageCount ∧
    ((∃ p t, allocate.result (s.after rs) = (.ok p, t) ∧ p.toNat = (s.after rs).pageCount ∧
      t.pageCount = (s.after rs).pageCount + 1) ↔
        101 + 32768 * ((s.after rs).pageCount + 1) < UInt32.size) ∧
    (¬101 + 32768 * ((s.after rs).pageCount + 1) < UInt32.size → ∀ qs : List Request,
      ((s.after rs).after qs).header = (s.after rs).header ∧
      allocate.result ((s.after rs).after qs) =
        (.error (.error .full), (s.after rs).after qs)) ∧
    (s.handedOut rs).Nodup ∧
    ∀ p ∈ s.handedOut rs, p.offset + 32768 ≤ (s.after rs).header.freeOffset.toNat := by
  obtain ⟨hsound, -⟩ := after_counts h.sound rs
  have hfirst : firstPageOffset = 101 := rfl
  have hsize : pageSize = 32768 := rfl
  have hcursor := freeOffset_eq hsound
  have hroom := hasRoom_iff hsound
  rw [hfirst, hsize] at hcursor hroom
  refine ⟨hcursor, ?_, ?_, handedOut_nodup h.sound rs, fun p hp => handedOut_below h.sound hp⟩
  · constructor
    · rintro ⟨p, t, hrun, -⟩
      rcases allocate_cases (s.after rs) with ⟨hyes, -⟩ | hfull
      · exact hroom.1 hyes
      · cases hrun.symm.trans hfull
    · intro hlt
      have hyes := hroom.2 hlt
      exact ⟨_, _, allocate_ok hyes, toNat_allocated _, pageCount_grown hsound hyes⟩
  · intro hlt qs
    have hfull : ¬(s.after rs).HasRoom := fun hyes => hlt (hroom.1 hyes)
    have hheader := header_after_full hfull qs
    exact ⟨hheader, allocate_full fun hyes => hfull ((hasRoom_congr hheader).1 hyes)⟩

/-- In a store with one page left the first of two requests gets it, and no request after them gets
another. -/
theorem allocates_in_order_of_last : ∃ s : PageStore, s.Opened ∧
    s.handedOut [.allocate, .allocate] = [131070] ∧
    (s.after [.allocate, .allocate]).header.freeOffset.toNat = 101 + 32768 * 131071 ∧
    ∀ qs : List Request, allocate.result ((s.after [.allocate, .allocate]).after qs) =
      (.error (.error .full), (s.after [.allocate, .allocate]).after qs) := by
  have hs : Header.Sound ⟨.ofNat pageSize, 4294901861⟩ := ⟨by decide, by decide⟩
  have hopened := Opened.load (load_header hs .empty "db")
  obtain ⟨hcursor, -, hfull, -⟩ := allocates_in_order hopened [.allocate, .allocate]
  have hcount : PageStore.pageCount (after ⟨SparseFile.empty.write 0 (Header.encode
      ⟨.ofNat pageSize, 4294901861⟩), ⟨.ofNat pageSize, 4294901861⟩, []⟩
        [.allocate, .allocate]) = 131071 := by rfl
  rw [hcount] at hcursor hfull
  exact ⟨_, hopened, by rfl, hcursor, fun qs => (hfull (by decide) qs).2⟩

end PagedTree.PageStore
