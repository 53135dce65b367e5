import PagedTree.Call
import PagedTree.PageStore.Header
import PagedTree.SparseFile

/-! # The page store

A store is a file and the header as it is in memory. Allocation moves only the cursor in memory;
every page write is followed by the header, so the cursor on file is the one of the last write.
Pages are never taken back. The journal keeps the file as it stood after each page write, which is
what a run that is cut short between two writes leaves.
-/
namespace PagedTree

/-- What is found at the path of a store. -/
inductive Disk where
  | absent
  | directory
  | file (f : SparseFile)

structure PageStore where
  file : SparseFile
  header : Header
  /-- Newest first. -/
  journal : List SparseFile

namespace PageStore

/-- A store without pages, in place of any file that is there. -/
def create : Disk → Except StoreError PageStore
  | .directory => .error .io
  | .absent | .file _ => .ok ⟨SparseFile.empty.write 0 Header.fresh.encode, Header.fresh, []⟩

def load (path : String) : Disk → Except StoreError PageStore
  | .absent => .error (.missingFile path)
  | .directory => .error .io
  | .file f =>
    if f.size < headerSize then .error (.corruptHeader (.fileTooShort f.size))
    else match Header.decode (f.read 0 headerSize) with
      | .ok h => .ok ⟨f, h, []⟩
      | .error fault => .error (.corruptHeader fault)

def pageCount (s : PageStore) : Nat := s.header.pageCount

def forgetJournal (s : PageStore) : PageStore := { s with journal := [] }

/-- Hands out the next page number, unless the cursor behind that page would not fit its field. -/
def allocate : Call PageStore PageNo := do
  let s ← get
  let next := s.header.freeOffset.toNat + pageSize
  if next < UInt32.size then
    set { s with header := { s.header with freeOffset := .ofNat next } }
    return .ofNat s.pageCount
  else Call.fail .full

def checkAllocated (p : PageNo) : Call PageStore Unit := do
  let s ← get
  if s.pageCount ≤ p.toNat then Call.fail (.pageOutOfRange p s.pageCount)

def readPage (p : PageNo) : Call PageStore ByteArray := do
  checkAllocated p
  return (← get).file.read p.offset pageSize

def putPage (s : PageStore) (p : PageNo) (b : ByteArray) : PageStore :=
  let file := (s.file.write p.offset b).write 0 s.header.encode
  { s with file, journal := file :: s.journal }

def writePage (p : PageNo) (b : ByteArray) : Call PageStore Unit := do
  checkAllocated p
  if b.size ≠ pageSize then Call.fail (.corruptPage p (.bufferSize b.size))
  modify (·.putPage p b)

/-- Gives a page back, which changes nothing: page numbers are not handed out again. -/
def release (_ : PageNo) : Call PageStore Unit := pure ()

end PageStore

end PagedTree
