import PagedTree.Catalog.Table
import PagedTree.Tree.Cursor
import PagedTree.Tree.Erase
import PagedTree.Tree.Insert

/-! # The catalog

A database is a page store whose page 0 is the root of a tree of tables. Every table has a tree of
its own; its rows, like the tables themselves, are numbered from 1 on in the order in which they
were added.
-/
namespace PagedTree.Catalog

variable {α : Type}

def root : PageNo := 0

/-- A database without tables, in place of any file that is there. -/
def create (disk : Disk) : Except Interrupt PageStore := do
  match PageStore.create disk with
  | .error e => throw (.error e)
  | .ok s =>
    let (r, s) := Tree.create.result s
    let _ ← r
    return s

def load (path : String) (disk : Disk) : Except StoreError PageStore := do
  let s ← PageStore.load path disk
  if s.pageCount = 0 then
    throw (.corruptHeader .noCatalog)
  return s

/-- All tables in the order of their row ids. -/
def tables : Call PageStore (List Table) := do
  let entries ← Tree.on root Tree.scan
  Call.ofExcept (entries.mapM fun e => Table.decode e.key e.value)

def find? (name : String) : Call PageStore (Option Table) :=
  return (← tables).find? fun t => sameName t.name name

/-- Adds a row behind the last one of a tree. -/
def append (row : UInt64 → ByteArray) : Call Tree UInt64 := do
  let rowId ← Tree.nextId
  Tree.insert rowId (row rowId)
  return rowId

def addTable (name sql : String) : Call PageStore Table := do
  if (← find? name).isSome then
    Call.fail (.tableExists name)
  let page ← Tree.create
  let table := fun rowId => (⟨rowId, name, page, sql⟩ : Table)
  return table (← Tree.on root (append fun rowId => (table rowId).encode))

/-- Runs a call on the tree of a table. -/
def onTable (name : String) (c : Call Tree α) : Call PageStore α := do
  match ← find? name with
  | some t => Tree.on t.root c
  | none => Call.fail (.noSuchTable name)

def addRow (name : String) (row : Row) : Call PageStore UInt64 :=
  onTable name (append fun _ => row.encode)

def decodeEntry (e : Entry) : Except StoreError (UInt64 × Row) :=
  match Row.decode e.value with
  | .ok row => .ok (e.key, row)
  | .error fault => .error (.malformedRecord fault)

/-- The rows of a table in the order of their row ids. -/
def rows (name : String) : Call PageStore (List (UInt64 × Row)) := do
  let entries ← onTable name Tree.scan
  Call.ofExcept (entries.mapM decodeEntry)

end PagedTree.Catalog
