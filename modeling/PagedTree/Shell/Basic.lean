import PagedTree.Catalog.Basic
import PagedTree.Shell.Command
import PagedTree.Tree.Dump

/-! # The shell

A shell is a database and the root of the tree that its commands act on. Each line has a reply;
a line that fails leaves the shell in use.
-/
namespace PagedTree

structure Shell where
  store : PageStore
  root : PageNo

namespace Shell

inductive Reply where
  | print (text : String)
  | quit
  | rejected (e : LineFault)
  | stopped (i : Interrupt)

/-- A shell on the tree at `root`, whose page has to be a node. -/
def start (store : PageStore) (root : PageNo) : Except Interrupt Shell := do
  let _ ← ((Tree.load root).result store).1
  return ⟨store, root⟩

def showEntries : List Entry → String
  | [] => "(empty)"
  | entries => "\n".intercalate (entries.map fun e => s!"{e.key}: {Text.lossy e.value}")

def tableLine (t : Table) : String := s!"{t.rowId} {t.name} page {t.root}: {t.sql}"

def withoutEnd (s : String) : String := String.ofList (Text.trimEnd s.toList)

def showTables : List Table → String
  | [] => "(no tables)"
  | tables => withoutEnd ("\n".intercalate (tables.map tableLine))

/-- The text printed for a command; only adding and deleting write to the store. -/
def perform (root : PageNo) : Command → Call PageStore String
  | .quit => pure ""
  | .help => pure Command.helpText
  | .add key value => do
    Tree.on root (Tree.insert key value.toUTF8)
    return "ok"
  | .get key => do
    match ← Tree.on root (Tree.get? key) with
    | some value => return Text.lossy value
    | none => return "(not found)"
  | .del key => do
    if ← Tree.on root (Tree.erase key) then return "deleted" else return "(not found)"
  | .scan => return showEntries (← Tree.on root Tree.scan)
  | .print => return withoutEnd (← Tree.on root Tree.dump)
  | .last => Tree.on root do
    let size ← Tree.lastLeafSize
    let next ← Tree.nextId
    return s!"last key: {size}, next row id: {next}"
  | .tables => return showTables (← Catalog.tables)

def answer (line : String) (s : Shell) : Reply × Shell :=
  match Command.parse line with
  | .error e => (.rejected e, s)
  | .ok .quit => (.quit, s)
  | .ok c =>
    let (r, store) := (perform s.root c).result s.store
    match r with
    | .ok text => (.print text, { s with store })
    | .error i => (.stopped i, { s with store })

end Shell

end PagedTree
