import PagedTree.Text.Quoted
import PagedTree.Text.Utf8
import PagedTree.Tree.Basic

/-! # Showing a tree

One line for each node, children below their parent and two spaces further in.
-/
namespace PagedTree.Tree

def bracketed (items : List String) : String := "[" ++ ", ".intercalate items ++ "]"

def leafLine (p : PageNo) (l : Leaf) : String :=
  let cells := l.entries.map fun e => s!"{e.key}={Text.quoted (Text.lossy e.value)}"
  let next := match l.next with
    | some n => toString n
    | none => "-"
  s!"leaf page {p} {bracketed cells} next {next}\n"

def branchLine (p : PageNo) (keys : List UInt64) : String :=
  s!"interior page {p} {bracketed (keys.map toString)}\n"

def dumpBelow : Nat → Nat → NodeId → Call Tree String
  | 0, _, _ => throw .endless
  | limit + 1, depth, id => do
    let indent := String.ofList (List.replicate (2 * depth) ' ')
    let r ← held id
    match r.node with
    | .leaf l => return indent ++ leafLine r.page l
    | .branch b =>
      let below ← (List.range b.children.length).mapM fun slot => do
        dumpBelow limit (depth + 1) (← child id slot)
      return indent ++ branchLine r.page b.keys ++ String.join below

def dump : Call Tree String := do
  let t ← get
  dumpBelow t.walkLimit 0 t.rootId

end PagedTree.Tree
