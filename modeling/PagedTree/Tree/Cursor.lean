import PagedTree.Tree.Lookup

/-! # Walking the leaves

The cursor moves along the links from leaf to leaf, past empty ones, and is used up behind the
last entry. A scan is a walk from the front to the end. The largest key is that of the rightmost
leaf, or of a whole scan when that leaf is empty.
-/
namespace PagedTree.Tree

/-- The entry that the cursor rests on. -/
def current? (t : Tree) : Option Entry := do
  let pos ← t.cursor
  match t.resident.nodeOf? pos.leaf with
  | some (.leaf l) => l.entries[pos.index]?
  | _ => none

def place (cursor : Option Position) : Call Tree Unit :=
  modify fun t => { t with cursor }

/-- The leaf that the cursor rests on; only a link can have led it to a branch. -/
def cursorLeaf (pos : Position) : Call Tree Leaf := do
  let r ← held pos.leaf
  match r.node with
  | .leaf l => return l
  | .branch _ => Call.fail (.corruptPage r.page .siblingBranch)

/-- Moves the cursor on to the next entry, if it rests on none. -/
def seek : Nat → Call Tree Unit
  | 0 => throw .endless
  | limit + 1 => do
    match (← get).cursor with
    | none => return
    | some pos =>
      let l ← cursorLeaf pos
      if pos.index < l.entries.length then
        return
      match l.next with
      | none => place none
      | some next =>
        place (some ⟨← resolve next, 0⟩)
        seek limit

def seekEntry : Call Tree Unit := do seek (← get).walkLimit

def toFront : Call Tree Unit := do
  place (some ⟨(← firstLeaf).1, 0⟩)
  seekEntry

def toNext : Call Tree Unit := do
  match (← get).cursor with
  | none => return
  | some pos =>
    place (some { pos with index := pos.index + 1 })
    seekEntry

/-- The entries from the cursor on, leaf by leaf. -/
def scanFrom : Nat → Call Tree (List Entry)
  | 0 => throw .endless
  | limit + 1 => do
    match (← get).cursor with
    | none => return []
    | some pos =>
      let l ← cursorLeaf pos
      place (some { pos with index := l.entries.length })
      seekEntry
      return l.entries.drop pos.index ++ (← scanFrom limit)

/-- All entries in order; the cursor is used up afterwards. -/
def scan : Call Tree (List Entry) := do
  toFront
  scanFrom (← get).walkLimit

def greatestKey : Call Tree (Option UInt64) := do
  match (← lastLeaf).2.keys.getLast? with
  | some key => return some key
  | none => return ((← scan).map Entry.key).max?

/-- One more than the largest key, and 1 in an empty tree. -/
def nextId : Call Tree UInt64 := do
  match ← greatestKey with
  | none => return 1
  | some key => Call.orFault (if key.toNat + 1 < UInt64.size then some (key + 1) else none)

end PagedTree.Tree
