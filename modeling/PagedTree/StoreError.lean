import PagedTree.PageStore.Place
import PagedTree.Row.Codec

/-! # What can go wrong

Every failure of the store is a cause with the numbers and names that it reports; the wording is
in the `message` functions alone.
-/
namespace PagedTree

/-- Why bytes are no header of a store. -/
inductive HeaderFault where
  | tooShort (size : Nat)
  | fileTooShort (size : Nat)
  | magic
  | unitSize (size : Nat)
  | cursor (offset : Nat)
  | noCatalog

def HeaderFault.message : HeaderFault → String
  | .tooShort size => s!"header is {size} bytes, expected {headerSize}"
  | .fileTooShort size => s!"file holds {size} header bytes, expected {headerSize}"
  | .magic => "bad magic"
  | .unitSize size => s!"unsupported page size {size}"
  | .cursor offset => s!"free-page cursor {offset} is not on a page boundary"
  | .noCatalog => "no pages allocated: master catalog missing"

/-- Why bytes are no node, a node has no bytes, or a node is not what its place asks for. -/
inductive PageFault where
  | bufferSize (size : Nat)
  | valueCount (keys values : Nat)
  | childCount (keys children : Nat)
  | overfull (cells : Nat)
  | noWord (bits pos : Nat)
  | nodeKind (byte : Nat)
  | cellPastEnd (cell : Nat)
  | noPageAt (offset : Nat)
  | trailingChild
  | noChild (slot : Nat)
  | noLeaf
  | noBranch
  | siblingBranch

def PageFault.message : PageFault → String
  | .bufferSize size => s!"page buffer is {size} bytes, expected {pageSize}"
  | .valueCount keys values => s!"{keys} keys but {values} values"
  | .childCount keys children => s!"{keys} keys but {children} children"
  | .overfull cells => s!"{cells} cells do not fit in one page"
  | .noWord bits pos => s!"u{bits} at {pos} out of bounds"
  | .nodeKind byte => s!"unknown node type {byte}"
  | .cellPastEnd cell => s!"leaf cell {cell} runs past the page"
  | .noPageAt offset => s!"{offset} is not a page offset"
  | .trailingChild => "trailing child below page start"
  | .noChild slot => s!"no child slot {slot}"
  | .noLeaf => "expected a leaf"
  | .noBranch => "expected an interior node"
  | .siblingBranch => "sibling link points at an interior page"

inductive StoreError where
  | io
  | missingFile (path : String)
  | corruptHeader (fault : HeaderFault)
  | corruptPage (page : PageNo) (fault : PageFault)
  | pageOutOfRange (page : PageNo) (allocated : Nat)
  | full
  | valueTooLarge (size limit : Nat)
  | tableExists (name : String)
  | noSuchTable (name : String)
  | malformedRecord (fault : RecordFault)

def StoreError.message : StoreError → String
  | .io => "I/O error"
  | .missingFile path => s!"database file not found: {path}"
  | .corruptHeader fault => s!"corrupt database header: {fault.message}"
  | .corruptPage page fault => s!"corrupt page {page}: {fault.message}"
  | .pageOutOfRange page allocated => s!"page {page} out of range ({allocated} pages allocated)"
  | .full => "database is full: free-page cursor exceeds the header field"
  | .valueTooLarge size limit => s!"value of {size} bytes exceeds the {limit}-byte cell limit"
  | .tableExists name => s!"table '{name}' already exists"
  | .noSuchTable name => s!"no such table '{name}'"
  | .malformedRecord fault => s!"malformed record: {fault.message}"

end PagedTree
