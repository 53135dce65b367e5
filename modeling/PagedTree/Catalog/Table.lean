import PagedTree.StoreError
import PagedTree.Text.Blank

/-! # Tables

A table is a row of the catalog: its name, the root page of its tree and the text it was made
from. Its columns are what stands between the first opening and the last closing parenthesis of
that text, separated by commas.
-/
namespace PagedTree

structure Column where
  name : String
  /-- The words of the declared type, with one space between them. -/
  type : String
  deriving DecidableEq

structure Table where
  rowId : UInt64
  name : String
  root : PageNo
  sql : String
  deriving DecidableEq

namespace Table

def toRow (t : Table) : Row :=
  [.text t.name, .integer (.ofNat t.root.toNat), .text t.sql]

def ofRow (rowId : UInt64) : Row → Except RecordFault Table
  | row@([name, page, sql]) =>
    match name.text?, page.integer?, sql.text? with
    | some name, some page, some sql =>
      if 0 ≤ page.toInt ∧ page.toInt.toNat < UInt32.size then
        .ok ⟨rowId, name, .ofNat page.toInt.toNat, sql⟩
      else .error (.page rowId page)
    | _, _, _ => .error (.shape rowId row)
  | row => .error (.shape rowId row)

def encode (t : Table) : ByteArray := t.toRow.encode

def decode (rowId : UInt64) (b : ByteArray) : Except StoreError Table :=
  match Row.decode b with
  | .error fault => .error (.malformedRecord fault)
  | .ok row =>
    match ofRow rowId row with
    | .error fault => .error (.malformedRecord fault)
    | .ok t => .ok t

/-- What stands between the first opening and the last closing parenthesis behind it. -/
def columnText (s : List Char) : List Char :=
  let inner := (s.dropWhile (· ≠ '(')).drop 1
  ((inner.reverse.dropWhile (· ≠ ')')).drop 1).reverse

/-- The column that a stretch of text between two commas declares, if it has a word. -/
def column? (s : List Char) : Option Column :=
  match Text.words s with
  | [] => none
  | name :: type =>
    some ⟨String.ofList name, " ".intercalate (type.map String.ofList)⟩

def columns (t : Table) : List Column :=
  (Text.splitAll (· == ',') (columnText t.sql.toList)).filterMap column?

end Table

/-- Names that differ only in the case of ASCII letters name one table. -/
def sameName (a b : String) : Bool :=
  a.toList.map Char.toLower == b.toList.map Char.toLower

end PagedTree
