import PagedTree.Decimal.Notation
import PagedTree.Text.Quoted

/-! # Rows

A row is a list of integers, reals and texts. A real is kept as its 64 bits, so that two rows are
equal exactly when they agree bit for bit.
-/
namespace PagedTree

inductive Datum where
  | integer (n : Int64)
  | real (bits : UInt64)
  | text (s : String)
  deriving DecidableEq, Repr

abbrev Row := List Datum

namespace Datum

def integer? : Datum → Option Int64
  | integer n => some n
  | _ => none

def text? : Datum → Option String
  | text s => some s
  | _ => none

/-- On its own a real has no exponent, and a whole one no point. -/
def plainReal : Decimal.Format := ⟨false, fun _ => false⟩

/-- In a listing a real is seen to be one: a whole one keeps a zero behind the point, and one of
`10 ^ 16` or more or below `10 ^ -4` has an exponent. -/
def listedReal : Decimal.Format := ⟨true, fun point => point < -3 || 16 < point⟩

def shown : Datum → String
  | integer n => toString n.toInt
  | real bits => plainReal.write bits
  | text s => s

def listed : Datum → String
  | integer n => s!"Integer({n.toInt})"
  | real bits => s!"Real({listedReal.write bits})"
  | text s => s!"Text({Text.quoted s})"

end Datum

def Row.listed (row : Row) : String :=
  "[" ++ ", ".intercalate (row.map Datum.listed) ++ "]"

end PagedTree
