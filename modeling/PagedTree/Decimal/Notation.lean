import PagedTree.Decimal.Shortest

/-! # Writing numbers

A format says which numbers are written with an exponent and whether a whole number keeps a zero
behind the point; all else is fixed by the shortest decimal.
-/
namespace PagedTree.Decimal

/-- `usesExponent point` decides by the place of the decimal point relative to the first digit:
`1` is at point 1, `0.1` at point 0. -/
structure Format where
  keepsZero : Bool
  usesExponent : Int → Bool

def sign (negative : Bool) : List Char := if negative then ['-'] else []

/-- The digits with the point after the first `point` of them, filled up with zeroes. -/
def positional (f : Format) (digits : List Char) (point : Int) : List Char :=
  if point ≤ 0 then
    ['0', '.'] ++ List.replicate (-point).toNat '0' ++ digits
  else if digits.length ≤ point.toNat then
    digits ++ List.replicate (point.toNat - digits.length) '0' ++
      (if f.keepsZero then ['.', '0'] else [])
  else digits.take point.toNat ++ '.' :: digits.drop point.toNat

def scientific (digits : List Char) (point : Int) : List Char :=
  let fraction := digits.drop 1
  digits.take 1 ++ (if fraction.isEmpty then [] else '.' :: fraction) ++
    'e' :: (toString (point - 1)).toList

def Format.write (f : Format) (bits : UInt64) : String :=
  String.ofList <|
    match Binary64.ofBits bits with
    | .nan => ['N', 'a', 'N']
    | .infinite negative => sign negative ++ ['i', 'n', 'f']
    | .finite negative 0 _ => sign negative ++ positional f ['0'] 1
    | .finite negative mantissa exponent =>
      let (t, place) := shortest mantissa exponent
      let digits := Nat.toDigits 10 t
      let point := digits.length + place
      sign negative ++
        if f.usesExponent point then scientific digits point else positional f digits point

end PagedTree.Decimal
