/-! # Shortest decimals

A binary64 number owns the interval of reals that round to it. Its shortest decimal is the point
nearest to it on the coarsest grid of powers of ten that has a point in that interval, found by
exact arithmetic on natural numbers.
-/
namespace PagedTree.Decimal

/-- What 64 bits stand for; a finite number is `mantissa * 2 ^ exponent` with a sign. -/
inductive Binary64 where
  | nan
  | infinite (negative : Bool)
  | finite (negative : Bool) (mantissa : Nat) (exponent : Int)

/-- The bit that a mantissa has in front of its 52 stored ones, unless it is too small. -/
def leadingBit : Nat := 0x10000000000000

def Binary64.ofBits (bits : UInt64) : Binary64 :=
  let negative := bits >>> 63 == 1
  let biased := (bits >>> 52).toNat % 2048
  let fraction := bits.toNat % leadingBit
  if biased = 2047 then
    if fraction = 0 then .infinite negative else .nan
  else if biased = 0 then .finite negative fraction (-1074)
  else .finite negative (fraction + leadingBit) (Int.subNatNat biased 1075)

/-- Multiples of `unit / divisor`: a number and the ends of its interval, which belong to it
exactly when `closed`. -/
structure Interval where
  low : Nat
  value : Nat
  high : Nat
  closed : Bool
  unit : Nat
  divisor : Nat

/-- The neighbour below a power of two is only half as far away as the one above. -/
def interval (mantissa : Nat) (exponent : Int) : Interval where
  low := if mantissa = leadingBit ∧ -1074 < exponent then 4 * mantissa - 1 else 4 * mantissa - 2
  value := 4 * mantissa
  high := 4 * mantissa + 2
  closed := mantissa % 2 == 0
  unit := Nat.pow 2 (exponent - 2).toNat
  divisor := Nat.pow 2 (2 - exponent).toNat

/-- The point of the grid `10 ^ place` in the interval that is nearest to the value; of two that
are equally near, the larger. -/
def Interval.nearest? (v : Interval) (place : Int) : Option Nat :=
  let num := fun n => n * v.unit * Nat.pow 10 (-place).toNat
  let den := v.divisor * Nat.pow 10 place.toNat
  let inside := fun t =>
    if v.closed then decide (num v.low ≤ t * den ∧ t * den ≤ num v.high)
    else decide (num v.low < t * den ∧ t * den < num v.high)
  let below := num v.value / den
  match inside below, inside (below + 1) with
  | false, false => none
  | true, false => some below
  | false, true => some (below + 1)
  | true, true => some (if 2 * num v.value < (2 * below + 1) * den then below else below + 1)

/-- The coarsest grid with a hit, from `place` downwards. -/
def Interval.coarsest (v : Interval) : Nat → Int → Nat × Int
  | 0, place => (0, place)
  | steps + 1, place =>
    match v.nearest? place with
    | some t => (t, place)
    | none => v.coarsest steps (place - 1)

/-- `(t, place)` such that `t * 10 ^ place` is the shortest decimal. No binary64 number reaches
`10 ^ 309`, and the grid of the smallest one's last digit lies above `10 ^ -325`. -/
def shortest (mantissa : Nat) (exponent : Int) : Nat × Int :=
  (interval mantissa exponent).coarsest 720 309

end PagedTree.Decimal
