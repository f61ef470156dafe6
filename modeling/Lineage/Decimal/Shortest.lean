/-
The shortest decimal inside an interval around a given number: what is written
for a binary number so that it reads back as the same one.
-/
import Lineage.Decimal.Positional

namespace Lineage
namespace Decimal

/-- A positive number with the interval of reals that round to it.  `value`,
`low` and `high` are counted in parts of one over `unit`; `closed` says whether
the ends belong to the interval. -/
structure Reach where
  low : Nat
  value : Nat
  high : Nat
  unit : Nat
  closed : Bool

namespace Reach

/-- The power of ten that makes multiples of `10 ^ exponent` whole. -/
def scaleOf (exponent : Int) : Nat :=
  Nat.pow 10 (-exponent).toNat

/-- A decimal in the parts that the interval is counted in, made whole by the
scale of its exponent. -/
def scaled (r : Reach) (d : Decimal) : Nat :=
  d.coefficient * Nat.pow 10 d.exponent.toNat * r.unit

/-- Whether the decimal lies in the interval. -/
def admits (r : Reach) (d : Decimal) : Bool :=
  let point := r.scaled d
  let scale := scaleOf d.exponent
  if r.closed then r.low * scale ≤ point && point ≤ r.high * scale
  else r.low * scale < point && point < r.high * scale

/-- The greatest multiple of `10 ^ exponent` that does not exceed the number. -/
def floor (r : Reach) (exponent : Int) : Decimal :=
  { coefficient := r.value * scaleOf exponent / (r.unit * Nat.pow 10 exponent.toNat)
    exponent := exponent }

/-- The multiple of `10 ^ exponent` that stands for the number, if the interval
holds one.  Only the two multiples next to the number need a look; the nearer is
taken, and of two equally near ones the upper. -/
def onGrid (r : Reach) (exponent : Int) : Option Decimal :=
  let below := r.floor exponent
  let above : Decimal := { coefficient := below.coefficient + 1, exponent := exponent }
  let middle := 2 * (r.value * scaleOf exponent)
  match r.admits below, r.admits above with
  | true, true => some (if middle < r.scaled below + r.scaled above then below else above)
  | true, false => some below
  | false, true => some above
  | false, false => none

/-- How many digits stand before the point; zero and below counts the zeros
that follow the point. -/
def magnitude (r : Reach) : Int :=
  if r.unit ≤ r.value then (Nat.toDigits 10 (r.value / r.unit)).length
  else 1 - ((Nat.toDigits 10 (r.unit / r.value)).length : Int)

/-- The first grid, from coarse to fine, with a point in the interval gives the
shortest decimal.  Seventeen digits are enough for a double-precision number. -/
def shortest (r : Reach) : Decimal :=
  ((List.range 17).findSome? fun (n : Nat) => r.onGrid (r.magnitude - (n + 1))).getD
    (r.floor (r.magnitude - 17)) |>.trim

end Reach
end Decimal
end Lineage
