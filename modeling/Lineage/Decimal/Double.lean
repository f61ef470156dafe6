/-
The text of a double-precision number: the shortest digits that read back as
the same number, in positional notation.
-/
import Lineage.Decimal.Shortest

namespace Lineage
namespace Decimal

/-- The fields of a double-precision number. -/
structure Double where
  negative : Bool
  biased : Nat
  fraction : Nat
  deriving DecidableEq, Repr

namespace Double

/-- One more than the greatest fraction: a normal number has this leading bit
above its fraction. -/
def leading : Nat :=
  Nat.pow 2 52

/-- The sign is the highest bit, then come eleven bits of exponent and fifty-two
of fraction. -/
def ofBits (bits : UInt64) : Double :=
  let n := bits.toNat
  { negative := n / leading / Nat.pow 2 11 == 1
    biased := n / leading % Nat.pow 2 11
    fraction := n % leading }

def isNaN (d : Double) : Bool :=
  d.biased == 2047 && d.fraction != 0

def isInfinite (d : Double) : Bool :=
  d.biased == 2047 && d.fraction == 0

def isZero (d : Double) : Bool :=
  d.biased == 0 && d.fraction == 0

/-- The whole number that is scaled by a power of two.  Subnormal numbers lack
the leading bit. -/
def mantissa (d : Double) : Nat :=
  if d.biased = 0 then d.fraction else d.fraction + leading

/-- The power of two in a quarter of the mantissa's last place, so that both
ends of the interval around the number are whole. -/
def quarterExponent (d : Double) : Int :=
  (max d.biased 1 : Nat) - 1077

/-- The reals that round to the number.  Its neighbours are one place away, but
just above a power of two the lower neighbour is only half a place away.  Ties
round to an even mantissa, so an even one owns both ends. -/
def reach (d : Double) : Reach :=
  let quarters := 4 * d.mantissa
  let gap := if d.fraction = 0 ∧ d.biased > 1 then 1 else 2
  let scale := Nat.pow 2 d.quarterExponent.toNat
  { low := (quarters - gap) * scale
    value := quarters * scale
    high := (quarters + 2) * scale
    unit := Nat.pow 2 (-d.quarterExponent).toNat
    closed := d.mantissa % 2 == 0 }

/-- The number without its sign. -/
def magnitudeText (d : Double) : String :=
  if d.isInfinite then "inf"
  else if d.isZero then "0"
  else d.reach.shortest.positional

/-- A negative number has a minus sign, also zero and infinity.  Everything
that is no number has one text. -/
def text (d : Double) : String :=
  if d.isNaN then "NaN"
  else if d.negative then "-" ++ d.magnitudeText
  else d.magnitudeText

end Double
end Decimal
end Lineage
