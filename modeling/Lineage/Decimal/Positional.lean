/-
Decimal numbers and their positional notation, which has no exponent.
-/
namespace Lineage

/-- The number `coefficient * 10 ^ exponent`. -/
structure Decimal where
  coefficient : Nat
  exponent : Int
  deriving DecidableEq, Repr

namespace Decimal

/-- Move zeros at the end of the coefficient into the exponent, which leaves
the number as it is. -/
def trim (d : Decimal) : Decimal :=
  if _h : d.coefficient ≠ 0 ∧ d.coefficient % 10 = 0 then
    trim { coefficient := d.coefficient / 10, exponent := d.exponent + 1 }
  else d
termination_by d.coefficient
decreasing_by omega

def digits (d : Decimal) : List Char :=
  Nat.toDigits 10 d.coefficient

/-- The digits with zeros or a point where the exponent asks for them.  A
number below one has a zero before its point. -/
def positional (d : Decimal) : String :=
  if d.exponent ≥ 0 then
    String.ofList (d.digits ++ List.replicate d.exponent.toNat '0')
  else
    let places := (-d.exponent).toNat
    let padded := List.replicate (places + 1 - d.digits.length) '0' ++ d.digits
    let whole := padded.length - places
    String.ofList (padded.take whole ++ '.' :: padded.drop whole)

end Decimal
end Lineage
