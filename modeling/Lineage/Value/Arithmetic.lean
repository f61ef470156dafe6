/-
Arithmetic of constant expressions.
-/
import Lineage.Error
import Lineage.Value.Basic

namespace Lineage
namespace Value

/-- The failure of an operator that has no meaning for the types of its
operands. -/
def unsupported (op : Operator) (a b : Value) : Error :=
  .evaluation (.unsupported a.type op b.type)

/-- An operator on numbers.  Two integers give the true result if it fits into
64 bits; otherwise, and where a float takes part, both are widened to floats. -/
def numeric (op : Operator) (exact : Int → Int → Int) (rounded : Float → Float → Float)
    (a b : Value) : Except Error Value :=
  match a, b with
  | .int m, .int n =>
    .ok ((ofInt? (exact m.toInt n.toInt)).getD (.float (rounded (widen m) (widen n))))
  | _, _ =>
    match a.asFloat?, b.asFloat? with
    | some x, some y => .ok (.float (rounded x y))
    | _, _ => .error (unsupported op a b)

def add : Value → Value → Except Error Value :=
  numeric .add (· + ·) (· + ·)

def sub : Value → Value → Except Error Value :=
  numeric .sub (· - ·) (· - ·)

def mul : Value → Value → Except Error Value :=
  numeric .mul (· * ·) (· * ·)

/-- The quotient of two integers, if the division leaves nothing over and the
result fits into 64 bits. -/
def quotient? (m n : Int64) : Option Value :=
  if m.toInt.tmod n.toInt = 0 then ofInt? (m.toInt.tdiv n.toInt) else none

/-- A divisor that is no number fails, then one that is zero as a float, whatever is
divided; only then the dividend's type counts.  An integer division that is not exact is
done in floats. -/
def div (a b : Value) : Except Error Value :=
  match b.asFloat? with
  | none => .error (unsupported .div a b)
  | some y =>
    if y == 0 then .error (.evaluation .divisionByZero)
    else
      match a, b with
      | .int m, .int n => .ok ((quotient? m n).getD (.float (widen m / y)))
      | _, _ =>
        match a.asFloat? with
        | some x => .ok (.float (x / y))
        | none => .error (unsupported .div a b)

/-- The remainder of integers has the sign of the dividend. -/
def mod (a b : Value) : Except Error Value :=
  match a, b with
  | .int _, .int 0 => .error (.evaluation .moduloByZero)
  | .int m, .int n => .ok (.int (Int64.ofInt (m.toInt.tmod n.toInt)))
  | _, _ => .error (unsupported .mod a b)

def bitwise (op : Operator) (combine : Int64 → Int64 → Int64) (a b : Value) :
    Except Error Value :=
  match a, b with
  | .int m, .int n => .ok (.int (combine m n))
  | _, _ => .error (unsupported op a b)

def bitOr : Value → Value → Except Error Value :=
  bitwise .bitOr (· ||| ·)

def bitAnd : Value → Value → Except Error Value :=
  bitwise .bitAnd (· &&& ·)

/-- Joining takes any operands. -/
def concat (a b : Value) : Except Error Value :=
  .ok (.string (a.joined ++ b.joined))

/-- Negation takes the value from the integer zero. -/
def negate (a : Value) : Except Error Value :=
  sub (.int 0) a

end Value

def Operator.apply : Operator → Value → Value → Except Error Value
  | .add => Value.add
  | .sub => Value.sub
  | .mul => Value.mul
  | .div => Value.div
  | .mod => Value.mod
  | .bitOr => Value.bitOr
  | .bitAnd => Value.bitAnd
  | .concat => Value.concat

end Lineage
