/-
Values of constants and properties, and their texts.
-/
import Lineage.Decimal.Double

namespace Lineage

/-- A value: nothing, a truth value, a 64-bit integer, a double-precision
number or a text. -/
inductive Value where
  | null
  | bool (b : Bool)
  | int (n : Int64)
  | float (x : Float)
  | string (s : String)
  deriving Inhabited

inductive ValueType where
  | null
  | bool
  | int
  | float
  | string
  deriving DecidableEq, Repr, Inhabited

def ValueType.name : ValueType → String
  | .null => "null"
  | .bool => "bool"
  | .int => "int"
  | .float => "float"
  | .string => "string"

namespace Value

def type : Value → ValueType
  | .null => .null
  | .bool _ => .bool
  | .int _ => .int
  | .float _ => .float
  | .string _ => .string

def isNull : Value → Bool
  | .null => true
  | _ => false

def asInt? : Value → Option Int64
  | .int n => some n
  | _ => none

/-- The double-precision number nearest to an integer, of two equally near ones the one
with the even mantissa. -/
def widen (n : Int64) : Float :=
  .ofModel (.ofInt64 n)

/-- A number as a double-precision number. -/
def asFloat? : Value → Option Float
  | .int n => some (widen n)
  | .float x => some x
  | _ => none

def asString? : Value → Option String
  | .string s => some s
  | _ => none

/-- Sameness of floats as values: it holds of equal numbers, so of both zeros,
and of any two floats that are no numbers. -/
def sameFloat (x y : Float) : Bool :=
  x == y || (x.isNaN && y.isNaN)

/-- Sameness of values.  Values of different types are never the same, also the
integer and the float of one number. -/
def same : Value → Value → Bool
  | .null, .null => true
  | .bool a, .bool b => a == b
  | .int a, .int b => a == b
  | .float x, .float y => sameFloat x y
  | .string s, .string t => s == t
  | _, _ => false

instance : BEq Value := ⟨same⟩

def ofInt? (n : Int) : Option Value :=
  if Int64.minValue.toInt ≤ n ∧ n ≤ Int64.maxValue.toInt then some (.int (Int64.ofInt n))
  else none

/-! ## Texts -/

/-- The shortest digits that read back as the float, without an exponent. -/
def floatText (x : Float) : String :=
  (Decimal.Double.ofBits x.toBits).text

/-- What a value adds to a text it is joined to.  Nothing and falsehood add
nothing. -/
def joined : Value → String
  | .null => ""
  | .bool b => if b then "1" else ""
  | .int n => toString n.toInt
  | .float x => floatText x
  | .string s => s

/-- The text of a value in expressions and messages.  A text stands between
single quotes, with nothing escaped. -/
def text : Value → String
  | .null => "NULL"
  | .bool b => if b then "true" else "false"
  | .int n => toString n.toInt
  | .float x => floatText x
  | .string s => "'" ++ s ++ "'"

end Value
end Lineage
