/-
Binary operators of constant expressions.
-/
namespace Lineage

inductive Operator where
  | add
  | sub
  | mul
  | div
  | mod
  | bitOr
  | bitAnd
  | concat
  deriving DecidableEq, Repr, Inhabited

namespace Operator

/-- How an operator is written between its operands. -/
def symbol : Operator → String
  | .add => "+"
  | .sub => "-"
  | .mul => "*"
  | .div => "/"
  | .mod => "%"
  | .bitOr => "|"
  | .bitAnd => "&"
  | .concat => "."

def ofSymbol? : String → Option Operator
  | "+" => some .add
  | "-" => some .sub
  | "*" => some .mul
  | "/" => some .div
  | "%" => some .mod
  | "|" => some .bitOr
  | "&" => some .bitAnd
  | "." => some .concat
  | _ => none

/-- Each operator is read back from its symbol. -/
theorem ofSymbol?_symbol (op : Operator) : ofSymbol? op.symbol = some op := by
  cases op <;> rfl

end Operator
end Lineage
