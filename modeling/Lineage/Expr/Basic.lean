/-
Constant expressions.
-/
import Lineage.Name
import Lineage.Operator
import Lineage.Value.Basic

namespace Lineage

/-- Which class a constant is fetched from. -/
inductive Qualifier where
  /-- The class that declares the expression. -/
  | self
  /-- Bound like `self` when the class is declared. -/
  | static
  /-- The declared parent of the class that declares the expression. -/
  | parent
  | named (name : QualifiedName)
  deriving Repr

/-- An expression over values and class constants. -/
inductive Expr where
  | literal (value : Value)
  | constant (qualifier : Qualifier) (name : String)
  | binary (op : Operator) (left right : Expr)
  | negate (operand : Expr)

namespace Qualifier

def text : Qualifier → String
  | .self => "self"
  | .static => "static"
  | .parent => "parent"
  | .named name => name.text

/-- Class names are compared without regard to case, also here. -/
def same : Qualifier → Qualifier → Bool
  | .self, .self => true
  | .static, .static => true
  | .parent, .parent => true
  | .named a, .named b => a == b
  | _, _ => false

instance : BEq Qualifier := ⟨same⟩

def member (qualifier : Qualifier) (name : String) : String :=
  qualifier.text ++ "::" ++ name

end Qualifier

namespace Expr

/-- An operation stands in parentheses, a negation does not. -/
def text : Expr → String
  | .literal value => value.text
  | .constant qualifier name => qualifier.member name
  | .binary op left right => "(" ++ left.text ++ " " ++ op.symbol ++ " " ++ right.text ++ ")"
  | .negate operand => "-" ++ operand.text

/-- Sameness of expressions as they are written, up to sameness of the values
and class names in them. -/
def same : Expr → Expr → Bool
  | .literal a, .literal b => a == b
  | .constant p a, .constant q b => p == q && a == b
  | .binary op a b, .binary op' a' b' => op == op' && same a a' && same b b'
  | .negate a, .negate b => same a b
  | _, _ => false

instance : BEq Expr := ⟨same⟩

end Expr
end Lineage
