/-
Values that are computed when they are first asked for.
-/
import Lineage.Expr.Program

namespace Lineage

/-- A value, or the source from which it will be computed. -/
inductive Lazy where
  | pending (source : Initializer)
  | settled (value : Value)

namespace Lazy

def isSettled : Lazy → Bool
  | .settled _ => true
  | .pending _ => false

def value? : Lazy → Option Value
  | .settled value => some value
  | .pending _ => none

def source? : Lazy → Option Initializer
  | .pending source => some source
  | .settled _ => none

/-- Store the value of a pending source.  A value that is already there stays. -/
def settle (value : Value) : Lazy → Lazy
  | .pending _ => .settled value
  | .settled old => .settled old

/-- The value, computed now if it is pending, and what to keep: a settled value
is never computed again. -/
def force {σ : Type} (scope : Scope σ) : Lazy → Eval σ (Value × Lazy)
  | .settled value => pure (value, .settled value)
  | .pending source => do
    let value ← source.evaluate scope
    pure (value, .settled value)

@[simp] theorem settle_settled (v w : Value) : (settled v).settle w = settled v := rfl

@[simp] theorem settle_pending (source : Initializer) (v : Value) :
    (pending source).settle v = settled v := rfl

end Lazy
end Lineage
