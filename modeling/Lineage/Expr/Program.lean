/-
Evaluation of expressions, and of computations that an embedding program
supplies in place of an expression.
-/
import Lineage.Expr.Basic
import Lineage.Outcome
import Lineage.Value.Arithmetic

namespace Lineage

/-- What an evaluation may ask of its surroundings: the value of a class
constant, and that a remark of the evaluated program be kept. -/
structure Scope (σ : Type) where
  fetch : Qualifier → String → Eval σ Value
  note : String → σ → σ

/-- The value of an expression.  Of a binary operation the left operand is
evaluated first, and a failure of one operand is the failure of the whole. -/
def Expr.evaluate {σ : Type} (scope : Scope σ) : Expr → Eval σ Value
  | .literal value => pure value
  | .constant qualifier name => scope.fetch qualifier name
  | .binary op left right => do
    let a ← left.evaluate scope
    let b ← right.evaluate scope
    .ofExcept (op.apply a b)
  | .negate operand => do
    let a ← operand.evaluate scope
    .ofExcept a.negate

/-- A finite computation of a value.  It may fetch class constants, go on in
whatever way the answer asks for, also if the answer is an error, and leave
notes on its way. -/
inductive Program where
  | done (result : Except Error Value)
  | fetch (qualifier : Qualifier) (name : String) (next : Except Error Value → Program)
  | note (label : String) (next : Program)

namespace Program

/-- Run a program, and go on with its result. -/
def andThen (next : Except Error Value → Program) : Program → Program
  | .done result => next result
  | .fetch qualifier name rest => .fetch qualifier name fun answer => andThen next (rest answer)
  | .note label rest => .note label (andThen next rest)

def onValue (p : Program) (next : Value → Program) : Program :=
  p.andThen fun
    | .ok value => next value
    | .error e => .done (.error e)

/-- Run the second program if the first one fails, and forget the failure. -/
def orElse (p q : Program) : Program :=
  p.andThen fun
    | .ok value => .done (.ok value)
    | .error _ => q

def ofExpr : Expr → Program
  | .literal value => .done (.ok value)
  | .constant qualifier name => .fetch qualifier name .done
  | .binary op left right =>
    (ofExpr left).onValue fun a => (ofExpr right).onValue fun b => .done (op.apply a b)
  | .negate operand => (ofExpr operand).onValue fun a => .done a.negate

def evaluate {σ : Type} (scope : Scope σ) : Program → Eval σ Value
  | .done result => .ofExcept result
  | .fetch qualifier name next => do
    let answer ← (scope.fetch qualifier name).attempt
    (next answer).evaluate scope
  | .note label next => do
    .modify (scope.note label)
    next.evaluate scope

/-! ## What each way of building a program evaluates to -/

/-- A program that goes on with another evaluates as the one after the other,
where the second learns of an error of the first. -/
theorem evaluate_andThen {σ : Type} (scope : Scope σ) (next : Except Error Value → Program)
    (p : Program) (s : σ) :
    (p.andThen next).evaluate scope s =
      (do
        let result ← (p.evaluate scope).attempt
        (next result).evaluate scope) s := by
  induction p generalizing s with
  | done result => cases result <;> rfl
  | fetch qualifier name rest ih =>
    simp only [andThen, evaluate, Eval.bind_apply, Eval.attempt]
    cases scope.fetch qualifier name s with
    | value a t => simpa [Eval.bind_apply, Eval.attempt] using ih (.ok a) t
    | failure fault t =>
      cases fault with
      | raised e => simpa [Eval.bind_apply, Eval.attempt] using ih (.error e) t
      | unissued id => rfl
    | tooDeep => rfl
  | note label rest ih =>
    simpa [andThen, evaluate, Eval.bind_apply, Eval.attempt] using ih (scope.note label s)

theorem evaluate_ofExpr {σ : Type} (scope : Scope σ) (e : Expr) (s : σ) :
    (ofExpr e).evaluate scope s = e.evaluate scope s := by
  induction e generalizing s with
  | literal value => rfl
  | constant qualifier name =>
    simp only [ofExpr, evaluate, Expr.evaluate, Eval.bind_apply, Eval.attempt]
    cases scope.fetch qualifier name s with
    | value a t => rfl
    | failure fault t => cases fault <;> rfl
    | tooDeep => rfl
  | binary op left right ihl ihr =>
    simp only [ofExpr, onValue, evaluate_andThen, Expr.evaluate, Eval.bind_apply, Eval.attempt, ihl]
    cases left.evaluate scope s with
    | value a t =>
      simp only [evaluate_andThen, Eval.bind_apply, Eval.attempt, ihr]
      cases right.evaluate scope t with
      | value b u => rfl
      | failure fault u => cases fault <;> rfl
      | tooDeep => rfl
    | failure fault t => cases fault <;> rfl
    | tooDeep => rfl
  | negate operand ih =>
    simp only [ofExpr, onValue, evaluate_andThen, Expr.evaluate, Eval.bind_apply, Eval.attempt, ih]
    cases operand.evaluate scope s with
    | value a t => rfl
    | failure fault t => cases fault <;> rfl
    | tooDeep => rfl

end Program

/-- The source of a value that is not computed yet. -/
inductive Initializer where
  | expr (e : Expr)
  | program (p : Program)

namespace Initializer

def evaluate {σ : Type} (scope : Scope σ) : Initializer → Eval σ Value
  | .expr e => e.evaluate scope
  | .program p => p.evaluate scope

def toProgram : Initializer → Program
  | .expr e => .ofExpr e
  | .program p => p

/-- Leave a note before each evaluation. -/
def noted (label : String) (source : Initializer) : Initializer :=
  .program (.note label source.toProgram)

/-- Evaluate the second source if the first one fails. -/
def orElse (source fallback : Initializer) : Initializer :=
  .program (source.toProgram.orElse fallback.toProgram)

end Initializer
end Lineage
