/-
What can go wrong when classes are declared, linked and evaluated, and how it
is worded.
-/
import Lineage.Decl.Kind
import Lineage.Operator
import Lineage.Value.Basic

namespace Lineage

/-- The structural rules that an inheritance declaration can break.  A rule of
the embedding program's own may be worded like one of the others.  The two are
different here and have the same text, so that a caller who reads texts takes
them for one error. -/
inductive Violation where
  /-- Only a class has a parent; interfaces and traits list interfaces. -/
  | parentOfKind (kind : Kind)
  /-- Only a class can be a parent. -/
  | parentIs (parent : String) (kind : Kind)
  | finalParent
  | notInterface (name : String)
  | finalMethod
  /-- A rule of the embedding program's own. -/
  | stated (reason : String)
  deriving DecidableEq, Repr

/-- Why a constant expression has no value.  As with broken rules, a `stated`
reason that is worded like a built-in one is different from it and has the same
text. -/
inductive EvaluationFailure where
  | divisionByZero
  | moduloByZero
  | unsupported (left : ValueType) (op : Operator) (right : ValueType)
  /-- A reason of the embedding program's own. -/
  | stated (reason : String)
  deriving DecidableEq, Repr

/-- Errors name classes by the text they were written with. -/
inductive Error where
  | duplicateClass (name : String)
  | classNotFound (name : String)
  /-- `chain` leads from `name` along declared references back to `name`. -/
  | inheritanceCycle (name : String) (chain : List String)
  | circularConstant (className name : String)
  | notResolved (name : String)
  | undefinedConstant (className name : String)
  | noParentScope (name : String)
  | invalidInheritance (className target : String) (violation : Violation)
  | evaluation (failure : EvaluationFailure)
  deriving DecidableEq, Repr

def Violation.text : Violation → String
  | .parentOfKind kind => kind.keyword ++ "s extend through their interface list"
  | .parentIs parent kind => parent ++ " is " ++ kind.withArticle
  | .finalParent => "parent class is final"
  | .notInterface name => name ++ " is not an interface"
  | .finalMethod => "cannot override final method"
  | .stated reason => reason

def EvaluationFailure.text : EvaluationFailure → String
  | .divisionByZero => "division by zero"
  | .moduloByZero => "modulo by zero"
  | .unsupported left op right =>
    "unsupported operand types: " ++ left.name ++ " " ++ op.symbol ++ " " ++ right.name
  | .stated reason => reason

namespace Error

def message : Error → String
  | .duplicateClass name =>
    "cannot declare class " ++ name ++ ", because the name is already in use"
  | .classNotFound name => "class \"" ++ name ++ "\" not found"
  | .inheritanceCycle name chain =>
    "circular inheritance for '" ++ name ++ "' via " ++ String.intercalate " -> " chain
  | .circularConstant className name =>
    "cannot declare self-referencing constant " ++ className ++ "::" ++ name
  | .notResolved name => "class " ++ name ++ " has not been resolved"
  | .undefinedConstant className name => "undefined constant " ++ className ++ "::" ++ name
  | .noParentScope name =>
    "cannot use \"parent\" when current class scope has no parent (" ++ name ++ ")"
  | .invalidInheritance className target violation =>
    "class " ++ className ++ " cannot inherit from " ++ target ++ ": " ++ violation.text
  | .evaluation failure => "constant expression error: " ++ failure.text

def isInheritanceCycle : Error → Bool
  | .inheritanceCycle _ _ => true
  | _ => false

def isCircularConstant : Error → Bool
  | .circularConstant _ _ => true
  | _ => false

def isNotFound : Error → Bool
  | .classNotFound _ => true
  | _ => false

end Error
end Lineage
