/-
What a declaration introduces.
-/
namespace Lineage

/-- A class-like declaration is a class, an interface or a trait. -/
inductive Kind where
  | «class»
  | interface
  | trait
  deriving DecidableEq, Repr, Inhabited

namespace Kind

def keyword : Kind → String
  | .class => "class"
  | .interface => "interface"
  | .trait => "trait"

def number : Kind → Nat
  | .class => 0
  | .interface => 1
  | .trait => 2

def ofNumber? : Nat → Option Kind
  | 0 => some .class
  | 1 => some .interface
  | 2 => some .trait
  | _ => none

/-- What is said of a number that stands for no kind. -/
def unknownNumber (n : Nat) : String :=
  "No discriminant in enum `ClassKind` matches the value `" ++ toString n ++ "`"

def isClass (k : Kind) : Bool :=
  k == .class

def isInterface (k : Kind) : Bool :=
  k == .interface

def isTrait (k : Kind) : Bool :=
  k == .trait

def withArticle (k : Kind) : String :=
  match k with
  | .interface => "an " ++ k.keyword
  | _ => "a " ++ k.keyword

theorem ofNumber?_number (k : Kind) : ofNumber? k.number = some k := by
  cases k <;> rfl

end Kind
end Lineage
