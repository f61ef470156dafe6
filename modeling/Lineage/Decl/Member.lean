/-
Members of a class as they are declared, and where they stand in the source.
-/
import Lineage.Decl.Modifiers
import Lineage.Lazy

namespace Lineage

/-! ## Places in a source text -/

/-- A line and a column, both counted from one.  Line zero stands for a place
that is not known. -/
structure Location where
  line : UInt32 := 0
  column : UInt32 := 0
  deriving DecidableEq, Repr, Inhabited

namespace Location

def isUnknown (l : Location) : Bool :=
  l.line == 0

/-- Both numbers, also of a place that is not known. -/
def numbers (l : Location) : String :=
  toString l.line.toNat ++ ":" ++ toString l.column.toNat

def text (l : Location) : String :=
  if l.isUnknown then "<unknown>" else l.numbers

end Location

/-! ## Constants, properties and methods -/

/-- A class constant.  Constant names are case-sensitive. -/
structure ConstantDecl where
  name : String
  modifiers : Modifiers := .none
  value : Lazy

/-- A property, named without the leading dollar sign.  A property without a
default starts as nothing. -/
structure PropertyDecl where
  name : String
  modifiers : Modifiers := .none
  default : Option Lazy := none
  location : Location := {}

/-- A method.  Its body is a text that is stored and handed on; nothing here
looks into it. -/
structure MethodDecl where
  name : String
  modifiers : Modifiers := .none
  body : String := ""
  location : Location := {}
  /-- The class that declares the method, once it has been added to one. -/
  declaredBy : Option QualifiedName := none
  deriving Repr

namespace ConstantDecl

def settle (value : Value) (c : ConstantDecl) : ConstantDecl :=
  { c with value := c.value.settle value }

@[simp] theorem name_settle (v : Value) (c : ConstantDecl) : (c.settle v).name = c.name := rfl

end ConstantDecl

namespace PropertyDecl

def isStatic (p : PropertyDecl) : Bool :=
  p.modifiers.isStatic

def defaultValue? (p : PropertyDecl) : Option Value :=
  p.default.bind Lazy.value?

def settle (value : Value) (p : PropertyDecl) : PropertyDecl :=
  { p with default := p.default.map (Lazy.settle value) }

@[simp] theorem name_settle (v : Value) (p : PropertyDecl) : (p.settle v).name = p.name := rfl

end PropertyDecl

namespace MethodDecl

def key (m : MethodDecl) : String :=
  Text.fold m.name

def isStatic (m : MethodDecl) : Bool :=
  m.modifiers.isStatic

def isAbstract (m : MethodDecl) : Bool :=
  m.modifiers.isAbstract

def isFinal (m : MethodDecl) : Bool :=
  m.modifiers.isFinal

/-- The name with the class in front, for diagnostics. -/
def qualifiedName (m : MethodDecl) : String :=
  match m.declaredBy with
  | some name => name.text ++ "::" ++ m.name
  | none => m.name

end MethodDecl
end Lineage
