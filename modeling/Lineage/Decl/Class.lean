/-
Declarations of classes, interfaces and traits.
-/
import Lineage.Catalog
import Lineage.Decl.Member
import Lineage.Error

namespace Lineage

/-- A class-like declaration.  Parent and interfaces are names, which may not be
bound to anything yet.  Constants are filed under their names and methods under
their folded names; each method carries the name of this class. -/
structure ClassDecl where
  name : QualifiedName
  kind : Kind := .class
  modifiers : Modifiers := .none
  location : Location := {}
  parent : Option QualifiedName := none
  interfaces : List QualifiedName := []
  constants : Catalog ConstantDecl := .empty
  properties : List PropertyDecl := []
  methods : Catalog MethodDecl := .empty
  constants_filed : ∀ entry ∈ constants.entries, entry.2.name = entry.1 := by
    simp [Catalog.empty]
  methods_filed : ∀ entry ∈ methods.entries,
      entry.2.key = entry.1 ∧ entry.2.declaredBy = some name := by
    simp [Catalog.empty]

namespace ClassDecl

/-! ## Building a declaration -/

def withParent (parent : QualifiedName) (d : ClassDecl) : ClassDecl :=
  { d with parent := some parent }

/-- List one more interface, also one that is listed already. -/
def addInterface (name : QualifiedName) (d : ClassDecl) : ClassDecl :=
  { d with interfaces := d.interfaces ++ [name] }

/-- Declare a constant.  A constant of the same name is replaced in its place. -/
def addConstant (c : ConstantDecl) (d : ClassDecl) : ClassDecl :=
  { d with
    constants := d.constants.put c.name c
    constants_filed := by
      intro entry h
      rcases Catalog.mem_entries_put h with rfl | h
      · rfl
      · exact d.constants_filed entry h }

/-- Declare a property, also one whose name is declared already. -/
def addProperty (p : PropertyDecl) (d : ClassDecl) : ClassDecl :=
  { d with properties := d.properties ++ [p] }

/-- Declare a method of this class.  A method of the same folded name is
replaced in its place. -/
def addMethod (m : MethodDecl) (d : ClassDecl) : ClassDecl :=
  { d with
    methods := d.methods.put m.key { m with declaredBy := some d.name }
    methods_filed := by
      intro entry h
      rcases Catalog.mem_entries_put h with rfl | h
      · exact ⟨rfl, rfl⟩
      · exact d.methods_filed entry h }

def addModifiers (m : Modifiers) (d : ClassDecl) : ClassDecl :=
  { d with modifiers := d.modifiers.union m }

/-! ## Questions -/

/-- Interfaces are abstract without saying so. -/
def isAbstract (d : ClassDecl) : Bool :=
  d.modifiers.isAbstract || d.kind.isInterface

def isFinal (d : ClassDecl) : Bool :=
  d.modifiers.isFinal

def method? (d : ClassDecl) (name : String) : Option MethodDecl :=
  d.methods.get? (Text.fold name)

def property? (d : ClassDecl) (name : String) : Option PropertyDecl :=
  d.properties.find? fun p => p.name == name

def constant? (d : ClassDecl) (name : String) : Option ConstantDecl :=
  d.constants.get? name

def staticProperties (d : ClassDecl) : List PropertyDecl :=
  d.properties.filter PropertyDecl.isStatic

/-- The names a class inherits from: its parent, then its interfaces. -/
def references (d : ClassDecl) : List QualifiedName :=
  d.parent.toList ++ d.interfaces

/-- The opening of the declaration.  An interface extends the interfaces it
lists, everything else implements them. -/
def header (d : ClassDecl) : String :=
  let parent := match d.parent with
    | some name => " extends " ++ name.text
    | none => ""
  let interfaces :=
    if d.interfaces.isEmpty then ""
    else (if d.kind.isInterface then " extends " else " implements ")
      ++ String.intercalate ", " (d.interfaces.map QualifiedName.text)
  d.modifiers.text ++ d.kind.keyword ++ " " ++ d.name.text ++ parent ++ interfaces

/-! ## Structural rules of inheritance -/

/-- The rule that is broken if `d` has `base` for its parent: only classes have
parents, only classes are parents, and a final class is no parent. -/
def parentViolation? (d base : ClassDecl) : Option Violation :=
  if !d.kind.isClass then some (.parentOfKind d.kind)
  else if !base.kind.isClass then some (.parentIs base.name.text base.kind)
  else if base.isFinal then some .finalParent
  else none

/-- The rule that is broken if the declaration stands in a list of interfaces. -/
def interfaceViolation? (listed : ClassDecl) : Option Violation :=
  if listed.kind.isInterface then none else some (.notInterface listed.name.text)

/-! ## Memoized values -/

def settleConstant (name : String) (value : Value) (d : ClassDecl) : ClassDecl :=
  { d with
    constants := d.constants.modify name (ConstantDecl.settle value)
    constants_filed := by
      intro entry h
      rcases Catalog.mem_entries_modify h with h | ⟨c, hc, rfl⟩
      · exact d.constants_filed entry h
      · exact d.constants_filed (name, c) hc }

def settleDefault (position : Nat) (value : Value) (d : ClassDecl) : ClassDecl :=
  { d with properties := d.properties.modify position (PropertyDecl.settle value) }

/-! ## What storing a value leaves as it is -/

@[simp] theorem name_settleConstant (n : String) (v : Value) (d : ClassDecl) :
    (d.settleConstant n v).name = d.name := rfl

@[simp] theorem references_settleConstant (n : String) (v : Value) (d : ClassDecl) :
    (d.settleConstant n v).references = d.references := rfl

@[simp] theorem names_settleConstant (n : String) (v : Value) (d : ClassDecl) :
    (d.settleConstant n v).constants.names = d.constants.names :=
  d.constants.names_modify n _

@[simp] theorem name_settleDefault (i : Nat) (v : Value) (d : ClassDecl) :
    (d.settleDefault i v).name = d.name := rfl

@[simp] theorem references_settleDefault (i : Nat) (v : Value) (d : ClassDecl) :
    (d.settleDefault i v).references = d.references := rfl

end ClassDecl

/-- The rule that is broken if a class declares the method again. -/
def MethodDecl.overrideViolation? (inherited : MethodDecl) : Option Violation :=
  if inherited.isFinal then some .finalMethod else none

end Lineage
