/-
Values of static properties.
-/
import Lineage.Registry.Basic

namespace Lineage

/-- The first values of the static properties of a class: the default where one
is computed, and nothing otherwise.  Of two properties of one name the later one
gives the value. -/
def StaticTable.ofDecl (d : ClassDecl) : StaticTable :=
  .ofList (d.staticProperties.map fun p => (p.name, p.defaultValue?.getD .null))

namespace Registry

def setStatics (id : ClassId) (table : StaticTable) : Registry → Registry :=
  updateAt id fun found => { found with statics := some table }

/-- The static values of a resolved class, created when they are first asked
for. -/
def statics (id : ClassId) : Eval Registry StaticTable := do
  let _ ← .ask (·.links id)
  let found ← .ask (·.registration id)
  match found.statics with
  | some table => pure table
  | none =>
    let table := StaticTable.ofDecl found.decl
    .modify (setStatics id table)
    pure table

/-- Give a cell of a class a value, also one that no property declares, and
return the value before. -/
def setStatic (id : ClassId) (name : String) (value : Value) : Eval Registry (Option Value) := do
  let table ← statics id
  .modify (setStatics id (table.put name value))
  pure (table.get? name)

/-- Give a class another table for its static values, whatever is in it, and
return the table before. -/
def replaceStatics (id : ClassId) (table : StaticTable) : Eval Registry StaticTable := do
  let before ← statics id
  .modify (setStatics id table)
  pure before

def declaresStatic (d : ClassDecl) (name : String) : Bool :=
  (d.property? name).any PropertyDecl.isStatic

/-- The class that a static property is taken from: the first one up the parents
that declares it.  Classes that do not declare it again share its cell. -/
def staticOwner (name : String) : Nat → ClassId → Eval Registry (Option ClassId)
  | 0, _ => .tooDeep
  | depth + 1, id => do
    let links ← .ask (·.links id)
    let decl ← .ask (·.decl id)
    if declaresStatic decl name then pure (some id)
    else
      match links.parent with
      | some parent => staticOwner name depth parent
      | none => pure none

/-- The value of a static property as seen from a class. -/
def staticProperty (depth : Nat) (id : ClassId) (name : String) : Eval Registry (Option Value) := do
  match ← staticOwner name depth id with
  | some owner => do
    let table ← statics owner
    pure (table.get? name)
  | none => pure none

/-- Give a static property as seen from a class a value, and return the value
before.  A property that no class declares stays undeclared. -/
def setStaticProperty (depth : Nat) (id : ClassId) (name : String) (value : Value) :
    Eval Registry (Option Value) := do
  match ← staticOwner name depth id with
  | some owner => do
    let table ← statics owner
    .modify (setStatics owner (table.replace name value))
    pure (table.get? name)
  | none => pure none

end Registry
end Lineage
