/-
Binding names to classes.
-/
import Lineage.Registry.Basic

namespace Lineage
namespace Registry

/-- The number a name is bound to.  No hook is asked. -/
def idOf? (r : Registry) (name : QualifiedName) : Option ClassId :=
  r.index.get? name.key

def contains (r : Registry) (name : QualifiedName) : Bool :=
  r.index.contains name.key

/-- Bind the name of a declaration to the next number. -/
def append (decl : ClassDecl) (r : Registry) : Registry :=
  { r with
    registrations := r.registrations ++ [{ decl := decl }]
    index := r.index.put decl.name.key (.ofIndex r.size) }

/-- Register a class.  A name that is bound stays bound to what it was. -/
def register (decl : ClassDecl) : Eval Registry ClassId := fun r =>
  if r.contains decl.name then .failure (.raised (.duplicateClass decl.name.text)) r
  else .value (.ofIndex r.size) (r.append decl)

def registerIfFree (decl : ClassDecl) (r : Registry) : Registry :=
  if r.contains decl.name then r else r.append decl

/-- Ask the hook for a name, and register what it supplies, which may be a class
of another name. -/
def autoload (name : QualifiedName) (r : Registry) : Registry :=
  match r.autoloader with
  | none => r
  | some loader =>
    let (supplied, loader) := loader.ask name
    let asked := { r with autoloader := some loader }.record (.requested name)
    match supplied with
    | some decl => asked.registerIfFree decl
    | none => asked

/-- The class bound to a name.  The hook is asked once if there is none, and if
there still is none the lookup fails. -/
def lookup (name : QualifiedName) : Eval Registry ClassId := fun r =>
  match r.idOf? name with
  | some id => .value id r
  | none =>
    let loaded := r.autoload name
    match loaded.idOf? name with
    | some id => .value id loaded
    | none => .failure (.raised (.classNotFound name.text)) loaded

def setAutoloader (loader : Autoloader) (r : Registry) : Registry :=
  { r with autoloader := some loader }

def clearAutoloader (r : Registry) : Registry :=
  { r with autoloader := none }

/-! ## What registration does to names and classes -/

@[simp] theorem size_append (decl : ClassDecl) (r : Registry) :
    (r.append decl).size = r.size + 1 := by
  simp [append, size]

theorem idOf?_append (decl : ClassDecl) (r : Registry) (name : QualifiedName) :
    (r.append decl).idOf? name =
      if name.key = decl.name.key then some (.ofIndex r.size) else r.idOf? name := by
  simp [append, idOf?, Catalog.get?_put]

theorem registration?_append {decl : ClassDecl} {r : Registry} {id : ClassId}
    (h : id.index < r.size) : (r.append decl).registration? id = r.registration? id := by
  simp only [append, registration?, size] at *
  exact List.getElem?_append_left h

theorem contains_iff {r : Registry} {name : QualifiedName} :
    r.contains name = true ↔ (r.idOf? name).isSome = true := by
  simp [contains, idOf?, Catalog.contains_iff, Catalog.get?_isSome_iff]

theorem lookup_of_bound {r : Registry} {name : QualifiedName} {id : ClassId}
    (h : r.idOf? name = some id) : lookup name r = .value id r := by
  simp [lookup, h]

end Registry
end Lineage
