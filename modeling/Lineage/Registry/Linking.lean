/-
Linking classes to what they inherit from.
-/
import Lineage.Registry.Evaluation

namespace Lineage
namespace Registry

/-! ## Structural checks -/

/-- Fail with a broken rule, if one is broken and rules are checked. -/
def reject (className target : String) (violation : Option Violation) : Eval Registry Unit := do
  let r ← .get
  match violation with
  | some v => if r.config.verify then .raise (.invalidInheritance className target v) else pure ()
  | none => pure ()

/-! ## Steps of linking -/

/-- Take over the ancestors and methods of the parent, which is linked first. -/
def inheritParent (resolve : ClassId → Eval Registry Unit) (decl : ClassDecl) (links : Links) :
    Eval Registry Links :=
  match decl.parent with
  | none => pure links
  | some name => do
    let parent ← lookup name
    resolve parent
    let base ← .ask (·.decl parent)
    reject decl.name.text base.name.text (decl.parentViolation? base)
    let inherited ← .ask (·.links parent)
    pure { links.addAncestors inherited.ancestors with
      parent := some parent
      methods := inherited.methods }

/-- Take over the ancestors of each interface, which is linked first. -/
def inheritInterfaces (resolve : ClassId → Eval Registry Unit) (decl : ClassDecl) :
    List QualifiedName → Links → Eval Registry Links
  | [], links => pure links
  | name :: rest, links => do
    let interface ← lookup name
    resolve interface
    let listed ← .ask (·.decl interface)
    reject decl.name.text listed.name.text listed.interfaceViolation?
    let inherited ← .ask (·.links interface)
    inheritInterfaces resolve decl rest
      { links.addAncestors inherited.ancestors with interfaces := links.interfaces ++ [interface] }

/-- Lay own methods over inherited ones of the same folded name. -/
def declareMethods (id : ClassId) (decl : ClassDecl) :
    List (String × MethodDecl) → Links → Eval Registry Links
  | [], links => pure links
  | (key, method) :: rest, links => do
    match links.methods.get? key with
    | some inherited =>
      reject decl.name.text inherited.decl.qualifiedName inherited.decl.overrideViolation?
    | none => pure ()
    declareMethods id decl rest
      { links with methods := links.methods.put key { owner := id, decl := method } }

/-- The links of a class: parent, interfaces and methods in this order, and the
first failure ends it.  At last every constant and default of the class itself
is evaluated. -/
def link (resolve : ClassId → Eval Registry Unit) (force : LazySite → Eval Registry Value)
    (id : ClassId) : Eval Registry Links := do
  let decl ← .ask (·.decl id)
  let links ← inheritParent resolve decl { ancestors := [id] }
  let links ← inheritInterfaces resolve decl decl.interfaces links
  let links ← declareMethods id decl decl.methods.entries links
  .forEach (fun member => do let _ ← force { owner := id, member := member }) decl.lazyMembers
  let r ← .get
  pure { links with constructor := links.method? r.config.constructorName }

/-! ## Resolution -/

/-- The error of a class that is being linked already: the classes from it to
the innermost one, and then it again. -/
def cycle? (r : Registry) (id : ClassId) : Option Error :=
  if r.resolving.contains id then
    let inner := (r.resolving.takeWhile (· != id)).reverse
    some (.inheritanceCycle (r.nameText id) ((id :: inner ++ [id]).map r.nameText))
  else none

def beginLinking (id : ClassId) (r : Registry) : Registry :=
  { r with resolving := id :: r.resolving }

/-- A class is resolved or failed once, and stays so. -/
def endLinking (id : ClassId) (result : Except Error Links) (r : Registry) : Registry :=
  let ended := { r with resolving := r.resolving.tail }
  match result with
  | .ok links => ended.setStanding id (.resolved links)
  | .error e => ended.setStanding id (.failed e)

/-- Resolve a class and everything it inherits from.  A class that failed fails
again with the same error, and one that is being linked is part of a cycle. -/
def resolveId : Nat → ClassId → Eval Registry Unit
  | 0, _ => .tooDeep
  | depth + 1, id => do
    let found ← .ask (·.registration id)
    match found.standing with
    | .resolved _ => pure ()
    | .failed e => .raise e
    | .unresolved => do
      let r ← .get
      match r.cycle? id with
      | some e => .raise e
      | none => do
        .modify (beginLinking id)
        let result ← (link (resolveId depth) (force depth) id).attempt
        .modify (endLinking id result)
        .ofExcept (result.map fun _ => ())

def resolve (depth : Nat) (name : QualifiedName) : Eval Registry ClassId := do
  let id ← lookup name
  resolveId depth id
  pure id

/-- Register a class and resolve it.  A class that cannot be resolved stays
registered. -/
def declare (depth : Nat) (decl : ClassDecl) : Eval Registry ClassId := do
  let id ← register decl
  resolveId depth id
  pure id

/-- Resolve every class from a position on, also those that are registered
meanwhile, and list the failures. -/
def resolveFrom (resolve : ClassId → Eval Registry Unit) :
    Nat → Nat → Eval Registry (List (ClassId × Error))
  | 0, _ => .tooDeep
  | depth + 1, position => do
    let r ← .get
    if position < r.size then
      let id := ClassId.ofIndex position
      let result ← (resolve id).attempt
      let rest ← resolveFrom resolve depth (position + 1)
      match result with
      | .ok _ => pure rest
      | .error e => pure ((id, e) :: rest)
    else pure []

/-- Resolve every class and list the failures by number. -/
def resolveAll (depth : Nat) : Eval Registry (List (ClassId × Error)) :=
  resolveFrom (resolveId depth) depth 0

end Registry
end Lineage
