/-
Questions about registered classes, and a registry as a text.  None of them
resolves or loads anything.
-/
import Lineage.Registry.Basic
import Lineage.Text.Quoted

namespace Lineage
namespace Registry

def isEmpty (r : Registry) : Bool :=
  r.registrations.isEmpty

def isResolved (r : Registry) (id : ClassId) : Except Fault Bool :=
  (r.registration id).map Registration.isResolved

def resolutionError (r : Registry) (id : ClassId) : Except Fault (Option Error) :=
  (r.registration id).map Registration.error?

/-- The declaration of a class, with the values that are memoized in it. -/
def decl? (r : Registry) (id : ClassId) : Option ClassDecl :=
  (r.registration? id).map Registration.decl

def classes (r : Registry) : List (ClassId × ClassDecl) :=
  r.registrations.mapIdx fun position found => (ClassId.ofIndex position, found.decl)

/-- Whether a resolved class is the candidate or inherits from it. -/
def isInstanceOf (r : Registry) (id candidate : ClassId) : Except Fault Bool :=
  (r.links id).map fun links => links.hasAncestor candidate

def findMethod (r : Registry) (id : ClassId) (name : String) : Except Fault (Option SharedMethod) :=
  (r.links id).map fun links => links.method? name

def constructor (r : Registry) (id : ClassId) : Except Fault (Option SharedMethod) :=
  (r.links id).map Links.constructor

/-- Whether two finds are the same method.  Both numbers must have been issued
before either class is asked; then the first find that fails decides.  A method
that is not there is not compared. -/
def sameMethod (r : Registry) (a : ClassId) (m : String) (b : ClassId) (n : String) :
    Except Fault (Option Bool) := do
  let _ ← r.registration a
  let _ ← r.registration b
  let first ← r.findMethod a m
  let second ← r.findMethod b n
  pure <|
    match first, second with
    | some x, some y => some (x.same y)
    | _, _ => none

/-! ## The text of a registry, for diagnostics -/

def recordText (name : String) (fields : List (String × String)) : String :=
  name ++ " \x7b "
    ++ String.intercalate ", " (fields.map fun (field, value) => field ++ ": " ++ value) ++ " \x7d"

def flagText (b : Bool) : String :=
  if b then "true" else "false"

end Registry

def Config.text (c : Config) : String :=
  Registry.recordText "RegistryConfig"
    [("constructor_name", Text.quoted c.constructorName),
      ("verify_inheritance", Registry.flagText c.verify)]

/-- How many classes there are and how many are resolved, whether there is a
hook, and the configuration. -/
def Registry.text (r : Registry) : String :=
  recordText "ClassRegistry"
    [("class_count", toString r.size),
      ("resolved_count", toString (r.registrations.countP Registration.isResolved)),
      ("has_autoloader", flagText r.autoloader.isSome),
      ("config", r.config.text)]

end Lineage
