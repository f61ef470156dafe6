/-
Evaluation of the constants and defaults of registered classes.

Nesting is bounded by a number, `depth`.  An evaluation that needs more ends as
`tooDeep`; otherwise the number does not show in the result.
-/
import Lineage.Registry.Lookup

namespace Lineage
namespace Registry

/-! ## Finding the class that declares a constant -/

/-- Search the classes that a list of names is bound to, in order, up to the
first find. -/
def searchReferences
    (search : ClassId → List ClassId → Eval Registry (Option ClassId × List ClassId)) :
    List QualifiedName → List ClassId → Eval Registry (Option ClassId × List ClassId)
  | [], visited => pure (none, visited)
  | name :: rest, visited => do
    let id ← lookup name
    let (found, visited) ← search id visited
    match found with
    | some owner => pure (some owner, visited)
    | none => searchReferences search rest visited

/-- Search a class, then its parent and everything above, then its interfaces.
Only declared names are followed, so it does not matter what is resolved, and
no class is searched twice. -/
def searchConstant (name : String) :
    Nat → ClassId → List ClassId → Eval Registry (Option ClassId × List ClassId)
  | 0, _, _ => .tooDeep
  | depth + 1, id, visited =>
    if visited.contains id then pure (none, visited)
    else do
      let decl ← .ask (·.decl id)
      if decl.constants.contains name then pure (some id, id :: visited)
      else searchReferences (searchConstant name depth) decl.references (id :: visited)

/-! ## Values in progress -/

def beginEvaluation (site : LazySite) (r : Registry) : Registry :=
  { r with evaluating := site :: r.evaluating }.record (.began site)

/-- A value is stored; after a failure the site stays pending. -/
def endEvaluation (site : LazySite) (result : Except Error Value) (r : Registry) : Registry :=
  let ended := { r with evaluating := r.evaluating.erase site }.record (.ended site result)
  match result with
  | .ok value => ended.settle site value
  | .error _ => ended

/-- Evaluate the source of a site.  A site that is in progress already depends
on itself. -/
def evaluateSite (scope : Scope Registry) (site : LazySite) (owner : ClassDecl)
    (source : Initializer) : Eval Registry Value := do
  let r ← .get
  if r.evaluating.contains site then
    .raise (.circularConstant owner.name.text (site.member.label owner))
  else
    .modify (beginEvaluation site)
    let result ← (source.evaluate scope).attempt
    .modify (endEvaluation site result)
    .ofExcept result

/-! ## Fetching constants -/

/-- The class that a qualifier means in the scope of class `current`. -/
def target (current : ClassId) : Qualifier → Eval Registry ClassId
  | .self => pure current
  | .static => pure current
  | .parent => do
    let decl ← .ask (·.decl current)
    match decl.parent with
    | some name => lookup name
    | none => .raise (.noParentScope decl.name.text)
  | .named name => lookup name

/-- Fetch a constant in the scope of a class: find the class that declares it,
and take its value there. -/
def fetchWith (force : LazySite → Eval Registry Value) (depth : Nat) (current : ClassId)
    (qualifier : Qualifier) (name : String) : Eval Registry Value := do
  let id ← target current qualifier
  let (found, _) ← searchConstant name depth id []
  match found with
  | some owner => force { owner := owner, member := .constant name }
  | none => do
    let decl ← .ask (·.decl id)
    .raise (.undefinedConstant decl.name.text name)

/-- The value at a site, evaluated now if it is pending.  A property without a
default has nothing for its value, and no value of a failed class is read.
Constants in the source are fetched in the scope of the declaring class. -/
def force : Nat → LazySite → Eval Registry Value
  | 0, _ => .tooDeep
  | depth + 1, site => do
    let owner ← .ask (·.registration site.owner)
    match owner.standing with
    | .failed e => .raise e
    | _ =>
      match owner.decl.lazy? site.member with
      | none => pure .null
      | some (.settled value) => pure value
      | some (.pending source) =>
        let scope : Scope Registry :=
          { fetch := fetchWith (force depth) depth site.owner, note := note }
        evaluateSite scope site owner.decl source

def fetch (depth : Nat) (current : ClassId) : Qualifier → String → Eval Registry Value :=
  fetchWith (force depth) depth current

/-- The value of a constant as seen from a class.  A class that failed answers
with its error; an unresolved one is searched without being resolved. -/
def constant (depth : Nat) (id : ClassId) (name : String) : Eval Registry Value := do
  let found ← .ask (·.registration id)
  match found.standing with
  | .failed e => .raise e
  | _ => fetch depth id .self name

end Registry
end Lineage
