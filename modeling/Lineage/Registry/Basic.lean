/-
The registry of classes: its state, and how the state is read and changed.
-/
import Lineage.Autoload
import Lineage.Registry.Links
import Lineage.Registry.Site
import Lineage.StaticTable

namespace Lineage

/-! ## Parts of the state -/

/-- How a registry behaves. -/
structure Config where
  /-- The name of the method that is a class's constructor. -/
  constructorName : String := "__construct"
  /-- Whether linking checks the structural rules of inheritance. -/
  verify : Bool := true
  deriving DecidableEq, Repr

/-- How far a class has come.  It starts unresolved and is then resolved or
failed for good. -/
inductive Standing where
  | unresolved
  | resolved (links : Links)
  | failed (error : Error)

/-- What happens in a registry, for those who watch it. -/
inductive Event where
  /-- The hook was asked for a name. -/
  | requested (name : QualifiedName)
  /-- A program left a note. -/
  | noted (label : String)
  | began (site : LazySite)
  | ended (site : LazySite) (result : Except Error Value)

/-- A registered class.  Its static values are created when they are first
asked for. -/
structure Registration where
  decl : ClassDecl
  standing : Standing := .unresolved
  statics : Option StaticTable := none

/-- The registered classes in the order of registration, and under which number
each folded name is bound.  Beside them stand the classes being linked and the
values being evaluated, innermost first, and what has happened, latest first. -/
structure Registry where
  config : Config := {}
  registrations : List Registration := []
  index : Catalog ClassId := .empty
  autoloader : Option Autoloader := none
  resolving : List ClassId := []
  evaluating : List LazySite := []
  events : List Event := []

namespace Registration

def isResolved (r : Registration) : Bool :=
  match r.standing with
  | .resolved _ => true
  | _ => false

def error? (r : Registration) : Option Error :=
  match r.standing with
  | .failed e => some e
  | _ => none

/-- The links of a class, or why it has none. -/
def links (r : Registration) : Except Error Links :=
  match r.standing with
  | .resolved links => .ok links
  | .failed e => .error e
  | .unresolved => .error (.notResolved r.decl.name.text)

end Registration

namespace Registry

def new (config : Config) : Registry :=
  { config := config }

/-! ## Reading -/

def size (r : Registry) : Nat :=
  r.registrations.length

def registration? (r : Registry) (id : ClassId) : Option Registration :=
  r.registrations[id.index]?

/-- The class with a number that the registry issued. -/
def registration (r : Registry) (id : ClassId) : Except Fault Registration :=
  match r.registration? id with
  | some found => .ok found
  | none => .error (.unissued id)

def decl (r : Registry) (id : ClassId) : Except Fault ClassDecl :=
  (r.registration id).map Registration.decl

def nameText (r : Registry) (id : ClassId) : String :=
  match r.registration? id with
  | some found => found.decl.name.text
  | none => ""

/-- The links of a class.  A class that was never resolved has none, and one
that failed answers with its error. -/
def links (r : Registry) (id : ClassId) : Except Fault Links :=
  match r.registration id with
  | .ok found =>
    match found.links with
    | .ok links => .ok links
    | .error e => .error (.raised e)
  | .error fault => .error fault

/-! ## Changing -/

/-- Change the class with a number; a number that was not issued changes
nothing. -/
def updateAt (id : ClassId) (f : Registration → Registration) (r : Registry) : Registry :=
  { r with registrations := r.registrations.modify id.index f }

def setStanding (id : ClassId) (standing : Standing) : Registry → Registry :=
  updateAt id fun found => { found with standing := standing }

def settle (site : LazySite) (value : Value) : Registry → Registry :=
  updateAt site.owner fun found => { found with decl := found.decl.settle site.member value }

def record (event : Event) (r : Registry) : Registry :=
  { r with events := event :: r.events }

def note (label : String) : Registry → Registry :=
  record (.noted label)

/-! ## What each change does to the classes -/

@[simp] theorem size_updateAt (id : ClassId) (f : Registration → Registration) (r : Registry) :
    (r.updateAt id f).size = r.size := by
  simp [updateAt, size]

theorem registration?_updateAt (id other : ClassId) (f : Registration → Registration)
    (r : Registry) :
    (r.updateAt id f).registration? other =
      if other = id then (r.registration? other).map f else r.registration? other := by
  simp only [updateAt, registration?, List.getElem?_modify]
  by_cases h : other = id
  · subst h
    simp
  · have hi : id.index ≠ other.index := fun heq => h (ClassId.index_inj.mp heq).symm
    simp [h, hi]

@[simp] theorem index_updateAt (id : ClassId) (f : Registration → Registration) (r : Registry) :
    (r.updateAt id f).index = r.index := rfl

theorem registration_eq_ok_iff {r : Registry} {id : ClassId} {found : Registration} :
    r.registration id = .ok found ↔ r.registration? id = some found := by
  unfold registration
  split <;> simp_all

theorem registration?_isSome_iff {r : Registry} {id : ClassId} :
    (r.registration? id).isSome = true ↔ id.index < r.size := by
  simp [registration?, size]

end Registry
end Lineage
