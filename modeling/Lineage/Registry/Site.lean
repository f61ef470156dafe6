/-
Where in a registry a value may be pending.
-/
import Lineage.ClassId
import Lineage.Decl.Class

namespace Lineage

/-- A value of a declaration that may be pending. -/
inductive LazyMember where
  | constant (name : String)
  | default (position : Nat)
  deriving DecidableEq, Repr

/-- A value of a registered class that may be pending. -/
structure LazySite where
  owner : ClassId
  member : LazyMember
  deriving DecidableEq, Repr

namespace LazyMember

def label (d : ClassDecl) : LazyMember → String
  | .constant name => name
  | .default position =>
    match d.properties[position]? with
    | some p => "$" ++ p.name
    | none => ""

end LazyMember

namespace ClassDecl

/-- The value of a member; a property without a default has none. -/
def lazy? (d : ClassDecl) : LazyMember → Option Lazy
  | .constant name => (d.constant? name).map ConstantDecl.value
  | .default position => d.properties[position]?.bind PropertyDecl.default

def settle (member : LazyMember) (value : Value) (d : ClassDecl) : ClassDecl :=
  match member with
  | .constant name => d.settleConstant name value
  | .default position => d.settleDefault position value

/-- Every member that may have to be evaluated: constants, then defaults, each
in the order of declaration. -/
def lazyMembers (d : ClassDecl) : List LazyMember :=
  d.constants.names.map .constant ++ (List.range d.properties.length).map .default

end ClassDecl

end Lineage
