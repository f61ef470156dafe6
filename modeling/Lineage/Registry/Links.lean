/-
What linking finds out about a class.
-/
import Lineage.ClassId
import Lineage.Decl.Class

namespace Lineage

/-- A method in a table together with the class that declares it.  Inheriting a
method copies both, so equal owners and keys mean the very same method. -/
structure SharedMethod where
  owner : ClassId
  decl : MethodDecl

/-- What linking finds out about a class. -/
structure Links where
  parent : Option ClassId := none
  /-- In the order of declaration. -/
  interfaces : List ClassId := []
  /-- The class itself and everything it inherits from, each once. -/
  ancestors : List ClassId := []
  /-- Own methods over inherited ones, under their folded names. -/
  methods : Catalog SharedMethod := .empty
  constructor : Option SharedMethod := none

namespace SharedMethod

def same (a b : SharedMethod) : Bool :=
  a.owner == b.owner && a.decl.key == b.decl.key

end SharedMethod

namespace Links

def hasAncestor (links : Links) (candidate : ClassId) : Bool :=
  links.ancestors.contains candidate

def sortedAncestors (links : Links) : List ClassId :=
  links.ancestors.mergeSort fun a b => a.index ≤ b.index

def method? (links : Links) (name : String) : Option SharedMethod :=
  links.methods.get? (Text.fold name)

/-- Add ancestors that are not there yet. -/
def addAncestors (others : List ClassId) (links : Links) : Links :=
  { links with
    ancestors := links.ancestors ++ others.filter fun id => !links.ancestors.contains id }

end Links

end Lineage
