/-
The operations on a registry, and what they answer.
-/
import Lineage.Registry.Linking
import Lineage.Registry.Query
import Lineage.Registry.Statics

namespace Lineage

/-- Everything that can be done with a registry from outside.  A cell of a static
table is written through the class that keeps it, `setStatic`, or through one
that shares it, `setStaticProperty`; the whole table of a class may be exchanged
for any other, `replaceStatics`.  The static values are the only part of a
registered class that is changed from outside. -/
inductive Operation where
  | register (decl : ClassDecl)
  | declare (decl : ClassDecl)
  | setAutoloader (loader : Autoloader)
  | clearAutoloader
  | find (name : QualifiedName)
  | contains (name : QualifiedName)
  | lookup (name : QualifiedName)
  | resolve (name : QualifiedName)
  | resolveId (id : ClassId)
  | resolveAll
  | isResolved (id : ClassId)
  | resolutionError (id : ClassId)
  | links (id : ClassId)
  | decl (id : ClassId)
  | classes
  | size
  | config
  | text
  | isInstanceOf (id candidate : ClassId)
  | findMethod (id : ClassId) (name : String)
  | constructor (id : ClassId)
  | sameMethod (first : ClassId) (firstName : String) (second : ClassId) (secondName : String)
  | constant (id : ClassId) (name : String)
  | statics (id : ClassId)
  | setStatic (id : ClassId) (name : String) (value : Value)
  | replaceStatics (id : ClassId) (table : StaticTable)
  | staticOwner (id : ClassId) (name : String)
  | staticProperty (id : ClassId) (name : String)
  | setStaticProperty (id : ClassId) (name : String) (value : Value)

/-- The result of an operation that did not fail. -/
inductive Answer where
  | nothing
  | id (id : ClassId)
  | id? (id : Option ClassId)
  | flag (b : Bool)
  | sameness (b : Option Bool)
  | error? (e : Option Error)
  | failures (list : List (ClassId × Error))
  | links (links : Links)
  | decl? (d : Option ClassDecl)
  | classes (list : List (ClassId × ClassDecl))
  | size (n : Nat)
  | config (c : Config)
  | text (s : String)
  | method? (m : Option SharedMethod)
  | value (v : Value)
  | value? (v : Option Value)
  | statics (table : StaticTable)

namespace Registry

/-- Perform an operation.  `depth` bounds how deep resolution and evaluation
nest. -/
def perform (depth : Nat) : Operation → Eval Registry Answer
  | .register d => return .id (← register d)
  | .declare d => return .id (← declare depth d)
  | .setAutoloader loader => do
    .modify (setAutoloader loader)
    return .nothing
  | .clearAutoloader => do
    .modify clearAutoloader
    return .nothing
  | .find name => return .id? ((← .get).idOf? name)
  | .contains name => return .flag ((← .get).contains name)
  | .lookup name => return .id (← lookup name)
  | .resolve name => return .id (← resolve depth name)
  | .resolveId id => do
    resolveId depth id
    return .nothing
  | .resolveAll => return .failures (← resolveAll depth)
  | .isResolved id => return .flag (← .ask (·.isResolved id))
  | .resolutionError id => return .error? (← .ask (·.resolutionError id))
  | .links id => return .links (← .ask (·.links id))
  | .decl id => return .decl? ((← .get).decl? id)
  | .classes => return .classes (← .get).classes
  | .size => return .size (← .get).size
  | .config => return .config (← .get).config
  | .text => return .text (← .get).text
  | .isInstanceOf id candidate => return .flag (← .ask (·.isInstanceOf id candidate))
  | .findMethod id name => return .method? (← .ask (·.findMethod id name))
  | .constructor id => return .method? (← .ask (·.constructor id))
  | .sameMethod a m b n => return .sameness (← .ask (·.sameMethod a m b n))
  | .constant id name => return .value (← constant depth id name)
  | .statics id => return .statics (← statics id)
  | .setStatic id name value => return .value? (← setStatic id name value)
  | .replaceStatics id table => return .statics (← replaceStatics id table)
  | .staticOwner id name => return .id? (← staticOwner name depth id)
  | .staticProperty id name => return .value? (← staticProperty depth id name)
  | .setStaticProperty id name value => return .value? (← setStaticProperty depth id name value)

end Registry
end Lineage
