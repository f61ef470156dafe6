/-
Hooks that supply declarations on demand.
-/
import Lineage.Decl.Class

namespace Lineage

/-- A hook that is asked for the declaration of a name.  Its answer may depend
on the names it was asked for before, latest first, and on nothing else. -/
structure Autoloader where
  reply : List QualifiedName → QualifiedName → Option ClassDecl
  asked : List QualifiedName := []

namespace Autoloader

def ask (name : QualifiedName) (loader : Autoloader) : Option ClassDecl × Autoloader :=
  (loader.reply loader.asked name, { loader with asked := name :: loader.asked })

end Autoloader

/-! ## Hooks that follow a list of rules -/

/-- A rule of a hook.  It applies to one name or to every name, a limited number
of times or always, and supplies a declaration, which may depend on the name
asked for, or none. -/
structure AutoloadRule where
  requested : Option QualifiedName := none
  supply : Option (QualifiedName → ClassDecl) := none
  uses : Option Nat := none

namespace AutoloadRule

def applies (name : QualifiedName) (rule : AutoloadRule) : Bool :=
  rule.uses != some 0 &&
    match rule.requested with
    | some wanted => wanted == name
    | none => true

def useUp (rule : AutoloadRule) : AutoloadRule :=
  { rule with uses := rule.uses.map (· - 1) }

/-- The answer of the first rule that applies, and the rules as its use leaves
them. -/
def answer (name : QualifiedName) : List AutoloadRule → Option ClassDecl × List AutoloadRule
  | [] => (none, [])
  | rule :: rest =>
    if rule.applies name then (rule.supply.map (· name), rule.useUp :: rest)
    else
      let (found, left) := answer name rest
      (found, rule :: left)

/-- What is left of the rules after the names that were asked for, latest
first. -/
def remaining (rules : List AutoloadRule) : List QualifiedName → List AutoloadRule
  | [] => rules
  | name :: earlier => (answer name (remaining rules earlier)).2

end AutoloadRule

def Autoloader.ofRules (rules : List AutoloadRule) : Autoloader :=
  { reply := fun earlier name =>
      (AutoloadRule.answer name (AutoloadRule.remaining rules earlier)).1 }

end Lineage
