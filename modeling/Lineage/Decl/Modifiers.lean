/-
The words in front of a declaration.
-/
namespace Lineage

inductive Visibility where
  | «public»
  | «protected»
  | «private»
  deriving DecidableEq, Repr, Inhabited

/-- A set of declaration modifiers, one bit each.  Bits without a meaning are
kept as they came. -/
structure Modifiers where
  bits : UInt16 := 0
  deriving DecidableEq, Repr, Inhabited

namespace Visibility

def keyword : Visibility → String
  | .public => "public"
  | .protected => "protected"
  | .private => "private"

end Visibility

namespace Modifiers

def none : Modifiers := {}

def publicBit : Modifiers := { bits := 0x01 }

def protectedBit : Modifiers := { bits := 0x02 }

def privateBit : Modifiers := { bits := 0x04 }

def staticBit : Modifiers := { bits := 0x08 }

def abstractBit : Modifiers := { bits := 0x10 }

def finalBit : Modifiers := { bits := 0x20 }

def readonlyBit : Modifiers := { bits := 0x40 }

/-! ## Sets of modifiers -/

def union (m o : Modifiers) : Modifiers :=
  { bits := m.bits ||| o.bits }

def inter (m o : Modifiers) : Modifiers :=
  { bits := m.bits &&& o.bits }

def diff (m o : Modifiers) : Modifiers :=
  { bits := m.bits &&& ~~~o.bits }

def symmDiff (m o : Modifiers) : Modifiers :=
  { bits := m.bits ^^^ o.bits }

/-- All modifiers with a meaning. -/
def known : Modifiers :=
  publicBit |>.union protectedBit |>.union privateBit |>.union staticBit
    |>.union abstractBit |>.union finalBit |>.union readonlyBit

/-- The modifiers with a meaning that are not in the set. -/
def complement (m : Modifiers) : Modifiers :=
  known.diff m

def truncate (m : Modifiers) : Modifiers :=
  m.inter known

/-- The set, if each of its bits has a meaning. -/
def checked? (m : Modifiers) : Option Modifiers :=
  if m.truncate = m then some m else .none

def contains (m o : Modifiers) : Bool :=
  m.inter o == o

def intersects (m o : Modifiers) : Bool :=
  m.inter o != none

/-! ## Single modifiers -/

def isStatic (m : Modifiers) : Bool :=
  m.contains staticBit

def isAbstract (m : Modifiers) : Bool :=
  m.contains abstractBit

def isFinal (m : Modifiers) : Bool :=
  m.contains finalBit

def isReadonly (m : Modifiers) : Bool :=
  m.contains readonlyBit

/-- The narrowest visibility in the set; without one, everybody may use the
member. -/
def visibility (m : Modifiers) : Visibility :=
  if m.contains privateBit then .private
  else if m.contains protectedBit then .protected
  else .public

def ofVisibility : Visibility → Modifiers
  | .public => publicBit
  | .protected => protectedBit
  | .private => privateBit

def namesVisibility (m : Modifiers) : Bool :=
  m.intersects (publicBit.union protectedBit |>.union privateBit)

/-- A word of the text below, with the space that follows it. -/
def word (present : Bool) (keyword : String) : String :=
  if present then keyword ++ " " else ""

/-- The words in the order in which they are written, each with a space after
it. -/
def text (m : Modifiers) : String :=
  word m.isAbstract "abstract" ++ word m.isFinal "final"
    ++ word m.namesVisibility m.visibility.keyword
    ++ word m.isStatic "static" ++ word m.isReadonly "readonly"

theorem visibility_ofVisibility (v : Visibility) : (ofVisibility v).visibility = v := by
  cases v <;> decide

end Modifiers
end Lineage
