/-
Numbers under which classes are registered.
-/
namespace Lineage

/-- The number of a class in the order of registration, a 32-bit word. -/
structure ClassId where
  number : UInt32
  deriving DecidableEq, Repr, Inhabited

namespace ClassId

def index (id : ClassId) : Nat :=
  id.number.toNat

/-- The number for a place in the registry.  Numbers wrap at `2 ^ 32`. -/
def ofIndex (index : Nat) : ClassId :=
  { number := UInt32.ofNat index }

def text (id : ClassId) : String :=
  "class#" ++ toString id.number.toNat

def order (a b : ClassId) : Ordering :=
  compare a.index b.index

theorem index_ofIndex {index : Nat} (h : index < UInt32.size) :
    (ofIndex index).index = index := by
  simpa [ClassId.index, ofIndex] using Nat.mod_eq_of_lt h

theorem index_inj {a b : ClassId} : a.index = b.index ↔ a = b := by
  cases a; cases b
  simp [index, UInt32.toNat_inj]

@[simp] theorem ofIndex_index (id : ClassId) : ofIndex id.index = id :=
  index_inj.mp (index_ofIndex id.number.toNat_lt)

end ClassId
end Lineage
