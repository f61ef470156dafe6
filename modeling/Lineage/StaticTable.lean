/-
Values of the static properties of one class.
-/
import Lineage.Catalog
import Lineage.Value.Basic

namespace Lineage

/-- The present values of static properties, in the order in which their names
came in. -/
structure StaticTable where
  cells : Catalog Value := .empty

namespace StaticTable

def empty : StaticTable := {}

def get? (t : StaticTable) (name : String) : Option Value :=
  t.cells.get? name

def contains (t : StaticTable) (name : String) : Bool :=
  t.cells.contains name

/-- Give a cell a value, at the end if it is new. -/
def put (t : StaticTable) (name : String) (value : Value) : StaticTable :=
  { cells := t.cells.put name value }

def replace (t : StaticTable) (name : String) (value : Value) : StaticTable :=
  { cells := t.cells.modify name fun _ => value }

def toList (t : StaticTable) : List (String × Value) :=
  t.cells.entries

def ofList (items : List (String × Value)) : StaticTable :=
  { cells := .ofList items }

def size (t : StaticTable) : Nat :=
  t.cells.size

def isEmpty (t : StaticTable) : Bool :=
  t.cells.isEmpty

/-- Sameness of tables: the same names with the same values, in any order. -/
def same (t u : StaticTable) : Bool :=
  t.size == u.size && t.toList.all fun (name, value) => u.get? name == some value

instance : BEq StaticTable := ⟨same⟩

theorem get?_put (t : StaticTable) (name key : String) (value : Value) :
    (t.put name value).get? key = if key = name then some value else t.get? key :=
  t.cells.get?_put name key value

theorem get?_replace (t : StaticTable) (name key : String) (value : Value) :
    (t.replace name value).get? key =
      if key = name then (t.get? key).map fun _ => value else t.get? key :=
  t.cells.get?_modify name key fun _ => value

end StaticTable
end Lineage
