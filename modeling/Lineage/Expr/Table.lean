/-
A scope that answers constants from a table and keeps a record of its use.
-/
import Lineage.Catalog
import Lineage.Expr.Program

namespace Lineage

/-- An entry in the record of a table's use. -/
inductive Table.Event where
  | fetched (row : String)
  | noted (label : String)
  deriving DecidableEq, Repr

/-- Values under the written forms of constants, and the record of what was
fetched and noted, latest first. -/
structure Table where
  rows : Catalog Value := .empty
  record : List Table.Event := []

namespace Table

/-- Give a row a value, whether it had one or not. -/
def define (row : String) (value : Value) (t : Table) : Table :=
  { t with rows := t.rows.put row value }

/-- Each fetch is recorded, also one that finds no row. -/
def fetch (qualifier : Qualifier) (name : String) : Eval Table Value := fun t =>
  let row := qualifier.member name
  let seen := { t with record := .fetched row :: t.record }
  match t.rows.get? row with
  | some value => .value value seen
  | none => .failure (.raised (.undefinedConstant qualifier.text name)) seen

def note (label : String) (t : Table) : Table :=
  { t with record := .noted label :: t.record }

def scope : Scope Table :=
  { fetch := fetch, note := note }

end Table
end Lineage
