/-
Registries with finitely many names and sources.

What can be registered is bounded by a list of class names and a list of the
constants that sources mention (`Confined`).  Looking up names, computing values
and linking keep to such lists, and there are never more classes than names
(`Fit.size_le`).  Expressions, and combinations of expressions, mention finitely
many constants (`Combination.fetchesOnly`).
-/
import Lineage.Proofs.Nesting
import Lineage.Proofs.Supply

namespace Lineage

/-! ## Which constants a source mentions -/

/-- The constants that an expression mentions, of whichever class. -/
def Expr.constants : Expr → List String
  | .literal _ => []
  | .constant _ name => [name]
  | .binary _ left right => left.constants ++ right.constants
  | .negate operand => operand.constants

/-- A source made of finitely many expressions, some of which stand in for others
that fail. -/
inductive Combination where
  | expr (e : Expr)
  | noted (label : String) (part : Combination)
  | orElse (first second : Combination)

namespace Combination

def source : Combination → Initializer
  | .expr e => .expr e
  | .noted label part => part.source.noted label
  | .orElse first second => first.source.orElse second.source

def constants : Combination → List String
  | .expr e => e.constants
  | .noted _ part => part.constants
  | .orElse first second => first.constants ++ second.constants

end Combination

namespace Program

/-- Whatever its fetches are answered, the program fetches no other constants. -/
def FetchesOnly (constants : List String) : Program → Prop
  | .done _ => True
  | .fetch _ name next => name ∈ constants ∧ ∀ answer, (next answer).FetchesOnly constants
  | .note _ next => next.FetchesOnly constants

variable {constants constants' : List String}

theorem FetchesOnly.mono {p : Program} (h : p.FetchesOnly constants)
    (hsub : constants ⊆ constants') : p.FetchesOnly constants' := by
  induction p with
  | done result => exact trivial
  | fetch qualifier name next ih => exact ⟨hsub h.1, fun answer => ih answer (h.2 answer)⟩
  | note label next ih => exact ih h

theorem FetchesOnly.andThen {next : Except Error Value → Program} {p : Program}
    (hp : p.FetchesOnly constants) (hnext : ∀ result, (next result).FetchesOnly constants) :
    (p.andThen next).FetchesOnly constants := by
  induction p with
  | done result => exact hnext result
  | fetch qualifier name rest ih => exact ⟨hp.1, fun answer => ih answer (hp.2 answer)⟩
  | note label rest ih => exact ih hp

theorem FetchesOnly.onValue {next : Value → Program} {p : Program}
    (hp : p.FetchesOnly constants) (hnext : ∀ v, (next v).FetchesOnly constants) :
    (p.onValue next).FetchesOnly constants := by
  refine hp.andThen fun result => ?_
  cases result with
  | ok v => exact hnext v
  | error e => exact trivial

theorem fetchesOnly_ofExpr (e : Expr) : (ofExpr e).FetchesOnly e.constants := by
  induction e with
  | literal value => exact trivial
  | constant qualifier name => exact ⟨List.mem_singleton_self name, fun answer => trivial⟩
  | binary op left right ihl ihr =>
    refine (ihl.mono (List.subset_append_left _ _)).onValue fun a => ?_
    exact (ihr.mono (List.subset_append_right _ _)).onValue fun b => trivial
  | negate operand ih => exact ih.onValue fun a => trivial

end Program

theorem Combination.fetchesOnly (k : Combination) :
    k.source.toProgram.FetchesOnly k.constants := by
  induction k with
  | expr e => exact Program.fetchesOnly_ofExpr e
  | noted label part ih => exact ih
  | orElse first second ihf ihs =>
    refine (ihf.mono (List.subset_append_left _ _)).andThen fun result => ?_
    cases result with
    | ok v => exact trivial
    | error e => exact ihs.mono (List.subset_append_right _ _)

/-- The declaration has one of the names and sources from the list.  What it refers
to does not matter. -/
structure ClassDecl.MadeFrom (names : List String) (listed : List Combination) (d : ClassDecl) :
    Prop where
  name : d.name.key ∈ names
  sources : ∀ m source, d.lazy? m = some (.pending source) → ∃ k ∈ listed, source = k.source

/-- The declaration has one of the names, and its sources mention no other
constants. -/
structure ClassDecl.DrawnFrom (names constants : List String) (d : ClassDecl) : Prop where
  name : d.name.key ∈ names
  sources : ∀ m source, d.lazy? m = some (.pending source) →
    source.toProgram.FetchesOnly constants

namespace Registry

variable {r s : Registry} {names constants : List String}

/-! ## All that can be registered -/

/-- Nothing but the given names is bound or can become bound, and sources mention
no other constants. -/
structure Confined (names constants : List String) (r : Registry) : Prop where
  supplied : r.Supplied (ClassDecl.DrawnFrom names constants)
  bound : ∀ key ∈ r.index.names, key ∈ names

theorem Confined.autoload (h : r.Confined names constants) (name : QualifiedName) :
    (r.autoload name).Confined names constants := by
  refine ⟨h.supplied.autoload name, ?_⟩
  unfold Registry.autoload
  split
  · exact h.bound
  · rename_i loader hl
    dsimp only
    split
    · rename_i d hd
      unfold registerIfFree
      split
      · exact h.bound
      · intro key hkey
        have hput : key ∈ (r.index.put d.name.key (.ofIndex r.size)).names := hkey
        rw [Catalog.names_put] at hput
        split at hput
        · exact h.bound key hput
        · rcases List.mem_append.mp hput with hput | hput
          · exact h.bound key hput
          · rw [List.mem_singleton.mp hput]
            exact (h.supplied.hook loader hl _ _ d hd).name
    · exact h.bound

theorem stable_confined (names constants : List String) : Stable (Confined names constants) where
  autoload name r _ h := h.autoload name
  note label r h := ⟨h.supplied.of_eq rfl fun _ => rfl, h.bound⟩
  began site r h := ⟨h.supplied.of_eq rfl fun _ => rfl, h.bound⟩
  ended site result r h := by
    refine ⟨h.supplied.endEvaluation site result, ?_⟩
    cases result <;> exact h.bound
  classNotFound _ := trivial
  noParentScope _ := trivial
  undefinedConstant _ _ := trivial
  circularConstant _ _ := trivial
  failed _ _ _ _ _ := trivial
  source _ _ _ _ _ := Program.raises_of_forall (fun _ => trivial) _
  beganLinking id r h := ⟨h.supplied.of_eq rfl fun _ => rfl, h.bound⟩
  endedLinking id result r h := by
    refine ⟨(stable_supplied _).endedLinking id result r h.supplied, ?_⟩
    cases result <;> exact h.bound

/-- A state that a registry gets into, and all that can be registered in it. -/
structure Fit (names constants : List String) (r : Registry) : Prop
    extends Confined names constants r where
  reachable : r.Reachable

theorem Fit.size_le (h : r.Fit names constants) : r.size ≤ names.length := by
  rw [← h.reachable.listed.length_names]
  exact (List.subperm_of_subset r.index.names_nodup h.bound).length_le

theorem Fit.length_le (h : r.Fit names constants) {visited : List ClassId}
    (hv : r.Seen visited) : visited.length ≤ names.length :=
  Nat.le_trans hv.length_le h.size_le

theorem Fit.of_steps (h : r.Fit names constants) (hs : Relation.ReflTransGen Change r s)
    (hc : s.Confined names constants) : s.Fit names constants := by
  obtain ⟨config, hsteps⟩ := h.reachable
  exact ⟨hc, config, hsteps.trans hs⟩

/-! ## The sources of a registry -/

/-- All sources of a registry are in a list, and nothing else is. -/
theorem exists_combinations
    (hsources : ∀ site source, r.lazy? site = some (.pending source) →
      ∃ k : Combination, source = k.source) :
    ∃ present : List Combination,
      (∀ site source, r.lazy? site = some (.pending source) → ∃ k ∈ present, source = k.source) ∧
      ∀ k ∈ present, ∃ site, r.lazy? site = some (.pending k.source) := by
  suffices ∀ sites : List LazySite, ∃ present : List Combination,
      (∀ site ∈ sites, ∀ source, r.lazy? site = some (.pending source) →
        ∃ k ∈ present, source = k.source) ∧
      ∀ k ∈ present, ∃ site, r.lazy? site = some (.pending k.source) by
    obtain ⟨present, hall, hback⟩ := this r.sites
    exact ⟨present, fun site source hp => hall site (mem_sites hp) source hp, hback⟩
  intro sites
  induction sites with
  | nil => exact ⟨[], nofun, nofun⟩
  | cons site rest ih =>
    obtain ⟨present, hall, hback⟩ := ih
    by_cases hp : ∃ source, r.lazy? site = some (.pending source)
    · obtain ⟨source, hp⟩ := hp
      obtain ⟨k, rfl⟩ := hsources site source hp
      refine ⟨k :: present, fun other hother source hs => ?_, fun k' hk' => ?_⟩
      · rcases List.mem_cons.mp hother with rfl | hother
        · rw [hp] at hs
          cases hs
          exact ⟨k, List.mem_cons_self, rfl⟩
        · obtain ⟨k', hk', hsame⟩ := hall other hother source hs
          exact ⟨k', List.mem_cons_of_mem k hk', hsame⟩
      · rcases List.mem_cons.mp hk' with rfl | hk'
        · exact ⟨site, hp⟩
        · exact hback k' hk'
    · refine ⟨present, fun other hother source hs => ?_, hback⟩
      rcases List.mem_cons.mp hother with rfl | hother
      · exact absurd ⟨source, hs⟩ hp
      · exact hall other hother source hs

end Registry
end Lineage
