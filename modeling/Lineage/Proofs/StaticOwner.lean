/-
Owners of static properties.

Two rules say which static properties a class has.  Its storage is created with a
cell for every property that is marked static.  The search for the class that a
property is taken from looks at the first property of the name only.  The rules
differ on a class that lists a name without the mark first and with it later, and
nothing rejects such a list.  `conceals` is that case.

The theorem of this file, `Reachable.static_owner`, says what the search ends with
from any resolved class, whatever the classes up the parents list, and exactly when
that is the nearest class whose storage gets a cell.
-/
import Lineage.Proofs.Dispatch
import Lineage.Proofs.SettledRead
import Lineage.Proofs.StaticCell

namespace Lineage

/-! ## One list of properties -/

namespace ClassDecl

/-- The storage of the class is created with a cell of this name. -/
def seeds (d : ClassDecl) (name : String) : Bool :=
  (StaticTable.ofDecl d).contains name

/-- The first property of the name is not static, and a later one is. -/
def conceals (d : ClassDecl) (name : String) : Bool :=
  (d.property? name).any (fun p => !p.isStatic) && d.staticProperties.any fun p => p.name == name

theorem seeds_iff {d : ClassDecl} {name : String} :
    d.seeds name = true ↔ ∃ p ∈ d.staticProperties, p.name = name := by
  have hnames := Catalog.get?_isSome_putAll
    (d.staticProperties.map fun p => (p.name, p.defaultValue?.getD .null)) .empty name
  rw [Catalog.get?_isSome_iff, List.map_map] at hnames
  rw [seeds, StaticTable.contains, Catalog.contains_iff]
  refine hnames.trans ?_
  simp

/-- A name has a cell exactly if its first property is static, or conceals one that
is. -/
theorem seeds_iff_declares_or_conceals {d : ClassDecl} {name : String} :
    d.seeds name = true ↔ Registry.declaresStatic d name = true ∨ d.conceals name = true := by
  constructor
  · intro h
    obtain ⟨p, hp, hname⟩ := seeds_iff.mp h
    have hlisted : p ∈ d.properties := List.mem_of_mem_filter hp
    cases hfirst : d.property? name with
    | none => exact absurd hname (by simpa using List.find?_eq_none.mp hfirst p hlisted)
    | some first =>
      cases hstatic : first.isStatic with
      | true => exact .inl (by rw [Registry.declaresStatic, hfirst]; exact hstatic)
      | false =>
        refine .inr (Bool.and_eq_true_iff.mpr ⟨by simp [hfirst, hstatic], ?_⟩)
        exact List.any_eq_true.mpr ⟨p, hp, beq_iff_eq.mpr hname⟩
  · rintro (h | h)
    · exact Catalog.contains_iff.mpr (Catalog.get?_isSome_iff.mp (StaticTable.get?_ofDecl_isSome h))
    · obtain ⟨p, hp, hname⟩ := List.any_eq_true.mp (Bool.and_eq_true_iff.mp h).2
      exact seeds_iff.mpr ⟨p, hp, beq_iff_eq.mp hname⟩

theorem not_declares_of_conceals {d : ClassDecl} {name : String} (h : d.conceals name = true) :
    Registry.declaresStatic d name = false := by
  obtain ⟨first, hfirst, hplain⟩ := (Option.any_eq_true _ _).mp (Bool.and_eq_true_iff.mp h).1
  rw [Registry.declaresStatic, hfirst]
  simpa using hplain

end ClassDecl

namespace Registry

variable {r : Registry} {c : ClassId} {links : Links} {chain : List ClassId} {name : String}

/-! ## A line of parents -/

/-- The search for an owner stops at this class. -/
def ownsStatic (r : Registry) (name : String) (c : ClassId) : Bool :=
  (r.decl? c).any fun d => declaresStatic d name

/-- The storage of this class is created with a cell of the name. -/
def seedsStatic (r : Registry) (name : String) (c : ClassId) : Bool :=
  (r.decl? c).any fun d => d.seeds name

/-- The storage of this class gets a cell of the name, and the search for an owner
passes the class. -/
def concealsStatic (r : Registry) (name : String) (c : ClassId) : Bool :=
  (r.decl? c).any fun d => d.conceals name

theorem seedsStatic_iff :
    r.seedsStatic name c = true ↔ r.ownsStatic name c = true ∨ r.concealsStatic name c = true := by
  unfold seedsStatic ownsStatic concealsStatic
  cases r.decl? c with
  | none => simp
  | some d => exact ClassDecl.seeds_iff_declares_or_conceals

theorem seeds_of_owns (h : r.ownsStatic name c = true) : r.seedsStatic name c = true :=
  seedsStatic_iff.mpr (.inl h)

theorem owns_eq_false_iff (h : r.seedsStatic name c = true) :
    r.ownsStatic name c = false ↔ r.concealsStatic name c = true := by
  constructor
  · intro hpassed
    exact (seedsStatic_iff.mp h).resolve_left (by simp [hpassed])
  · intro hconceals
    obtain ⟨d, hd, hconceals⟩ := (Option.any_eq_true _ _).mp hconceals
    rw [ownsStatic, hd]
    exact ClassDecl.not_declares_of_conceals hconceals

/-- The line of parents of a resolved class is no longer than its ancestors are
many. -/
theorem ParentChain.length_le (h : r.ParentChain c chain) (hr : r.Founded)
    (hc : r.Resolved c links) : chain.length ≤ links.ancestors.toFinset.card := by
  induction h generalizing links with
  | root =>
    have hself := List.mem_toFinset.mpr ((hr.mem_ancestors_iff hc).mpr (.inl rfl))
    exact Finset.card_pos.mpr ⟨_, hself⟩
  | child linked parent _ ih =>
    obtain rfl := hc.unique (links_eq_ok_iff.mp linked)
    have hp := hr.refers_parent hc parent
    obtain ⟨base, hbase⟩ := hr.resolved_of_refers hc hp
    exact Nat.lt_of_le_of_lt (ih hbase) (hr.card_ancestors_lt hc hp hbase)

theorem find?_ownsStatic_cons {d : ClassDecl} (hd : r.decl? c = some d) (above : List ClassId) :
    (c :: above).find? (r.ownsStatic name) =
      if declaresStatic d name then some c else above.find? (r.ownsStatic name) := by
  rw [List.find?_cons, ownsStatic, hd, Option.any_some]
  split <;> simp_all

/-- One step of the search for an owner. -/
theorem staticOwner_of_linked {d : ClassDecl} (hl : r.links c = .ok links)
    (hd : r.decl? c = some d) (name : String) (depth : Nat) :
    staticOwner name (depth + 1) c r =
      (if declaresStatic d name then pure (some c)
        else match links.parent with
          | some parent => staticOwner name depth parent
          | none => pure none : Eval Registry (Option ClassId)) r := by
  rw [staticOwner, Eval.bind_apply, Eval.ask, hl]
  exact decl_bind hd _

/-- A search for an owner goes up the line of parents to the first class that it
stops at. -/
theorem ParentChain.staticOwner (h : r.ParentChain c chain) (name : String) :
    ∀ depth, chain.length ≤ depth →
      staticOwner name depth c r = .value (chain.find? (r.ownsStatic name)) r := by
  induction h with
  | root linked parentless =>
    rintro (_ | depth) hdepth
    · cases hdepth
    obtain ⟨d, hd⟩ := issued_iff_decl?.mp (.of_standing? (links_eq_ok_iff.mp linked))
    rw [staticOwner_of_linked linked hd, find?_ownsStatic_cons hd, parentless]
    split <;> rfl
  | child linked parent _ ih =>
    rintro (_ | depth) hdepth
    · cases hdepth
    obtain ⟨d, hd⟩ := issued_iff_decl?.mp (.of_standing? (links_eq_ok_iff.mp linked))
    rw [staticOwner_of_linked linked hd, find?_ownsStatic_cons hd, parent]
    split
    · rfl
    · exact ih depth (Nat.le_of_succ_le_succ hdepth)

theorem ParentChain.resolved (h : r.ParentChain c chain) {x : ClassId} (hx : x ∈ chain) :
    ∃ links, r.Resolved x links := by
  induction h with
  | root linked => exact List.mem_singleton.mp hx ▸ ⟨_, links_eq_ok_iff.mp linked⟩
  | child linked _ _ ih =>
    rcases List.mem_cons.mp hx with rfl | hx
    · exact ⟨_, links_eq_ok_iff.mp linked⟩
    · exact ih hx

/-- Of two rules, the stricter one finds the same class exactly if it holds of the
class that the other one finds. -/
theorem find?_eq_find?_iff {strict wide : ClassId → Bool}
    (hwide : ∀ x, strict x = true → wide x = true) (chain : List ClassId) :
    chain.find? strict = chain.find? wide ↔
      ∀ x, chain.find? wide = some x → strict x = true := by
  constructor
  · intro heq x hx
    exact List.find?_some (heq.trans hx)
  · intro hstrict
    cases hfound : chain.find? wide with
    | none =>
      rw [List.find?_eq_none] at hfound ⊢
      exact fun x hx hown => hfound x hx (hwide x hown)
    | some x =>
      obtain ⟨-, before, after, rfl, hbefore⟩ := List.find?_eq_some_iff_append.mp hfound
      refine List.find?_eq_some_iff_append.mpr
        ⟨hstrict x hfound, before, after, rfl, fun y hy => ?_⟩
      rw [Bool.not_eq_true', ← Bool.not_eq_true]
      exact fun hown => by simpa [hwide y hown] using hbefore y hy

/-! ## Owners and cells -/

/-- How the owner of a static property, as seen from `c`, relates to the storages of
`c` and of the classes up its parents, which are `chain`. -/
structure Owned (r : Registry) (c : ClassId) (chain : List ClassId) (name : String) : Prop where
  /-- The search ends with the first class whose first property of the name is
  static, if there is one, and leaves everything as it is. -/
  owner : ∀ depth, r.size < depth →
    staticOwner name depth c r = .value (chain.find? (r.ownsStatic name)) r
  /-- What a storage is created with. -/
  created : ∀ x ∈ chain, r.table? x = none → ∃ table,
    (statics x r).answer? = some (.ok table) ∧ table.contains name = r.seedsStatic name x
  /-- The storage of the owner is created with the cell. -/
  cell : ∀ o, chain.find? (r.ownsStatic name) = some o → r.seedsStatic name o = true ∧
    (r.table? o = none → ∃ table v,
      (statics o r).answer? = some (.ok table) ∧ table.get? name = some v)
  /-- The classes with a cell at which the search does not stop are those that
  conceal it. -/
  passed : ∀ x, r.seedsStatic name x = true →
    (r.ownsStatic name x = false ↔ r.concealsStatic name x = true)
  /-- The owner is the nearest class with a cell exactly if that one does not conceal
  it. -/
  nearest : chain.find? (r.ownsStatic name) = chain.find? (r.seedsStatic name) ↔
    ∀ x, chain.find? (r.seedsStatic name) = some x → r.concealsStatic name x = false
  /-- There is no owner exactly if every class with a cell conceals it. -/
  unowned : chain.find? (r.ownsStatic name) = none ↔
    ∀ x ∈ chain, r.seedsStatic name x = true → r.concealsStatic name x = true

theorem ParentChain.owned (h : r.ParentChain c chain) (hr : r.Reachable) (hc : r.Resolved c links)
    (name : String) : r.Owned c chain name where
  owner depth hdepth := by
    have hlength := h.length_le hr.founded hc
    have hsize := hr.founded.card_ancestors_le hc
    exact h.staticOwner name depth (by omega)
  created x hx htable := by
    obtain ⟨above, hl⟩ := h.resolved hx
    obtain ⟨d, hd⟩ := issued_iff_decl?.mp (.of_standing? hl)
    refine ⟨.ofDecl d, ?_, ?_⟩
    · rw [statics_of_resolved hl, storage_of_untouched hd htable]
      rfl
    · rw [seedsStatic, hd]
      rfl
  cell o ho := by
    have hown : r.ownsStatic name o = true := List.find?_some ho
    obtain ⟨above, hl⟩ := h.resolved (List.mem_of_find?_eq_some ho)
    obtain ⟨d, hd, hdeclares⟩ := (Option.any_eq_true _ _).mp hown
    obtain ⟨v, hv⟩ := Option.isSome_iff_exists.mp (StaticTable.get?_ofDecl_isSome hdeclares)
    refine ⟨seeds_of_owns hown, fun htable => ⟨.ofDecl d, v, ?_, hv⟩⟩
    rw [statics_of_resolved hl, storage_of_untouched hd htable]
    rfl
  passed _ hseeds := owns_eq_false_iff hseeds
  nearest := by
    rw [find?_eq_find?_iff (fun _ => seeds_of_owns)]
    refine forall₂_congr fun x hx => ?_
    rw [← Bool.not_eq_true (r.concealsStatic name x), ← owns_eq_false_iff (List.find?_some hx),
      Bool.not_eq_false]
  unowned := by
    rw [List.find?_eq_none]
    refine forall₂_congr fun x _ => ⟨fun hpassed hseeds => ?_, fun hconceals hown => ?_⟩
    · exact (owns_eq_false_iff hseeds).mp (Bool.eq_false_iff.mpr hpassed)
    · have hpassed := (owns_eq_false_iff (seeds_of_owns hown)).mpr (hconceals (seeds_of_owns hown))
      simp [hpassed] at hown

/-- The search for the owner of a static property never fails from a resolved class and
comes to an end, whatever the classes up the parents list.  The bound on nesting suffices
if it exceeds the number of classes.  It finds the nearest class that is to have a cell of
the name, unless that class conceals it. -/
theorem Reachable.static_owner (h : r.Reachable) (hc : r.links c = .ok links) :
    ∃ chain, r.ParentChain c chain ∧ ∀ name, r.Owned c chain name := by
  have hresolved := links_eq_ok_iff.mp hc
  obtain ⟨chain, hchain, -⟩ := h.founded.exists_parentChain c links hresolved
  exact ⟨chain, hchain, hchain.owned h hresolved⟩

/-- A class lists a property twice and only the second one is static.  Its storage has
the cell, and the owner is its parent. -/
theorem Reachable.static_owner_concealed :
    let decls : List ClassDecl :=
      [.addProperty { name := "n", modifiers := .staticBit, default := some (.settled (.int 1)) }
          { name := ⟨"Base"⟩ },
        .addProperty { name := "n", modifiers := .staticBit, default := some (.settled (.int 2)) }
          (.addProperty { name := "n" } { name := ⟨"A"⟩, parent := some ⟨"Base"⟩ })]
    ∃ r links, Run (new {}) (decls.map .register ++ [.resolve ⟨"A"⟩]) r ∧
      r.links ⟨1⟩ = .ok links ∧
      (∃ chain, r.ParentChain ⟨1⟩ chain ∧ ∀ name, r.Owned ⟨1⟩ chain name) ∧
      r.concealsStatic "n" ⟨1⟩ = true ∧
      (statics ⟨1⟩ r).answer?.map (Except.map fun table => table.get? "n") =
        some (.ok (some (.int 2))) ∧
      (staticOwner "n" 3 ⟨1⟩ r).answer? = some (.ok (some ⟨0⟩)) := by
  intro decls
  have hrun : (performAll 9 (decls.map .register ++ [.resolve ⟨"A"⟩]) (new {})).map (fun r =>
      ((r.links ⟨1⟩).toOption.isSome, r.concealsStatic "n" ⟨1⟩,
        (statics ⟨1⟩ r).answer?.map (Except.map fun table => table.get? "n"),
        (staticOwner "n" 3 ⟨1⟩ r).answer?)) =
      some (true, true, some (.ok (some (.int 2))), some (.ok (some ⟨0⟩))) := rfl
  obtain ⟨r, hr, hresults⟩ := Option.map_eq_some_iff.mp hrun
  simp only [Prod.mk.injEq] at hresults
  obtain ⟨hlinked, hresults⟩ := hresults
  have hrun : Run (new {}) _ r := .of_performAll hr
  cases hl : r.links ⟨1⟩ with
  | error f =>
    rw [hl] at hlinked
    cases hlinked
  | ok links =>
    exact ⟨r, links, hrun, hl, Reachable.static_owner hrun.reachable hl, hresults⟩

end Registry
end Lineage
