/-
What the links in closed form contain.

The parent and the interfaces are the bindings of the declared names, the
ancestors are those of everything inherited, and the methods are the own ones
over those of the parent.
-/
import Lineage.Proofs.Linking

namespace Lineage
namespace Registry

variable {r : Registry} {linksOf : ClassId → Links} {id : ClassId} {d : ClassDecl}

/-! ## Taking over what is inherited -/

section Inherit

variable (r linksOf)

theorem mem_ancestors_extend {links base : Links} (role : Role) (p x : ClassId) :
    x ∈ (links.extend role p base).ancestors ↔ x ∈ links.ancestors ∨ x ∈ base.ancestors := by
  have h : (links.extend role p base).ancestors =
      (links.addAncestors base.ancestors).ancestors := by
    cases role <;> rfl
  rw [h, Links.addAncestors, List.mem_append, List.mem_filter]
  by_cases hx : x ∈ links.ancestors <;> simp [hx]

theorem mem_ancestors_foldl_inherit (refs : List (Role × QualifiedName)) (links : Links)
    (x : ClassId) :
    x ∈ (refs.foldl (r.inherit linksOf) links).ancestors ↔
      x ∈ links.ancestors ∨
        ∃ ref ∈ refs, ∃ p, r.idOf? ref.2 = some p ∧ x ∈ (linksOf p).ancestors := by
  induction refs generalizing links with
  | nil => simp
  | cons ref rest ih =>
    rw [List.foldl_cons, ih, inherit]
    cases hp : r.idOf? ref.2 with
    | none => simp [hp]
    | some p =>
      dsimp only
      rw [mem_ancestors_extend, or_assoc]
      simp [hp]

/-- Interfaces leave the parent and the methods as they are. -/
theorem foldl_inherit_interfaces (names : List QualifiedName) (links : Links) :
    let full := (names.map (Role.interface, ·)).foldl (r.inherit linksOf) links
    full.parent = links.parent ∧ full.methods = links.methods ∧
      full.interfaces = links.interfaces ++ names.filterMap r.idOf? := by
  induction names generalizing links with
  | nil => simp
  | cons name rest ih =>
    dsimp only at ih ⊢
    rw [List.map_cons, List.foldl_cons]
    obtain ⟨hparent, hmethods, hinterfaces⟩ := ih (r.inherit linksOf links (.interface, name))
    rw [hparent, hmethods, hinterfaces, inherit]
    cases hp : r.idOf? name with
    | none => simp [hp]
    | some p => simp [hp, Links.extend, Links.addAncestors]

theorem inherited_eq (id : ClassId) (d : ClassDecl) :
    r.inherited linksOf id d =
      (d.interfaces.map (Role.interface, ·)).foldl (r.inherit linksOf)
        (match d.parent with
          | some name => r.inherit linksOf { ancestors := [id] } (.parent, name)
          | none => { ancestors := [id] }) := by
  rw [inherited, ClassDecl.inheritances, List.foldl_append]
  cases d.parent <;> rfl

theorem parent_inherited (id : ClassId) (d : ClassDecl) :
    (r.inherited linksOf id d).parent = d.parent.bind r.idOf? := by
  rw [inherited_eq, (foldl_inherit_interfaces r linksOf d.interfaces _).1]
  cases d.parent with
  | none => rfl
  | some name =>
    dsimp only [inherit, Option.bind_some]
    cases r.idOf? name <;> rfl

theorem interfaces_inherited (id : ClassId) (d : ClassDecl) :
    (r.inherited linksOf id d).interfaces = d.interfaces.filterMap r.idOf? := by
  rw [inherited_eq, (foldl_inherit_interfaces r linksOf d.interfaces _).2.2]
  cases d.parent with
  | none => rfl
  | some name =>
    dsimp only [inherit]
    cases r.idOf? name <;> rfl

/-- Methods are inherited from the parent only. -/
theorem methods_inherited (id : ClassId) (d : ClassDecl) :
    (r.inherited linksOf id d).methods =
      match d.parent.bind r.idOf? with
      | some p => (linksOf p).methods
      | none => .empty := by
  rw [inherited_eq, (foldl_inherit_interfaces r linksOf d.interfaces _).2.1]
  cases d.parent with
  | none => rfl
  | some name =>
    dsimp only [inherit, Option.bind_some]
    cases r.idOf? name <;> rfl

theorem mem_ancestors_inherited (id : ClassId) (d : ClassDecl) (x : ClassId) :
    x ∈ (r.inherited linksOf id d).ancestors ↔
      x = id ∨ ∃ name ∈ d.references, ∃ p, r.idOf? name = some p ∧ x ∈ (linksOf p).ancestors := by
  rw [inherited, mem_ancestors_foldl_inherit, List.mem_singleton]
  refine or_congr_right ⟨?_, ?_⟩
  · rintro ⟨ref, href, hp⟩
    exact ⟨ref.2, ClassDecl.mem_references.mpr ⟨ref.1, href⟩, hp⟩
  · rintro ⟨name, hname, hp⟩
    obtain ⟨role, href⟩ := ClassDecl.mem_references.mp hname
    exact ⟨(role, name), href, hp⟩

end Inherit

/-! ## Laying own methods over -/

/-- Own methods change nothing but the methods. -/
theorem foldl_declare_eq (entries : List (String × MethodDecl)) (links : Links) :
    entries.foldl (Links.declare id) links =
      { links with methods := (entries.foldl (Links.declare id) links).methods } := by
  induction entries generalizing links with
  | nil => rfl
  | cons entry rest ih =>
    rw [List.foldl_cons, ih]
    rfl

theorem compose_eq (r : Registry) (linksOf : ClassId → Links) (id : ClassId) (d : ClassDecl) :
    ∃ methods constructor,
      r.compose linksOf id d =
        { r.inherited linksOf id d with methods := methods, constructor := constructor } := by
  unfold compose
  rw [foldl_declare_eq]
  exact ⟨_, _, rfl⟩

theorem parent_compose : (r.compose linksOf id d).parent = d.parent.bind r.idOf? := by
  obtain ⟨methods, constructor, h⟩ := compose_eq r linksOf id d
  rw [h]
  exact parent_inherited r linksOf id d

theorem interfaces_compose :
    (r.compose linksOf id d).interfaces = d.interfaces.filterMap r.idOf? := by
  obtain ⟨methods, constructor, h⟩ := compose_eq r linksOf id d
  rw [h]
  exact interfaces_inherited r linksOf id d

theorem get?_foldl_declare_eq {entries : List (String × MethodDecl)}
    (hn : (entries.map Prod.fst).Nodup) (links : Links) (key : String) :
    (entries.foldl (Links.declare id) links).methods.get? key =
      match entries.lookup key with
      | some m => some { owner := id, decl := m }
      | none => links.methods.get? key := by
  induction entries generalizing links with
  | nil => rfl
  | cons entry rest ih =>
    obtain ⟨k, m⟩ := entry
    rw [List.map_cons, List.nodup_cons] at hn
    rw [List.foldl_cons, ih hn.2, Links.declare, Catalog.get?_put]
    by_cases hk : key = k
    · subst hk
      have hnone : rest.lookup key = none := by
        rw [← Option.not_isSome_iff_eq_none, Catalog.lookup_isSome_iff]
        exact hn.1
      simp [hnone]
    · have hk' : (key == k) = false := by simpa using hk
      rw [List.lookup_cons, hk', if_neg hk]

/-- Own methods hide those of the parent. -/
theorem get?_compose (key : String) :
    (r.compose linksOf id d).methods.get? key =
      match d.methods.get? key with
      | some m => some { owner := id, decl := m }
      | none => (r.inherited linksOf id d).methods.get? key :=
  get?_foldl_declare_eq d.methods.names_nodup _ key

theorem mem_ancestors_compose {x : ClassId} :
    x ∈ (r.compose linksOf id d).ancestors ↔
      x = id ∨ ∃ name ∈ d.references, ∃ p, r.idOf? name = some p ∧ x ∈ (linksOf p).ancestors := by
  obtain ⟨methods, constructor, h⟩ := compose_eq r linksOf id d
  rw [h]
  exact mem_ancestors_inherited r linksOf id d x

end Registry
end Lineage
