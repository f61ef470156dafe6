/-
Declarations whose values are being computed.

`Settles d d'` says that `d'` is `d` with values stored for some of its members.
Nothing else of a declaration ever changes: `d` and `d'` are `Alike`, and
whatever is computed without looking at values is the same for both.
-/
import Lineage.Decl.Class
import Lineage.Registry.Site
import Mathlib.Logic.Relation

namespace Lineage

theorem lookup_of_mem {α : Type} {l : List (String × α)} {name : String} {value : α}
    (hn : (l.map Prod.fst).Nodup) (h : (name, value) ∈ l) : l.lookup name = some value := by
  induction l with
  | nil => cases h
  | cons entry rest ih =>
    obtain ⟨k, v⟩ := entry
    rw [List.map_cons, List.nodup_cons] at hn
    rcases List.mem_cons.mp h with heq | hrest
    · cases heq
      simp
    · have hne : name ≠ k := by
        rintro rfl
        exact hn.1 (List.mem_map.mpr ⟨(name, value), hrest, rfl⟩)
      have hk : (name == k) = false := by simpa using hne
      rw [List.lookup_cons, hk]
      exact ih hn.2 hrest

/-- As names are distinct, every entry is found under its name. -/
theorem Catalog.get?_of_mem {α : Type} {c : Catalog α} {name : String} {value : α}
    (h : (name, value) ∈ c.entries) : c.get? name = some value :=
  lookup_of_mem c.names_nodup h

theorem Catalog.mem_of_get? {α : Type} {c : Catalog α} {name : String} {value : α}
    (h : c.get? name = some value) : (name, value) ∈ c.entries := by
  obtain ⟨before, after, hsplit, -⟩ := List.lookup_eq_some_iff.mp h
  rw [hsplit]
  exact List.mem_append_cons_self

theorem ConstantDecl.settle_of_settled {c : ConstantDecl} {old : Value} (v : Value)
    (h : c.value = .settled old) : c.settle v = c := by
  cases c
  cases h
  rfl

theorem PropertyDecl.settle_of_settled {p : PropertyDecl} (v : Value)
    (h : ∀ source, p.default ≠ some (.pending source)) : p.settle v = p := by
  obtain ⟨name, modifiers, default, location⟩ := p
  match default with
  | none => rfl
  | some (.settled old) => rfl
  | some (.pending source) => exact absurd rfl (h source)

namespace ClassDecl

/-! ## Storing one value -/

section Settle

variable (m : LazyMember) (v : Value) (d : ClassDecl)

@[simp] theorem name_settle : (d.settle m v).name = d.name := by cases m <;> rfl

@[simp] theorem kind_settle : (d.settle m v).kind = d.kind := by cases m <;> rfl

@[simp] theorem modifiers_settle : (d.settle m v).modifiers = d.modifiers := by cases m <;> rfl

@[simp] theorem parent_settle : (d.settle m v).parent = d.parent := by cases m <;> rfl

@[simp] theorem interfaces_settle : (d.settle m v).interfaces = d.interfaces := by
  cases m <;> rfl

@[simp] theorem methods_settle : (d.settle m v).methods = d.methods := by cases m <;> rfl

@[simp] theorem names_settle : (d.settle m v).constants.names = d.constants.names := by
  cases m with
  | constant n => exact names_settleConstant n v d
  | default i => rfl

@[simp] theorem propertyNames_settle :
    (d.settle m v).properties.map (fun p => (p.name, p.modifiers)) =
      d.properties.map (fun p => (p.name, p.modifiers)) := by
  cases m with
  | constant n => rfl
  | default i =>
    refine List.ext_getElem? fun j => ?_
    simp only [settle, settleDefault, List.getElem?_map, List.getElem?_modify]
    by_cases h : i = j
    · cases d.properties[j]? <;> simp [h, PropertyDecl.settle]
    · simp [h]

/-- The stored value shows at its own member only. -/
theorem lazy?_settle (n : LazyMember) :
    (d.settle m v).lazy? n = if n = m then (d.lazy? n).map (Lazy.settle v) else d.lazy? n := by
  cases m with
  | constant m =>
    cases n with
    | constant n =>
      simp only [settle, settleConstant, lazy?, constant?, Catalog.get?_modify,
        LazyMember.constant.injEq]
      by_cases h : n = m
      · cases d.constants.get? n <;> simp [h, ConstantDecl.settle]
      · simp [h]
    | default j => simp [settle, settleConstant, lazy?]
  | default i =>
    cases n with
    | constant n => simp [settle, settleDefault, lazy?, constant?]
    | default j =>
      simp only [settle, settleDefault, lazy?, List.getElem?_modify, LazyMember.default.injEq]
      by_cases h : i = j
      · subst h
        cases d.properties[i]? <;> simp [PropertyDecl.settle]
      · simp [h, Ne.symm h]

/-- A value that is not pending is not stored again. -/
theorem settle_of_computed {m : LazyMember} {d : ClassDecl}
    (h : ∀ source, d.lazy? m ≠ some (.pending source)) : d.settle m v = d := by
  cases m with
  | constant n =>
    have hcatalog : d.constants.modify n (ConstantDecl.settle v) = d.constants := by
      refine Catalog.ext (List.ext_getElem? fun i => ?_)
      simp only [Catalog.modify, List.getElem?_map]
      cases hi : d.constants.entries[i]? with
      | none => rfl
      | some entry =>
        obtain ⟨k, c⟩ := entry
        simp only [Option.map_some]
        split
        · rename_i hk
          subst hk
          have hget : d.constants.get? k = some c :=
            Catalog.get?_of_mem (List.mem_of_getElem? hi)
          cases hv : c.value with
          | pending source =>
            refine absurd ?_ (h source)
            rw [lazy?, constant?, hget, Option.map_some, hv]
          | settled old => rw [ConstantDecl.settle_of_settled v hv]
        · rfl
    simp only [settle, settleConstant, hcatalog]
  | default i =>
    have hlist : d.properties.modify i (PropertyDecl.settle v) = d.properties := by
      refine List.ext_getElem? fun j => ?_
      rw [List.getElem?_modify]
      by_cases hj : i = j
      · subst hj
        cases hp : d.properties[i]? with
        | none => simp
        | some p =>
          have hp' : p.settle v = p := by
            refine PropertyDecl.settle_of_settled v fun source hl => h source ?_
            rw [lazy?, hp, Option.bind_some, hl]
          simp [hp']
      · simp [hj]
    simp only [settle, settleDefault, hlist]

end Settle

theorem lazy?_addConstant (c : ConstantDecl) (d : ClassDecl) (n : LazyMember) :
    (d.addConstant c).lazy? n = if n = .constant c.name then some c.value else d.lazy? n := by
  cases n with
  | constant n =>
    simp only [addConstant, lazy?, constant?, Catalog.get?_put, LazyMember.constant.injEq]
    split <;> rfl
  | default i => simp [addConstant, lazy?]

/-- Only the listed members have values. -/
theorem mem_lazyMembers {d : ClassDecl} {m : LazyMember} {l : Lazy} (h : d.lazy? m = some l) :
    m ∈ d.lazyMembers := by
  cases m with
  | constant n =>
    refine List.mem_append_left _ (List.mem_map_of_mem ?_)
    rw [← Catalog.get?_isSome_iff]
    obtain ⟨c, hc, -⟩ := Option.map_eq_some_iff.mp h
    rw [show d.constants.get? n = some c from hc]
    rfl
  | default i =>
    refine List.mem_append_right _ (List.mem_map_of_mem (List.mem_range.mpr ?_))
    obtain ⟨p, hp, -⟩ := Option.bind_eq_some_iff.mp h
    exact (List.getElem?_eq_some_iff.mp hp).1

/-- Every value of the declaration passes a test. -/
def everyValue (test : Lazy → Bool) (d : ClassDecl) : Bool :=
  d.lazyMembers.all fun m => (d.lazy? m).all test

theorem everyValue_iff {test : Lazy → Bool} {d : ClassDecl} :
    d.everyValue test = true ↔ ∀ m l, d.lazy? m = some l → test l = true := by
  simp only [everyValue, List.all_eq_true, Option.all_eq_true]
  exact ⟨fun h m l hl => h m (mem_lazyMembers hl) l hl, fun h m _ l hl => h m l hl⟩

/-! ## Declarations that differ in values only -/

/-- The same declaration but for the values of its constants and properties. -/
structure Alike (d d' : ClassDecl) : Prop where
  name : d'.name = d.name
  kind : d'.kind = d.kind
  modifiers : d'.modifiers = d.modifiers
  parent : d'.parent = d.parent
  interfaces : d'.interfaces = d.interfaces
  methods : d'.methods = d.methods
  constantNames : d'.constants.names = d.constants.names
  propertyNames : d'.properties.map (fun p => (p.name, p.modifiers)) =
    d.properties.map (fun p => (p.name, p.modifiers))

namespace Alike

variable {d d' : ClassDecl}

theorem refl (d : ClassDecl) : d.Alike d := ⟨rfl, rfl, rfl, rfl, rfl, rfl, rfl, rfl⟩

theorem symm (h : d.Alike d') : d'.Alike d where
  name := h.name.symm
  kind := h.kind.symm
  modifiers := h.modifiers.symm
  parent := h.parent.symm
  interfaces := h.interfaces.symm
  methods := h.methods.symm
  constantNames := h.constantNames.symm
  propertyNames := h.propertyNames.symm

theorem trans {d'' : ClassDecl} (h : d.Alike d') (h' : d'.Alike d'') : d.Alike d'' where
  name := h'.name.trans h.name
  kind := h'.kind.trans h.kind
  modifiers := h'.modifiers.trans h.modifiers
  parent := h'.parent.trans h.parent
  interfaces := h'.interfaces.trans h.interfaces
  methods := h'.methods.trans h.methods
  constantNames := h'.constantNames.trans h.constantNames
  propertyNames := h'.propertyNames.trans h.propertyNames

theorem settle (m : LazyMember) (v : Value) (d : ClassDecl) : d.Alike (d.settle m v) where
  name := name_settle m v d
  kind := kind_settle m v d
  modifiers := modifiers_settle m v d
  parent := parent_settle m v d
  interfaces := interfaces_settle m v d
  methods := methods_settle m v d
  constantNames := names_settle m v d
  propertyNames := propertyNames_settle m v d

theorem isFinal (h : d.Alike d') : d'.isFinal = d.isFinal := by
  rw [ClassDecl.isFinal, ClassDecl.isFinal, h.modifiers]

theorem references (h : d.Alike d') : d'.references = d.references := by
  rw [ClassDecl.references, ClassDecl.references, h.parent, h.interfaces]

theorem lazyMembers (h : d.Alike d') : d'.lazyMembers = d.lazyMembers := by
  have hp := congrArg List.length h.propertyNames
  simp only [List.length_map] at hp
  rw [ClassDecl.lazyMembers, ClassDecl.lazyMembers, h.constantNames, hp]

theorem label (h : d.Alike d') (m : LazyMember) : m.label d' = m.label d := by
  cases m with
  | constant n => rfl
  | default i =>
    have hname := congrArg (fun names => (names[i]?).map Prod.fst) h.propertyNames
    simp only [List.getElem?_map] at hname
    unfold LazyMember.label
    cases hp : d.properties[i]? <;> cases hp' : d'.properties[i]? <;> simp_all

end Alike

/-- The second declaration is the first with values stored for some members. -/
def Settles : ClassDecl → ClassDecl → Prop :=
  Relation.ReflTransGen fun d d' => ∃ m v, d' = d.settle m v

namespace Settles

variable {d d' : ClassDecl}

theorem refl (d : ClassDecl) : d.Settles d := Relation.ReflTransGen.refl

theorem trans {d'' : ClassDecl} (h : d.Settles d') (h' : d'.Settles d'') : d.Settles d'' :=
  Relation.ReflTransGen.trans h h'

theorem settle (m : LazyMember) (v : Value) (d : ClassDecl) : d.Settles (d.settle m v) :=
  Relation.ReflTransGen.single ⟨m, v, rfl⟩

theorem alike (h : d.Settles d') : d.Alike d' := by
  induction h with
  | refl => exact .refl d
  | tail _ hstep ih =>
    obtain ⟨m, v, rfl⟩ := hstep
    exact ih.trans (.settle m v _)

/-- A member stays as it is, unless it was pending and has got a value. -/
theorem lazy? (h : d.Settles d') (n : LazyMember) :
    d'.lazy? n = d.lazy? n ∨
      ∃ source v, d.lazy? n = some (.pending source) ∧ d'.lazy? n = some (.settled v) := by
  induction h with
  | refl => exact .inl rfl
  | tail _ hstep ih =>
    obtain ⟨m, v, rfl⟩ := hstep
    rw [lazy?_settle]
    split
    · rcases ih with ih | ⟨source, w, hp, hs⟩
      · rw [ih]
        cases hd : d.lazy? n with
        | none => exact .inl rfl
        | some l =>
          cases l with
          | settled w => exact .inl rfl
          | pending source => exact .inr ⟨source, v, rfl, rfl⟩
      · exact .inr ⟨source, w, hp, by rw [hs]; rfl⟩
    · exact ih

theorem lazy?_pending (h : d.Settles d') {n : LazyMember} {source : Initializer}
    (hp : d'.lazy? n = some (.pending source)) : d.lazy? n = some (.pending source) := by
  rcases h.lazy? n with he | ⟨_, w, -, hs⟩
  · rw [← he, hp]
  · rw [hs] at hp; cases hp

/-- Nothing is stored in a declaration in which nothing is pending. -/
theorem eq_of_computed (h : d.Settles d') (hc : ∀ m source, d.lazy? m ≠ some (.pending source)) :
    d' = d := by
  induction h with
  | refl => rfl
  | tail _ hstep ih =>
    obtain ⟨m, v, rfl⟩ := hstep
    rw [ih]
    exact settle_of_computed v (hc m)

end Settles

end ClassDecl

/-! ## What a class inherits from -/

/-- How a class names what it inherits from. -/
inductive Role where
  | parent
  | interface
  deriving DecidableEq, Repr

/-- The rule that is broken if `d` names `base` in this role. -/
def Role.violation? (role : Role) (d base : ClassDecl) : Option Violation :=
  match role with
  | .parent => d.parentViolation? base
  | .interface => base.interfaceViolation?

/-- The names a class inherits from, each in its role: its parent, then its
interfaces. -/
def ClassDecl.inheritances (d : ClassDecl) : List (Role × QualifiedName) :=
  d.parent.toList.map (Role.parent, ·) ++ d.interfaces.map (Role.interface, ·)

theorem ClassDecl.references_eq (d : ClassDecl) :
    d.references = d.inheritances.map Prod.snd := by
  simp [references, inheritances, Function.comp_def]

theorem ClassDecl.mem_references {d : ClassDecl} {name : QualifiedName} :
    name ∈ d.references ↔ ∃ role, (role, name) ∈ d.inheritances := by
  simp [references_eq]

theorem ClassDecl.Alike.inheritances {d d' : ClassDecl} (h : d.Alike d') :
    d'.inheritances = d.inheritances := by
  rw [ClassDecl.inheritances, ClassDecl.inheritances, h.parent, h.interfaces]

/-- Rules are broken by declared shapes, not by values. -/
theorem Role.violation?_alike {role : Role} {d d' base base' : ClassDecl} (h : d.Alike d')
    (hb : base.Alike base') : role.violation? d' base' = role.violation? d base := by
  cases role with
  | parent =>
    simp only [violation?, ClassDecl.parentViolation?]
    rw [h.kind, hb.kind, hb.name, hb.isFinal]
  | interface =>
    simp only [violation?, ClassDecl.interfaceViolation?]
    rw [hb.kind, hb.name]

end Lineage
