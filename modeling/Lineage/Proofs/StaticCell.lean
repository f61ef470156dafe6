/-
Static properties as cells.

A static property is kept once, by the class that declares it, and all classes
that take it from there share it.  The storage of a class is created when it is
first asked for, by a write as well as by a read, and through any class below.
`storage` is what is or will be in it, so that the moment of creation does not
show: each operation on static values is a write of `storage` with at most one
cell changed.

The theorem of this file is `Run.static_cell`: writing to the cell that a class
takes a property from finds one, shows in every reading that comes to the same cell
and in no other, changes nothing else, and lasts until the next write to it.
`Stocked` is why there is a cell, and `stable_storages` why nothing but the
operations on static values touches one.  Only a table that is put in the place of
a whole storage need not have the cells that the class declares.
-/
import Lineage.Proofs.Hierarchy
import Lineage.Proofs.Steady

namespace Lineage

/-! ## The cells of a declaration -/

theorem Catalog.get?_isSome_putAll {α : Type} (items : List (String × α)) (c : Catalog α)
    (name : String) :
    ((c.putAll items).get? name).isSome = true ↔
      (c.get? name).isSome = true ∨ name ∈ items.map Prod.fst := by
  induction items generalizing c with
  | nil => simp [putAll]
  | cons item rest ih =>
    have hstep : c.putAll (item :: rest) = (c.put item.1 item.2).putAll rest := rfl
    rw [hstep, ih, get?_put, List.map_cons, List.mem_cons]
    by_cases hname : name = item.1 <;> simp [hname]

/-- A first storage has a cell for every static property that is found under its
name. -/
theorem StaticTable.get?_ofDecl_isSome {d : ClassDecl} {name : String}
    (h : Registry.declaresStatic d name = true) : ((ofDecl d).get? name).isSome = true := by
  obtain ⟨p, hp, hstatic⟩ := (Option.any_eq_true _ _).mp h
  have hmem : p ∈ d.staticProperties := List.mem_filter.mpr ⟨List.mem_of_find?_eq_some hp, hstatic⟩
  have hname : p.name = name := by simpa using List.find?_some hp
  refine (Catalog.get?_isSome_putAll _ _ name).mpr (.inr ?_)
  rw [List.map_map]
  exact List.mem_map.mpr ⟨p, hmem, hname⟩

theorem ClassDecl.Alike.declaresStatic {d d' : ClassDecl} (h : d.Alike d') (name : String) :
    Registry.declaresStatic d' name = Registry.declaresStatic d name := by
  have hfind : ∀ properties : List PropertyDecl,
      (properties.find? fun p => p.name == name).any PropertyDecl.isStatic =
        ((properties.map fun p => (p.name, p.modifiers)).find? fun p => p.1 == name).any
          fun p => p.2.isStatic := by
    intro properties
    rw [List.find?_map, Option.any_map]
    rfl
  rw [Registry.declaresStatic, Registry.declaresStatic, ClassDecl.property?, ClassDecl.property?,
    hfind, hfind, h.propertyNames]

namespace Registry

variable {r s : Registry} {c o id : ClassId} {n m name : String} {v : Value} {table : StaticTable}

/-! ## Storages -/

/-- The storage of a class, if it has been created. -/
def table? (r : Registry) (id : ClassId) : Option StaticTable :=
  (r.registration? id).bind Registration.statics

/-- What the storage of a class holds, or will hold when it is created. -/
def storage (r : Registry) (id : ClassId) : StaticTable :=
  match r.registration? id with
  | some found => found.statics.getD (.ofDecl found.decl)
  | none => .empty

theorem table?_congr (h : s.registrations = r.registrations) : s.table? = r.table? := by
  funext id
  simp [table?, registration?, h]

theorem table?_updateAt (id other : ClassId) (f : Registration → Registration)
    (hf : ∀ found, (f found).statics = found.statics) (r : Registry) :
    (r.updateAt id f).table? other = r.table? other := by
  simp only [table?, registration?_updateAt]
  by_cases h : other = id
  · cases r.registration? other <;> simp [h, hf]
  · simp [h]

theorem table?_settle (site : LazySite) (v : Value) (r : Registry) :
    (r.settle site v).table? = r.table? :=
  funext fun other => table?_updateAt site.owner other
    (fun found => { found with decl := found.decl.settle site.member v }) (fun _ => rfl) r

theorem table?_setStanding (id : ClassId) (st : Standing) (r : Registry) :
    (r.setStanding id st).table? = r.table? :=
  funext fun other => table?_updateAt id other (fun found => { found with standing := st })
    (fun _ => rfl) r

theorem table?_append (d : ClassDecl) (r : Registry) : (r.append d).table? = r.table? := by
  funext id
  by_cases hi : r.Issued id
  · rw [table?, registration?_append hi, table?]
  · rw [table?, table?, registration?_eq_none hi]
    cases hf : (r.append d).registration? id with
    | none => rfl
    | some found =>
      rcases registration?_of_append hf with hold | rfl
      · rw [registration?_eq_none hi] at hold
        cases hold
      · rfl

theorem table?_autoload (name : QualifiedName) (r : Registry) :
    (r.autoload name).table? = r.table? := by
  funext id
  unfold autoload
  split
  · rfl
  · dsimp only
    split
    · unfold registerIfFree
      split
      · rfl
      · rw [table?_append]
        rfl
    · rfl

theorem table?_endEvaluation (site : LazySite) (result : Except Error Value) (r : Registry) :
    (r.endEvaluation site result).table? = r.table? := by
  obtain ⟨q, -, hq, -, -, -, he⟩ := endEvaluation_eq site result r
  rw [he, ← table?_congr hq]
  cases result with
  | ok v => exact table?_settle site v q
  | error e => rfl

theorem table?_endLinking (id : ClassId) (result : Except Error Links) (r : Registry) :
    (r.endLinking id result).table? = r.table? := by
  rw [endLinking_eq, table?_setStanding]
  rfl

/-- Whatever is looked up, computed or linked, storages stay as they are. -/
theorem stable_storages (Q : (ClassId → Option StaticTable) → Prop) :
    Stable fun r => Q r.table? where
  autoload name r _ h := by rw [table?_autoload]; exact h
  note label r h := h
  began site r h := h
  ended site result r h := by rw [table?_endEvaluation]; exact h
  classNotFound _ := trivial
  noParentScope _ := trivial
  undefinedConstant _ _ := trivial
  circularConstant _ _ := trivial
  failed _ _ _ _ _ := trivial
  source _ _ _ _ _ := Program.raises_of_forall (fun _ => trivial) _
  beganLinking id r h := h
  endedLinking id result r h := by rw [table?_endLinking]; exact h

theorem brings_storages (Q : (ClassId → Option StaticTable) → Prop) {op : Operation}
    (hop : op.isStatic = false) : Brings (fun r => Q r.table?) op where
  declared d _ r h _ := by
    rw [table?_append]
    exact h
  hooked _ _ r h := h
  statics h := by rw [hop] at h; cases h

/-! ## Writing a storage -/

theorem registration?_setStatics (id other : ClassId) (table : StaticTable) (r : Registry) :
    (r.setStatics id table).registration? other =
      if other = id then
        (r.registration? other).map fun found => { found with statics := some table }
      else r.registration? other :=
  registration?_updateAt id other _ r

theorem table?_setStatics (hi : r.Issued id) (other : ClassId) :
    (r.setStatics id table).table? other = if other = id then some table else r.table? other := by
  rw [table?, registration?_setStatics]
  by_cases h : other = id
  · obtain ⟨found, hf⟩ := issued_iff.mp hi
    rw [if_pos h, if_pos h, h, hf]
    rfl
  · rw [if_neg h, if_neg h, table?]

theorem storage_setStatics (hi : r.Issued id) (other : ClassId) :
    (r.setStatics id table).storage other = if other = id then table else r.storage other := by
  unfold storage
  rw [registration?_setStatics]
  by_cases h : other = id
  · obtain ⟨found, hf⟩ := issued_iff.mp hi
    rw [if_pos h, if_pos h, h, hf]
    rfl
  · rw [if_neg h, if_neg h]

theorem storage_of_table? (h : r.table? id = some table) : r.storage id = table := by
  obtain ⟨found, hf, hs⟩ := Option.bind_eq_some_iff.mp h
  rw [storage, hf]
  dsimp only
  rw [hs, Option.getD_some]

theorem storage_of_untouched {d : ClassDecl} (hd : r.decl? id = some d) (h : r.table? id = none) :
    r.storage id = .ofDecl d := by
  obtain ⟨found, hf, rfl⟩ := Option.map_eq_some_iff.mp hd
  rw [table?, hf, Option.bind_some] at h
  rw [storage, hf]
  dsimp only
  rw [h, Option.getD_none]

theorem setStatics_setStatics (id : ClassId) (first second : StaticTable) (r : Registry) :
    (r.setStatics id first).setStatics id second = r.setStatics id second := by
  simp only [setStatics, updateAt, List.modify_modify_eq]
  rfl

/-- Writing back what is there changes nothing. -/
theorem setStatics_of_table? (h : r.table? id = some table) : r.setStatics id table = r := by
  obtain ⟨found, hf, hs⟩ := Option.bind_eq_some_iff.mp h
  have hmodify : r.registrations.modify id.index
      (fun found => { found with statics := some table }) = r.registrations := by
    refine List.ext_getElem? fun i => ?_
    rw [List.getElem?_modify]
    split
    · rename_i hi
      rw [← hi, show r.registrations[id.index]? = some found from hf, ← hs]
      rfl
    · simp
  rw [setStatics, updateAt, hmodify]

theorem links_setStatics (id : ClassId) (table : StaticTable) (r : Registry) :
    (r.setStatics id table).links = r.links := by
  funext c
  unfold links registration
  rw [registration?_setStatics]
  by_cases h : c = id
  · rw [if_pos h]
    cases r.registration? c <;> rfl
  · rw [if_neg h]

theorem decl_setStatics (id : ClassId) (table : StaticTable) (r : Registry) :
    (r.setStatics id table).decl = r.decl := by
  funext c
  unfold decl registration
  rw [registration?_setStatics]
  by_cases h : c = id
  · rw [if_pos h]
    cases r.registration? c <;> rfl
  · rw [if_neg h]

/-- Asking for the storage of a resolved class gives it, and it is there from then
on. -/
theorem statics_of_resolved {links : Links} (hc : r.Resolved c links) :
    statics c r = .value (r.storage c) (r.setStatics c (r.storage c)) := by
  obtain ⟨found, hf, -⟩ := Option.map_eq_some_iff.mp hc
  have hlinks : (Eval.ask (·.links c)) r = .value links r := by
    rw [Eval.ask, links_eq_ok_iff.mpr hc]
  unfold statics
  rw [Eval.bind_apply, hlinks]
  dsimp only
  rw [registration_bind hf]
  cases hs : found.statics with
  | some table =>
    have htable : r.table? c = some table := by rw [table?, hf]; exact hs
    rw [storage_of_table? htable, setStatics_of_table? htable]
    rfl
  | none =>
    have hstorage : r.storage c = .ofDecl found.decl := by
      rw [storage, hf]
      dsimp only
      rw [hs, Option.getD_none]
    rw [hstorage]
    rfl

theorem statics_of_error {f : Fault} (h : r.links c = .error f) : statics c r = .failure f r := by
  unfold statics
  rw [Eval.bind_apply, Eval.ask, h]

theorem answer?_statics (c : ClassId) (r : Registry) :
    (statics c r).answer? = some ((r.links c).map fun _ => r.storage c) := by
  cases hl : r.links c with
  | error f =>
    rw [statics_of_error hl]
    rfl
  | ok links =>
    rw [statics_of_resolved (links_eq_ok_iff.mp hl)]
    rfl

/-! ## Owners -/

/-- The owner of a static property is a resolved class that declares it, and
looking for it changes nothing. -/
theorem staticOwner_meets (name : String) (depth : Nat) (r : Registry) :
    ∀ c, (staticOwner name depth c r).Meets
      (fun owner s => r = s ∧ ∀ o ∈ owner, (∃ links, r.Resolved o links) ∧
        ∃ d, r.decl? o = some d ∧ declaresStatic d name = true)
      (fun _ s => r = s) True := by
  induction depth with
  | zero => exact fun _ => trivial
  | succ depth ih =>
    intro c
    refine Eval.meets_bind (Eval.meets_ask (Q := fun links s => r = s ∧ r.Resolved c links)
      (fun links hl => ⟨rfl, links_eq_ok_iff.mp hl⟩) fun _ _ => rfl) ?_
    rintro links _ ⟨rfl, hl⟩
    refine Eval.meets_bind (Eval.meets_ask (Q := fun d s => r = s ∧ r.decl? c = some d)
      (fun d hd => ⟨rfl, decl_eq_ok_iff.mp hd⟩) fun _ _ => rfl) ?_
    rintro d _ ⟨rfl, hd⟩
    split
    · rename_i hdeclares
      refine ⟨rfl, fun o ho => ?_⟩
      cases ho
      exact ⟨⟨links, hl⟩, d, hd, hdeclares⟩
    · cases links.parent with
      | some parent => exact ih parent
      | none => exact ⟨rfl, fun o ho => by cases ho⟩

/-- The owner depends on links and declarations only. -/
theorem staticOwner_congr (hlinks : s.links = r.links) (hdecl : s.decl = r.decl) (name : String)
    (depth : Nat) :
    ∀ c, (staticOwner name depth c s).answer? = (staticOwner name depth c r).answer? := by
  induction depth with
  | zero => exact fun _ => rfl
  | succ depth ih =>
    intro c
    simp only [staticOwner, Eval.bind_apply, Eval.ask, hlinks]
    cases r.links c with
    | error f => rfl
    | ok links =>
      simp only [hdecl]
      cases r.decl c with
      | error f => rfl
      | ok d =>
        dsimp only
        split
        · rfl
        · cases links.parent with
          | some parent => exact ih parent
          | none => rfl

/-- A class takes a static property from the second class. -/
def TakesFrom (r : Registry) (depth : Nat) (c o : ClassId) (name : String) : Prop :=
  (staticOwner name depth c r).answer? = some (.ok (some o))

theorem TakesFrom.owner {depth : Nat} (h : r.TakesFrom depth c o name) :
    staticOwner name depth c r = .value (some o) r ∧ (∃ links, r.Resolved o links) ∧
      ∃ d, r.decl? o = some d ∧ declaresStatic d name = true := by
  have hmeets := staticOwner_meets name depth r c
  unfold TakesFrom at h
  cases hrun : staticOwner name depth c r with
  | value owner s =>
    rw [hrun] at h hmeets
    cases h
    obtain ⟨rfl, howner⟩ := hmeets
    exact ⟨rfl, howner o rfl⟩
  | failure f s => rw [hrun] at h; cases h
  | tooDeep => rw [hrun] at h; cases h

/-- A reading is answered from what the owner's storage holds or will hold. -/
theorem answer?_staticProperty (depth : Nat) (c : ClassId) (name : String) (r : Registry) :
    (staticProperty depth c name r).answer? =
      (staticOwner name depth c r).answer?.map
        (Except.map fun owner => owner.bind fun o => (r.storage o).get? name) := by
  have hmeets := staticOwner_meets name depth r c
  unfold staticProperty
  rw [Eval.bind_apply]
  cases hrun : staticOwner name depth c r with
  | value owner s =>
    rw [hrun] at hmeets
    obtain ⟨rfl, howner⟩ := hmeets
    cases owner with
    | none => rfl
    | some o =>
      obtain ⟨⟨links, hl⟩, -⟩ := howner o rfl
      dsimp only
      rw [Eval.bind_apply, statics_of_resolved hl]
      rfl
  | failure f s => rfl
  | tooDeep => rfl

/-! ## There is a cell for every declared property -/

/-- If the storage of the class has been created and the class declares the static
property, then the storage has a cell for it. -/
def Stocked (r : Registry) (o : ClassId) (n : String) : Prop :=
  ∀ d table, r.decl? o = some d → r.table? o = some table → declaresStatic d n = true →
    (table.get? n).isSome = true

theorem Stocked.of_extends (h : r.Stocked o n) (hs : r.Extends s) (htable : s.table? = r.table?) :
    s.Stocked o n := by
  intro d' table hd' ht hdeclares
  rw [htable] at ht
  obtain ⟨found, hf, -⟩ := Option.bind_eq_some_iff.mp ht
  obtain ⟨d, hd⟩ := issued_iff_decl?.mp (issued_iff.mpr ⟨found, hf⟩)
  obtain ⟨d'', hd'', hset⟩ := hs.declared hd
  rw [hd'] at hd''
  cases hd''
  rw [hset.alike.declaresStatic] at hdeclares
  exact h d table hd ht hdeclares

/-- The storage may be replaced by one that has the cell, too. -/
theorem Stocked.setStatics (h : r.Stocked o n) (hi : r.Issued id)
    (htable : ∀ d, id = o → r.decl? o = some d → declaresStatic d n = true →
      (table.get? n).isSome = true) : (r.setStatics id table).Stocked o n := by
  intro d table' hd ht hdeclares
  rw [decl?_setStatics] at hd
  rw [table?_setStatics hi] at ht
  by_cases ho : o = id
  · rw [if_pos ho] at ht
    cases ht
    exact htable d ho.symm hd hdeclares
  · rw [if_neg ho] at ht
    exact h d table' hd ht hdeclares

theorem Compute.table? (h : Compute r s) : s.table? = r.table? := by
  cases h with
  | load h =>
    cases h with
    | requested hook unbound => rfl
    | registered free => exact table?_append _ r
  | noted label => rfl
  | began pending usable fresh => rfl
  | ended innermost result => exact table?_endEvaluation _ result r

/-- The cell is there even before the storage is. -/
theorem Stocked.exists_cell (h : r.Stocked o n) {d : ClassDecl} (hd : r.decl? o = some d)
    (hdeclares : declaresStatic d n = true) : ∃ v, (r.storage o).get? n = some v := by
  rw [← Option.isSome_iff_exists]
  obtain ⟨found, hf, rfl⟩ := Option.map_eq_some_iff.mp hd
  cases hs : found.statics with
  | some table =>
    have ht : r.table? o = some table := by rw [table?, hf]; exact hs
    rw [storage_of_table? ht]
    exact h found.decl table hd ht hdeclares
  | none =>
    rw [storage, hf]
    dsimp only
    rw [hs]
    exact StaticTable.get?_ofDecl_isSome hdeclares

/-! ## One operation on static values -/

/-- The table that an operation on static values leaves a class with, if it
touches the storage of the class. -/
inductive Leaves (r : Registry) (depth : Nat) : Operation → ClassId → StaticTable → Prop where
  | statics (c : ClassId) : Leaves r depth (.statics c) c (r.storage c)
  | setStatic (c : ClassId) (name : String) (v : Value) :
    Leaves r depth (.setStatic c name v) c ((r.storage c).put name v)
  | replaceStatics (c : ClassId) (table : StaticTable) :
    Leaves r depth (.replaceStatics c table) c table
  | staticProperty {c o : ClassId} {name : String} (owner : r.TakesFrom depth c o name) :
    Leaves r depth (.staticProperty c name) o (r.storage o)
  | setStaticProperty {c o : ClassId} {name : String} (owner : r.TakesFrom depth c o name)
      (v : Value) :
    Leaves r depth (.setStaticProperty c name v) o ((r.storage o).replace name v)

/-- The storage of at most one class has been touched, which is resolved. -/
def Leaves.Ends (r : Registry) (depth : Nat) (op : Operation) (s : Registry) : Prop :=
  r = s ∨ ∃ id links table, r.Resolved id links ∧ r.Leaves depth op id table ∧
    s = r.setStatics id table

/-- Reading a storage, and then writing another one in its place. -/
theorem statics_bind_meets {α : Type} (id : ClassId) (f : StaticTable → StaticTable)
    (answer : StaticTable → α) (r : Registry) :
    ((do
      let table ← statics id
      .modify (setStatics id (f table))
      pure (answer table) : Eval Registry α) r).Meets
      (fun _ s => ∃ links, r.Resolved id links ∧ s = r.setStatics id (f (r.storage id)))
      (fun _ s => r = s) False := by
  rw [Eval.bind_apply]
  cases hl : r.links id with
  | error fault =>
    rw [statics_of_error hl]
    rfl
  | ok links =>
    rw [statics_of_resolved (links_eq_ok_iff.mp hl)]
    exact ⟨links, links_eq_ok_iff.mp hl, setStatics_setStatics id _ _ r⟩

theorem statics_leaves (id : ClassId) (r : Registry) :
    (statics id r).Meets
      (fun _ s => ∃ links, r.Resolved id links ∧ s = r.setStatics id (r.storage id))
      (fun _ s => r = s) False := by
  cases hl : r.links id with
  | error fault =>
    rw [statics_of_error hl]
    rfl
  | ok links =>
    rw [statics_of_resolved (links_eq_ok_iff.mp hl)]
    exact ⟨links, links_eq_ok_iff.mp hl, rfl⟩

/-- What the search for the owner finds, and that it changes nothing. -/
theorem staticOwner_takesFrom (name : String) (depth : Nat) (c : ClassId) (r : Registry) :
    (staticOwner name depth c r).Meets
      (fun owner s => r = s ∧ ∀ o ∈ owner, r.TakesFrom depth c o name) (fun _ s => r = s) True := by
  have hmeets := staticOwner_meets name depth r c
  cases hrun : staticOwner name depth c r with
  | value owner s =>
    rw [hrun] at hmeets
    obtain ⟨rfl, -⟩ := hmeets
    refine ⟨rfl, fun o ho => ?_⟩
    cases ho
    rw [TakesFrom, hrun]
    rfl
  | failure fault s =>
    rw [hrun] at hmeets
    exact hmeets
  | tooDeep => trivial

/-- An operation on static values writes one storage or none, and after a failure
the registry is what it was. -/
theorem perform_leaves {op : Operation} (hop : op.isStatic = true) (depth : Nat) (r : Registry) :
    (perform depth op r).Meets (fun _ => Leaves.Ends r depth op) (fun _ s => r = s) True := by
  cases op with
  | statics id =>
    refine Eval.meets_bind ((statics_leaves id r).imp (fun _ _ h => h) (fun _ _ h => h)
      False.elim) ?_
    rintro _ _ ⟨links, hl, rfl⟩
    exact .inr ⟨id, links, _, hl, .statics id, rfl⟩
  | setStatic id name v =>
    refine Eval.meets_bind ((statics_bind_meets id (·.put name v) (·.get? name) r).imp
      (fun _ _ h => h) (fun _ _ h => h) False.elim) ?_
    rintro _ _ ⟨links, hl, rfl⟩
    exact .inr ⟨id, links, _, hl, .setStatic id name v, rfl⟩
  | replaceStatics id table =>
    refine Eval.meets_bind ((statics_bind_meets id (fun _ => table) (fun before => before) r).imp
      (fun _ _ h => h) (fun _ _ h => h) False.elim) ?_
    rintro _ _ ⟨links, hl, rfl⟩
    exact .inr ⟨id, links, _, hl, .replaceStatics id table, rfl⟩
  | staticProperty id name =>
    refine Eval.meets_bind (Q := fun _ => Leaves.Ends r depth (.staticProperty id name))
      (Eval.meets_bind (staticOwner_takesFrom name depth id r) ?_) fun _ _ h => h
    rintro owner _ ⟨rfl, howner⟩
    cases owner with
    | none => exact .inl rfl
    | some o =>
      refine Eval.meets_bind ((statics_leaves o r).imp (fun _ _ h => h) (fun _ _ h => h)
        False.elim) ?_
      rintro _ _ ⟨links, hl, rfl⟩
      exact .inr ⟨o, links, _, hl, .staticProperty (howner o rfl), rfl⟩
  | setStaticProperty id name v =>
    refine Eval.meets_bind (Q := fun _ => Leaves.Ends r depth (.setStaticProperty id name v))
      (Eval.meets_bind (staticOwner_takesFrom name depth id r) ?_) fun _ _ h => h
    rintro owner _ ⟨rfl, howner⟩
    cases owner with
    | none => exact .inl rfl
    | some o =>
      refine (statics_bind_meets o (·.replace name v) (·.get? name) r).imp ?_ (fun _ _ h => h)
        False.elim
      rintro _ _ ⟨links, hl, rfl⟩
      exact .inr ⟨o, links, _, hl, .setStaticProperty (howner o rfl) v, rfl⟩
  | _ => cases hop

/-! ## Cells are kept -/

/-- A storage that is left with at most one cell changed still has its cells, and so
the cell is there unless the table that is put in the place of the storage lacks it. -/
theorem Stocked.leaves (h : r.Stocked o n) {depth : Nat} {op : Operation}
    (hop : ∀ table, op = .replaceStatics o table → (table.get? n).isSome = true)
    (hl : r.Leaves depth op o table) {d : ClassDecl} (hd : r.decl? o = some d)
    (hdeclares : declaresStatic d n = true) : (table.get? n).isSome = true := by
  obtain ⟨v, hv⟩ := h.exists_cell hd hdeclares
  cases hl with
  | statics | staticProperty owner => rw [hv]; rfl
  | setStatic c name w =>
    rw [StaticTable.get?_put]
    split
    · rfl
    · rw [hv]; rfl
  | setStaticProperty owner w =>
    rw [StaticTable.get?_replace, hv]
    split <;> rfl
  | replaceStatics => exact hop _ rfl

theorem Stocked.perform (h : r.Stocked o n) (hr : r.Indexed) {depth : Nat} {op : Operation}
    (hop : ∀ table, op = .replaceStatics o table → (table.get? n).isSome = true) :
    (perform depth op r).Meets (fun _ s => s.Stocked o n) (fun _ s => s.Stocked o n) True := by
  by_cases hstatic : op.isStatic = true
  · refine (perform_leaves hstatic depth r).imp ?_ (fun _ _ hs => hs ▸ h) id
    rintro _ _ (rfl | ⟨c, links, table, hc, hleaves, rfl⟩)
    · exact h
    · exact h.setStatics (.of_standing? hc) fun d ho hd => h.leaves hop (ho ▸ hleaves) hd
  · have hsame := (stable_storages (· = r.table?)).perform
      (brings_storages (· = r.table?) (by simpa using hstatic)) depth r rfl
    refine ((perform_advances depth op hr).and hsame).imp ?_ ?_ And.left
    · exact fun _ _ hs => h.of_extends hs.1.grows hs.2
    · exact fun _ _ hs => h.of_extends hs.1.grows hs.2.1

/-- As long as every table that is put in the place of the storage has the cell, a
declared property has one. -/
theorem Run.stocked {config : Config} {ops : List Operation} (h : Run (new config) ops r)
    (hops : ∀ table, .replaceStatics o table ∈ ops → (table.get? n).isSome = true) :
    r.Stocked o n := by
  suffices ∀ s, s.Stocked o n → s.Indexed → Run s ops r → r.Stocked o n from
    this (new config) (fun d table hd => by cases hd) (indexed_new config) h
  clear h
  induction ops with
  | nil =>
    intro s hs _ hrun
    cases hrun
    exact hs
  | cons op ops ih =>
    intro s hs hi hrun
    cases hrun with
    | cons depth first rest =>
      have hop : ∀ table, op = .replaceStatics o table → (table.get? n).isSome = true :=
        fun table heq => hops table (heq ▸ List.mem_cons_self)
      have hstep := Outcome.Meets.of_state? (P := fun s => s.Stocked o n) (hs.perform hi hop) first
      have hadv := Outcome.Meets.of_state? (perform_advances depth op hi) first
      exact ih (fun table hmem => hops table (List.mem_cons_of_mem _ hmem)) _ hstep
        (hadv.indexed hi) rest

/-! ## One cell -/

/-- The cell has been created and has the value. -/
def Holds (r : Registry) (o : ClassId) (n : String) (v : Value) : Prop :=
  ∃ table, r.table? o = some table ∧ table.get? n = some v

theorem Holds.get?_storage (h : r.Holds o n v) : (r.storage o).get? n = some v := by
  obtain ⟨table, ht, hv⟩ := h
  rw [storage_of_table? ht, hv]

theorem Holds.setStatics (h : r.Holds o n v) (hi : r.Issued id)
    (htable : id = o → table.get? n = some v) : (r.setStatics id table).Holds o n v := by
  by_cases ho : o = id
  · exact ⟨table, by rw [table?_setStatics hi, if_pos ho], htable ho.symm⟩
  · obtain ⟨old, hold, hv⟩ := h
    exact ⟨old, by rw [table?_setStatics hi, if_neg ho, hold], hv⟩

/-- The operation gives the cell a value, or puts another table in the place of
the storage that it is in. -/
def Writes (r : Registry) (depth : Nat) (o : ClassId) (n : String) : Operation → Prop
  | .setStatic id name _ => id = o ∧ name = n
  | .replaceStatics id _ => id = o
  | .setStaticProperty id name _ => name = n ∧ r.TakesFrom depth id o name
  | _ => False

/-- A run in which no operation writes the cell. -/
inductive Bypasses (o : ClassId) (n : String) : Registry → List Operation → Registry → Prop where
  | nil (r : Registry) : Bypasses o n r [] r
  | cons {r s t : Registry} {op : Operation} {ops : List Operation} (depth : Nat)
      (other : ¬ r.Writes depth o n op) (first : (perform depth op r).state? = some s)
      (rest : Bypasses o n s ops t) : Bypasses o n r (op :: ops) t

theorem Bypasses.run {ops : List Operation} (h : Bypasses o n r ops s) : Run r ops s := by
  induction h with
  | nil r => exact .nil r
  | cons depth other first rest ih => exact .cons depth first ih

/-- An operation that does not write the cell leaves it in the table of its
class. -/
theorem Holds.leaves (h : r.Holds o n v) {depth : Nat} {op : Operation}
    (hop : ¬ r.Writes depth o n op) (hl : r.Leaves depth op o table) : table.get? n = some v := by
  cases hl with
  | statics | staticProperty owner => exact h.get?_storage
  | setStatic c name w =>
    have hname : n ≠ name := fun heq => hop ⟨rfl, heq.symm⟩
    rw [StaticTable.get?_put, if_neg hname, h.get?_storage]
  | replaceStatics c table => exact absurd rfl hop
  | @setStaticProperty c _ name owner w =>
    have hname : n ≠ name := fun heq => hop ⟨heq.symm, owner⟩
    rw [StaticTable.get?_replace, if_neg hname, h.get?_storage]

/-- No operation but a write to the cell changes it. -/
theorem Holds.perform (h : r.Holds o n v) {depth : Nat} {op : Operation}
    (hop : ¬ r.Writes depth o n op) :
    (perform depth op r).Meets (fun _ s => s.Holds o n v) (fun _ s => s.Holds o n v) True := by
  by_cases hstatic : op.isStatic = true
  · refine (perform_leaves hstatic depth r).imp ?_ (fun _ _ hs => hs ▸ h) id
    rintro _ _ (rfl | ⟨c, links, table, hc, hleaves, rfl⟩)
    · exact h
    · exact h.setStatics (.of_standing? hc) fun hco => h.leaves hop (hco ▸ hleaves)
  · have hstable := stable_storages fun tables =>
      ∃ table, tables o = some table ∧ table.get? n = some v
    have hbrings := brings_storages (fun tables =>
      ∃ table, tables o = some table ∧ table.get? n = some v) (by simpa using hstatic)
    exact (hstable.perform hbrings depth r h).imp (fun _ _ hs => hs) (fun _ _ hs => hs.1) id

theorem Bypasses.holds {ops : List Operation} (h : Bypasses o n r ops s) (hr : r.Holds o n v) :
    s.Holds o n v := by
  induction h with
  | nil => exact hr
  | cons depth other first rest ih =>
    exact ih (Outcome.Meets.of_state? (P := fun s => s.Holds o n v) (hr.perform other) first)

/-! ## One write -/

/-- The cell has the value, seen from any class that takes the property from its
owner, and in the storage of the owner. -/
structure Shows (r : Registry) (o : ClassId) (n : String) (v : Value) : Prop where
  shared : ∀ depth c, r.TakesFrom depth c o n →
    (staticProperty depth c n r).answer? = some (.ok (some v))
  held : ∃ table, (statics o r).answer? = some (.ok table) ∧ table.get? n = some v

theorem Holds.shows (h : r.Holds o n v) {links : Links} (ho : r.Resolved o links) :
    Shows r o n v where
  shared depth c hc := by
    rw [answer?_staticProperty, hc]
    exact congrArg (fun found => some (Except.ok found)) h.get?_storage
  held := by
    refine ⟨r.storage o, ?_, h.get?_storage⟩
    rw [answer?_statics, links_eq_ok_iff.mpr ho]
    rfl

/-- What writing `v` to the cell of class `o` under `n` does to a registry. -/
structure Written (r s : Registry) (o : ClassId) (n : String) (v : Value) : Prop where
  shows : Shows s o n v
  /-- A reading that comes to another cell, or to none, gives what it would have
  given. -/
  others : ∀ depth c m, ¬ (m = n ∧ r.TakesFrom depth c o m) →
    (staticProperty depth c m s).answer? = (staticProperty depth c m r).answer?
  owners : ∀ depth c m,
    (staticOwner m depth c s).answer? = (staticOwner m depth c r).answer?
  storages : ∀ c, c ≠ o → (statics c s).answer? = (statics c r).answer?
  /-- The storage of the owner has the same cells as before. -/
  cells : ∃ before after, (statics o r).answer? = some (.ok before) ∧
    (statics o s).answer? = some (.ok after) ∧
    after.cells.names = before.cells.names ∧
    ∀ m, after.get? m = if m = n then some v else before.get? m
  standing : ∀ c, s.standing? c = r.standing? c
  declared : ∀ c, s.decl? c = r.decl? c
  /-- Nothing but the storage of the owner has been touched. -/
  elsewhere : ∃ table, s = r.setStatics o table
  /-- The value stays until the next write to the cell. -/
  lasts : ∀ ops t, Bypasses o n s ops t → Shows t o n v

theorem TakesFrom.written {depth : Nat} (hr : r.Stocked o n) (hindexed : r.Indexed)
    (h : r.TakesFrom depth c o n) (v : Value) :
    ∃ old s, setStaticProperty depth c n v r = .value (some old) s ∧ Written r s o n v := by
  obtain ⟨hrun, ⟨links, ho⟩, d, hd, hdeclares⟩ := h.owner
  obtain ⟨old, hold⟩ := hr.exists_cell hd hdeclares
  have hi : r.Issued o := .of_standing? ho
  let table := (r.storage o).replace n v
  have hcell : ∀ m, table.get? m = if m = n then some v else (r.storage o).get? m := by
    intro m
    rw [StaticTable.get?_replace]
    by_cases hm : m = n
    · rw [if_pos hm, if_pos hm, hm, hold]
      rfl
    · rw [if_neg hm, if_neg hm]
  have howner : ∀ depth c m,
      (staticOwner m depth c (r.setStatics o table)).answer? = (staticOwner m depth c r).answer? :=
    fun depth c m => staticOwner_congr (links_setStatics o table r) (decl_setStatics o table r)
      m depth c
  have hstatics : ∀ c, (statics c (r.setStatics o table)).answer? =
      some ((r.links c).map fun _ => if c = o then table else r.storage c) := by
    intro c
    rw [answer?_statics, links_setStatics, storage_setStatics hi]
  have hstanding : ∀ c, (r.setStatics o table).standing? c = r.standing? c :=
    fun c => standing?_setStatics o c table r
  have holds : (r.setStatics o table).Holds o n v := by
    refine ⟨table, by rw [table?_setStatics hi, if_pos rfl], ?_⟩
    rw [hcell, if_pos rfl]
  have hresolved : (r.setStatics o table).Resolved o links := (hstanding o).trans ho
  refine ⟨old, r.setStatics o table, ?_, holds.shows hresolved, fun depth c m hm => ?_, howner,
    fun c hc => ?_, ⟨r.storage o, table, ?_, ?_, Catalog.names_modify _ _ _, hcell⟩, hstanding,
    fun c => decl?_setStatics o c table r, ⟨table, rfl⟩, fun ops t hrest => ?_⟩
  · unfold setStaticProperty
    rw [Eval.bind_apply, hrun]
    dsimp only
    rw [Eval.bind_apply, statics_of_resolved ho]
    dsimp only
    rw [Eval.bind_apply, Eval.modify_apply, setStatics_setStatics, hold]
    rfl
  · rw [answer?_staticProperty, answer?_staticProperty, howner]
    cases hanswer : (staticOwner m depth c r).answer? with
    | none => rfl
    | some answer =>
      match answer with
      | .error f => rfl
      | .ok none => rfl
      | .ok (some other) =>
        have hsame : ((r.setStatics o table).storage other).get? m =
            (r.storage other).get? m := by
          rw [storage_setStatics hi]
          by_cases hother : other = o
          · have hne : m ≠ n := fun hmn => hm ⟨hmn, by rw [TakesFrom, hanswer, hother]⟩
            rw [if_pos hother, hcell, if_neg hne, hother]
          · rw [if_neg hother]
        exact congrArg (fun found => some (Except.ok found)) hsame
  · rw [hstatics, if_neg hc, answer?_statics]
  · rw [answer?_statics, links_eq_ok_iff.mpr ho]
    rfl
  · rw [hstatics, links_eq_ok_iff.mpr ho, if_pos rfl]
    rfl
  · have hgrows := (hrest.run.advances ?_).grows
    · exact (hrest.holds holds).shows (hgrows.resolved hresolved)
    · exact hindexed.of_extends (extends_setStatics o table r) rfl

/-- Whatever has been done to a registry, except that the storage of the owner has been
replaced by one that lacks the cell: if a class takes a static property from the owner,
a value that is written through it is found by all that take it from there, and by
nothing else, until the cell is written again. -/
theorem Run.static_cell {config : Config} {ops : List Operation} (h : Run (new config) ops r)
    (hops : ∀ table, .replaceStatics o table ∈ ops → (table.get? n).isSome = true) {depth : Nat}
    (hc : r.TakesFrom depth c o n) (v : Value) :
    ∃ old s, setStaticProperty depth c n v r = .value (some old) s ∧ Written r s o n v :=
  hc.written (h.stocked hops) h.idle.1 v

/-- An empty table is put in the place of a storage.  The property still has an
owner, and there is no cell to write to. -/
theorem Run.static_cell_missing :
    let decl : ClassDecl :=
      .addProperty { name := "n", modifiers := .staticBit, default := some (.settled (.int 1)) }
        { name := ⟨"A"⟩ }
    ∃ r, Run (new {}) [.register decl, .resolveAll, .replaceStatics ⟨0⟩ .empty] r ∧
      r.TakesFrom 1 ⟨0⟩ ⟨0⟩ "n" ∧
      ¬ ∃ old s, setStaticProperty 1 ⟨0⟩ "n" (.int 7) r = .value (some old) s := by
  intro decl
  have hrun : (performAll 9 [.register decl, .resolveAll, .replaceStatics ⟨0⟩ .empty]
      (new {})).map (fun r => ((staticOwner "n" 1 ⟨0⟩ r).answer?,
        (setStaticProperty 1 ⟨0⟩ "n" (.int 7) r).answer?)) =
      some (some (.ok (some ⟨0⟩)), some (.ok none)) := rfl
  obtain ⟨r, hr, hresults⟩ := Option.map_eq_some_iff.mp hrun
  rw [Prod.mk.injEq] at hresults
  refine ⟨r, .of_performAll hr, hresults.1, ?_⟩
  rintro ⟨old, s, hwrite⟩
  rw [hwrite] at hresults
  cases hresults.2

/-- A class writes to the property of its parent, before any storage has been
created; a class below declares the property again and keeps its own. -/
theorem Run.static_cell_of_parent :
    let decls : List ClassDecl :=
      [.addProperty { name := "n", modifiers := .staticBit, default := some (.settled (.int 1)) }
          { name := ⟨"A"⟩ },
        { name := ⟨"B"⟩, parent := some ⟨"A"⟩ },
        .addProperty { name := "n", modifiers := .staticBit }
          { name := ⟨"C"⟩, parent := some ⟨"B"⟩ }]
    ∃ r old s, Run (new {}) (decls.map .register ++ [.resolveAll]) r ∧
      r.TakesFrom 3 ⟨1⟩ ⟨0⟩ "n" ∧
      setStaticProperty 3 ⟨1⟩ "n" (.int 7) r = .value (some old) s ∧
      Written r s ⟨0⟩ "n" (.int 7) ∧
      (staticProperty 3 ⟨0⟩ "n" s).answer? = some (.ok (some (.int 7))) ∧
      (staticProperty 3 ⟨2⟩ "n" s).answer? = some (.ok (some .null)) := by
  intro decls
  have hrun : (performAll 9 (decls.map .register ++ [.resolveAll]) (new {})).map (fun r =>
      ([⟨0⟩, ⟨1⟩, ⟨2⟩].map fun c => (staticOwner "n" 3 c r).answer?,
        (staticProperty 3 ⟨2⟩ "n" r).answer?)) =
      some ([some (.ok (some ⟨0⟩)), some (.ok (some ⟨0⟩)), some (.ok (some ⟨2⟩))],
        some (.ok (some .null))) := rfl
  obtain ⟨r, hr, hresults⟩ := Option.map_eq_some_iff.mp hrun
  rw [Prod.mk.injEq] at hresults
  obtain ⟨howners, hread⟩ := hresults
  simp only [List.map_cons, List.map_nil, List.cons.injEq, and_true] at howners
  obtain ⟨hfirst, hsecond, hthird⟩ := howners
  have hrun : Run (new {}) _ r := .of_performAll hr
  obtain ⟨old, s, hwrite, hwritten⟩ :=
    Run.static_cell hrun (fun table hmem => by simp at hmem) hsecond (.int 7)
  refine ⟨r, old, s, hrun, hsecond, hwrite, hwritten, ?_, ?_⟩
  · exact hwritten.shows.shared 3 ⟨0⟩ (by rw [TakesFrom, hwritten.owners, hfirst])
  · rw [hwritten.others 3 ⟨2⟩ "n" ?_, hread]
    rintro ⟨-, hthird'⟩
    rw [TakesFrom, hthird] at hthird'
    cases hthird'

end Registry
end Lineage
