/-
What a storage of static values starts out with.

A storage is created when it is first asked for, from the declaration as it stands
then, and a default that is still pending would leave nothing in its cell.  It
never does.  A class has to be resolved before its storage can be asked for, no
value of a resolved class is pending, and settled values stay, so the declaration
is the same whenever that is.

The theorem of this file is `Reachable.static_seed`.  The cells are those of the
static properties of the class, in the order in which their names first come, each
with the default of the last property of its name; `FirstValue` says where the
default has its value from.
-/
import Lineage.Proofs.Once
import Lineage.Proofs.StaticCell

namespace Lineage

/-! ## Filing values one after the other -/

namespace Catalog

variable {α : Type}

theorem putAll_cons (item : String × α) (items : List (String × α)) (c : Catalog α) :
    c.putAll (item :: items) = (c.put item.1 item.2).putAll items := rfl

theorem putAll_append (items others : List (String × α)) (c : Catalog α) :
    c.putAll (items ++ others) = (c.putAll items).putAll others :=
  List.foldl_append

/-- Names in use keep their places, and the new ones follow in the order in which
they first come. -/
theorem names_putAll (items : List (String × α)) (c : Catalog α) :
    (c.putAll items).names =
      c.names ++ ((items.map Prod.fst).filter fun name => !c.contains name).eraseDups := by
  induction items generalizing c with
  | nil => simp [putAll]
  | cons item rest ih =>
    rw [putAll_cons, ih, names_put, List.map_cons, List.filter_cons]
    by_cases hused : item.1 ∈ c.names
    · have hsame : ∀ name, (c.put item.1 item.2).contains name = c.contains name := fun name => by
        rw [contains, names_put, if_pos hused, contains]
      simp [hused, hsame, contains_iff.mpr hused]
    · have hmore : ∀ name, (!(c.put item.1 item.2).contains name) =
          (!name == item.1 && !c.contains name) := fun name => by
        rw [contains, names_put, if_neg hused, contains]
        simp [Bool.and_comm, Bool.beq_eq_decide_eq]
      have hnew : c.contains item.1 = false := by
        rw [← Bool.not_eq_true, contains_iff]
        exact hused
      simp only [hused, if_false, hnew, Bool.not_false, if_true, List.eraseDups_cons, hmore,
        List.append_assoc, List.singleton_append, List.filter_filter]

theorem get?_putAll_of_notMem {items : List (String × α)} {name : String}
    (h : name ∉ items.map Prod.fst) (c : Catalog α) : (c.putAll items).get? name = c.get? name := by
  induction items generalizing c with
  | nil => rfl
  | cons item rest ih =>
    rw [List.map_cons, List.mem_cons, not_or] at h
    rw [putAll_cons, ih h.2, get?_put, if_neg h.1]

end Catalog

/-! ## The static properties of a declaration -/

namespace ClassDecl

variable {d : ClassDecl} {i : Nat} {p : PropertyDecl} {name : String}

/-- The property stands at this position and is static, and no static property of
its name comes after it. -/
def LastStatic (d : ClassDecl) (i : Nat) (p : PropertyDecl) : Prop :=
  ∃ before after, d.properties = before ++ p :: after ∧ before.length = i ∧ p.isStatic = true ∧
    ∀ q ∈ after, q.isStatic = true → q.name ≠ p.name

theorem LastStatic.lazy? (h : d.LastStatic i p) : d.lazy? (.default i) = p.default := by
  obtain ⟨before, after, hlist, rfl, -⟩ := h
  rw [ClassDecl.lazy?, hlist, List.getElem?_append_right (Nat.le_refl _), Nat.sub_self]
  rfl

/-- Of the static properties of one name there is a last one. -/
theorem exists_lastStatic (h : name ∈ d.staticProperties.map PropertyDecl.name) :
    ∃ i p, d.LastStatic i p ∧ p.name = name := by
  obtain ⟨p, hp, rfl⟩ := List.mem_map.mp h
  obtain ⟨hlisted, hstatic⟩ := List.mem_filter.mp hp
  have hsome : (d.properties.reverse.find? fun q => q.isStatic && q.name == p.name).isSome = true :=
    List.find?_isSome.mpr ⟨p, List.mem_reverse.mpr hlisted, by simp [hstatic]⟩
  obtain ⟨q, hq⟩ := Option.isSome_iff_exists.mp hsome
  obtain ⟨hq, after, before, hlist, hlast⟩ := List.find?_eq_some_iff_append.mp hq
  obtain ⟨hqstatic, hname⟩ := Bool.and_eq_true_iff.mp hq
  have hname : q.name = p.name := beq_iff_eq.mp hname
  refine ⟨_, q, ⟨before.reverse, after.reverse, ?_, rfl, hqstatic, fun x hx hxstatic => ?_⟩, hname⟩
  · rw [← List.reverse_inj, hlist]
    simp
  · rw [hname]
    simpa [hxstatic] using hlast x (List.mem_reverse.mp hx)

/-- A first storage holds the default of the last static property of each name. -/
theorem LastStatic.get?_ofDecl (h : d.LastStatic i p) :
    (StaticTable.ofDecl d).get? p.name = some (p.defaultValue?.getD .null) := by
  obtain ⟨before, after, hlist, -, hstatic, hlast⟩ := h
  have hlater : p.name ∉ ((after.filter PropertyDecl.isStatic).map
      fun q => (q.name, q.defaultValue?.getD .null)).map Prod.fst := by
    rw [List.map_map]
    intro hmem
    obtain ⟨q, hq, hname⟩ := List.mem_map.mp hmem
    obtain ⟨hq, hqstatic⟩ := List.mem_filter.mp hq
    exact hlast q hq hqstatic hname
  rw [StaticTable.get?, StaticTable.ofDecl, StaticTable.ofList, Catalog.ofList, staticProperties,
    hlist, List.filter_append, List.filter_cons_of_pos hstatic, List.map_append, List.map_cons,
    Catalog.putAll_append, Catalog.putAll_cons, Catalog.get?_putAll_of_notMem hlater,
    Catalog.get?_put, if_pos rfl]

theorem names_ofDecl (d : ClassDecl) : (StaticTable.ofDecl d).cells.names =
    (d.staticProperties.map PropertyDecl.name).eraseDups := by
  rw [StaticTable.ofDecl, StaticTable.ofList, Catalog.ofList, Catalog.names_putAll, List.map_map]
  simp [Catalog.contains, Function.comp_def]

end ClassDecl

namespace Registry

variable {r s : Registry} {c : ClassId} {d : ClassDecl} {links : Links}

/-! ## Creating a storage -/

/-- A single change that creates a storage creates it from the declaration, and does
nothing else. -/
theorem Change.created (h : Change r s) (hd : r.decl? c = some d) (hnone : r.table? c = none) :
    s.table? c = none ∨ s = r.setStatics c (.ofDecl d) := by
  have hother : ∀ {id found table} (_ : r.registration? id = some found) (_ : id ≠ c),
      (r.setStatics id table).table? c = none := by
    intro id found table hf hne
    rw [table?_setStatics (issued_iff.mpr ⟨found, hf⟩), if_neg (Ne.symm hne), hnone]
  have htouched : ∀ {id found table} (_ : r.registration? id = some found)
      (_ : found.statics = some table), id ≠ c := by
    rintro id found table hf hs rfl
    rw [table?, hf, Option.bind_some, hs] at hnone
    cases hnone
  cases h with
  | compute h => exact .inl (h.table? ▸ hnone)
  | hooked loader => exact .inl hnone
  | beganLinking unresolved fresh => exact .inl hnone
  | linked innermost unresolved assembled => exact .inl (table?_endLinking _ _ r ▸ hnone)
  | refused innermost unresolved cause => exact .inl (table?_endLinking _ _ r ▸ hnone)
  | @seeded id links found resolved registered untouched =>
    by_cases hid : id = c
    · subst hid
      rw [decl?, registered] at hd
      cases hd
      exact .inr rfl
    · exact .inl (hother registered hid)
  | assigned registered touched table' =>
    exact .inl (hother registered (htouched registered touched))

/-- Where the first value `v` of the property `p`, which stands at position `i` of class
`c`, is from: there is no default, or its value was declared with it and nothing has ever
been evaluated for it, or it is what the last evaluation of the default gave. -/
inductive FirstValue (r : Registry) (c : ClassId) (i : Nat) (p : PropertyDecl) (v : Value) :
    Prop where
  | absent (default : p.default = none) (null : v = .null)
  | given (default : p.default = some (.settled v)) (history : r.history ⟨c, .default i⟩ = [])
  | evaluated (default : p.default = some (.settled v)) (errors : List Error)
      (history : r.history ⟨c, .default i⟩ = .ended ⟨c, .default i⟩ (.ok v) ::
        .began ⟨c, .default i⟩ :: failedTrials ⟨c, .default i⟩ errors)

/-- The storage of `c`, which declares `d`, is created as `first`. -/
structure Seeded (r : Registry) (c : ClassId) (d : ClassDecl) (first : StaticTable) : Prop where
  declared : r.decl? c = some d
  names : first.cells.names = (d.staticProperties.map PropertyDecl.name).eraseDups
  once : first.cells.names.Nodup
  last : ∀ name ∈ first.cells.names, ∃ i p, d.LastStatic i p ∧ p.name = name
  /-- A cell holds what asking for the default of the last property gives. -/
  value : ∀ i p, d.LastStatic i p → ∃ v, first.get? p.name = some v ∧ r.FirstValue c i p v ∧
    ∀ depth, force (depth + 1) ⟨c, .default i⟩ r = .value v r
  asked : r.table? c = none → statics c r = .value first (r.setStatics c first)
  set : r.table? c = none → ∀ name v,
    setStatic c name v r = .value (first.get? name) (r.setStatics c (first.put name v))
  replaced : r.table? c = none → ∀ table,
    replaceStatics c table r = .value first (r.setStatics c table)
  /-- It is also created by reading from any class that takes a property from `c`. -/
  read : r.table? c = none → ∀ depth b name, r.TakesFrom depth b c name →
    staticProperty depth b name r = .value (first.get? name) (r.setStatics c first)
  written : r.table? c = none → ∀ depth b name v, r.TakesFrom depth b c name →
    setStaticProperty depth b name v r =
      .value (first.get? name) (r.setStatics c (first.replace name v))
  /-- Nothing creates it in another way. -/
  only : r.table? c = none → ∀ s, Change r s → s.table? c = none ∨ s = r.setStatics c first

/-- The default of the last property of a name is not pending when its class is
resolved. -/
theorem Reachable.firstValue (h : r.Reachable) (hc : r.Resolved c links) (hd : r.decl? c = some d)
    {i : Nat} {p : PropertyDecl} (hp : d.LastStatic i p) :
    r.FirstValue c i p (p.defaultValue?.getD .null) ∧
      ∀ depth, force (depth + 1) ⟨c, .default i⟩ r = .value (p.defaultValue?.getD .null) r := by
  have husable : ∀ e, r.standing? c ≠ some (.failed e) := fun e he => by
    rw [Resolved, he] at hc
    cases hc
  have hlazy : r.lazy? ⟨c, .default i⟩ = p.default := by
    rw [Registry.lazy?, hd]
    exact hp.lazy?
  have hforce : ∀ depth, force (depth + 1) ⟨c, .default i⟩ r = _ := fun depth =>
    force_of_usable depth hd husable
  simp only [hp.lazy?] at hforce
  cases hdefault : p.default with
  | none =>
    rw [PropertyDecl.defaultValue?, hdefault]
    refine ⟨.absent hdefault rfl, fun depth => ?_⟩
    rw [hforce, hdefault]
    rfl
  | some l =>
    rw [hdefault] at hlazy
    cases l with
    | pending source => exact absurd hlazy (h.founded.computed hc _ source)
    | settled v =>
      rw [PropertyDecl.defaultValue?, hdefault]
      refine ⟨?_, fun depth => by rw [hforce, hdefault]; rfl⟩
      rcases h.recorded ⟨c, .default i⟩ with ⟨hnone, -, -⟩ | ⟨source, hlife⟩
      · exact .given hdefault hnone
      · cases hlife with
        | waiting errors history stored idle =>
          rw [hlazy] at stored
          cases stored
        | underway errors history stored busy =>
          rw [hlazy] at stored
          cases stored
        | settled errors w history stored idle =>
          rw [hlazy] at stored
          cases stored
          exact .evaluated hdefault errors history

theorem Reachable.seeded (h : r.Reachable) (hc : r.Resolved c links) (hd : r.decl? c = some d) :
    r.Seeded c d (.ofDecl d) where
  declared := hd
  names := d.names_ofDecl
  once := Catalog.names_nodup _
  last name hname := by
    rw [d.names_ofDecl, List.mem_eraseDups] at hname
    exact ClassDecl.exists_lastStatic hname
  value _ _ hp := ⟨_, hp.get?_ofDecl, h.firstValue hc hd hp⟩
  asked hnone := by
    rw [statics_of_resolved hc, storage_of_untouched hd hnone]
  set hnone name v := by
    rw [setStatic, Eval.bind_apply, statics_of_resolved hc, storage_of_untouched hd hnone]
    exact congrArg (Outcome.value _) (setStatics_setStatics c _ _ r)
  replaced hnone table := by
    rw [replaceStatics, Eval.bind_apply, statics_of_resolved hc, storage_of_untouched hd hnone]
    exact congrArg (Outcome.value _) (setStatics_setStatics c _ _ r)
  read hnone depth b name hb := by
    rw [staticProperty, Eval.bind_apply, hb.owner.1]
    dsimp only
    rw [Eval.bind_apply, statics_of_resolved hc, storage_of_untouched hd hnone]
    rfl
  written hnone depth b name v hb := by
    rw [setStaticProperty, Eval.bind_apply, hb.owner.1]
    dsimp only
    rw [Eval.bind_apply, statics_of_resolved hc, storage_of_untouched hd hnone]
    exact congrArg (Outcome.value _) (setStatics_setStatics c _ _ r)
  only hnone _ hs := hs.created hd hnone

/-- As long as nothing has created the storage there is none, and then it is created in
one single change. -/
theorem exists_creation {first : StaticTable} (hnone : r.table? c = none)
    (hseeded : ∀ t, Relation.ReflTransGen Change r t → t.Seeded c d first)
    (hs : Relation.ReflTransGen Change r s) :
    s.table? c = none ∨ ∃ m, Relation.ReflTransGen Change r m ∧ m.table? c = none ∧
      Change m (m.setStatics c first) ∧ Relation.ReflTransGen Change (m.setStatics c first) s := by
  induction hs with
  | refl => exact .inl hnone
  | @tail m t hsteps hstep ih =>
    rcases ih with hm | ⟨m', hm', hm'none, hcreated, hlater⟩
    · rcases (hseeded m hsteps).only hm t hstep with ht | rfl
      · exact .inl ht
      · exact .inr ⟨m, hsteps, hm, hstep, .refl⟩
    · exact .inr ⟨m', hm', hm'none, hcreated, hlater.tail hstep⟩

/-- From the moment at which a class is resolved its storage, whenever and by whatever it
is created, starts out with the same contents: a cell for each name of its static
properties, with the default of the last property of that name.  In whatever happens
later, at the end of any run or in the middle of an operation, there is no storage up
to the change that creates it so. -/
theorem Reachable.static_seed (h : r.Reachable) (hc : r.links c = .ok links) :
    ∃ d first, (∀ s, r.Becomes s → s.Seeded c d first) ∧
      (r.table? c = none → ∀ s, r.Becomes s → s.table? c = none ∨
        ∃ m, Relation.ReflTransGen Change r m ∧ m.table? c = none ∧
          Change m (m.setStatics c first) ∧
          Relation.ReflTransGen Change (m.setStatics c first) s) := by
  have hresolved := links_eq_ok_iff.mp hc
  obtain ⟨d, hd⟩ := issued_iff_decl?.mp (.of_standing? hresolved)
  have hseeded : ∀ s, Relation.ReflTransGen Change r s → s.Seeded c d (.ofDecl d) := by
    intro s hs
    have hext := Extends.of_changes hs
    obtain ⟨d', hd', hsettles⟩ := hext.declared hd
    -- nothing is left to be settled
    obtain rfl : d' = d := hsettles.eq_of_computed fun m source hm => by
      refine h.founded.computed hresolved m source ?_
      rw [Registry.lazy?, hd]
      exact hm
    exact (h.changes hs).seeded (hext.resolved hresolved) hd'
  exact ⟨d, .ofDecl d, fun s hs => hseeded s (hs.steps h.indexed),
    fun hnone s hs => exists_creation hnone hseeded (hs.steps h.indexed)⟩

/-- A class lists one static property twice, the second time with a default that is pending
at first, and one without a default.  Its storage is created by a write through a class
below. -/
theorem Reachable.static_seed_of_repeated :
    let decls : List ClassDecl :=
      [.addConstant { name := "K", value := .settled (.int 2) }
          (.addProperty
            { name := "x", modifiers := .staticBit,
              default := some (.pending (.expr (.constant .self "K"))) }
            (.addProperty { name := "y", modifiers := .staticBit }
              (.addProperty
                { name := "x", modifiers := .staticBit, default := some (.settled (.int 1)) }
                { name := ⟨"A"⟩ }))),
        { name := ⟨"B"⟩, parent := some ⟨"A"⟩ }]
    ∃ r links d first s, Run (new {}) (decls.map .register ++ [.resolveAll]) r ∧
      r.links ⟨0⟩ = .ok links ∧ r.table? ⟨0⟩ = none ∧ r.TakesFrom 3 ⟨1⟩ ⟨0⟩ "y" ∧
      r.Seeded ⟨0⟩ d first ∧ first.toList = [("x", .int 2), ("y", .null)] ∧
      setStaticProperty 3 ⟨1⟩ "y" (.int 7) r = .value (some .null) s ∧
      s.Seeded ⟨0⟩ d first := by
  intro decls
  have hrun : (performAll 9 (decls.map .register ++ [.resolveAll]) (new {})).map (fun r =>
      ((r.links ⟨0⟩).toOption.isSome, (r.table? ⟨0⟩).isSome, (staticOwner "y" 3 ⟨1⟩ r).answer?,
        (statics ⟨0⟩ r).answer?.map (Except.map StaticTable.toList))) =
      some (true, false, some (.ok (some ⟨0⟩)),
        some (.ok [("x", .int 2), ("y", .null)])) := rfl
  obtain ⟨r, hr, hresults⟩ := Option.map_eq_some_iff.mp hrun
  simp only [Prod.mk.injEq] at hresults
  obtain ⟨hlinked, hnone, howner, hlist⟩ := hresults
  have hrun : Run (new {}) _ r := .of_performAll hr
  have hnone : r.table? ⟨0⟩ = none := by simpa using hnone
  cases hl : r.links ⟨0⟩ with
  | error f =>
    rw [hl] at hlinked
    cases hlinked
  | ok links =>
    obtain ⟨d, first, hseeded, -⟩ := Reachable.static_seed hrun.reachable hl
    have hnow := hseeded r (.changes .refl)
    rw [hnow.asked hnone] at hlist
    replace hlist : first.toList = [("x", .int 2), ("y", .null)] :=
      Except.ok.inj (Option.some.inj hlist)
    have hwritten := hnow.written hnone 3 ⟨1⟩ "y" (.int 7) howner
    have hperform : (perform 3 (.setStaticProperty ⟨1⟩ "y" (.int 7)) r).state? =
        some (r.setStatics ⟨0⟩ (first.replace "y" (.int 7))) := by
      rw [perform, Eval.bind_apply, hwritten]
      rfl
    have hcell : first.get? "y" = some .null := by
      rw [StaticTable.get?, Catalog.get?, show first.cells.entries = _ from hlist]
      rfl
    refine ⟨r, links, d, first, _, hrun, hl, hnone, howner, hnow, hlist, ?_,
      hseeded _ (.run (.cons 3 hperform (.nil _)))⟩
    rw [hwritten, hcell]

end Registry
end Lineage
