/-
The structural rules of inheritance in a whole hierarchy.

Linking checks one parent, one interface and one overridden method at a time:
`Checked` says what it has found out about a single class.  The theorem of this
file is `Run.sound`: where rules are checked, nothing that a resolved class
inherits from breaks one, however far above it stands.  Final methods are the
case that needs the method tables: what hides a final method in the table of a
class would have to be declared below it, and the table of that class's parent
still holds the final one.
-/
import Lineage.Proofs.Dispatch
import Lineage.Proofs.WellFormed

namespace Lineage

/-- Methods are filed under their folded names. -/
theorem ClassDecl.get?_of_mem_values {d : ClassDecl} {m : MethodDecl} (h : m ∈ d.methods.values) :
    d.methods.get? (Text.fold m.name) = some m := by
  obtain ⟨⟨key, stored⟩, hentry, rfl⟩ := List.mem_map.mp h
  have hkey : Text.fold stored.name = key := (d.methods_filed _ hentry).1
  rw [hkey]
  exact Catalog.get?_of_mem hentry

namespace Registry

variable {r : Registry} {c p : ClassId} {links : Links} {d : ClassDecl}
  {chain : List ClassId}

/-- What a class was declared as. -/
def kind? (r : Registry) (id : ClassId) : Option Kind :=
  (r.decl? id).map ClassDecl.kind

/-- The class declares nothing under the name of a final method of the other
one, in any letter case. -/
def Spares (r : Registry) (below above : ClassId) : Prop :=
  ∀ d ∈ r.decl? above, ∀ m ∈ d.methods.values, m.isFinal = true →
    ∀ d' ∈ r.decl? below, ∀ spelled, Text.fold spelled = Text.fold m.name →
      d'.method? spelled = none

/-- A class with links `links` and parents `chain` breaks no structural rule, and
nothing that it inherits from does. -/
structure Sound (r : Registry) (c : ClassId) (links : Links) (chain : List ClassId) : Prop where
  parents : r.ParentChain c chain
  /-- Only classes have parents, and only classes are parents. -/
  kinds : links.parent.isSome = true → ∀ x ∈ chain, r.kind? x = some .class
  /-- No final class is inherited from. -/
  not_final : ∀ x ∈ chain.tail, ∃ d, r.decl? x = some d ∧ d.isFinal = false
  /-- Whatever is not a parent is an interface. -/
  interfaces : ∀ x ∈ links.ancestors, x ∉ chain → r.kind? x = some .interface
  /-- A final method is found under its name by everything below it. -/
  final_methods : ∀ a ∈ chain, ∀ d ∈ r.decl? a, ∀ m ∈ d.methods.values, m.isFinal = true →
    ∀ spelled, Text.fold spelled = Text.fold m.name →
      r.findMethod c spelled = .ok (some { owner := a, decl := m })
  /-- No class declares a final method of one above it again. -/
  not_overridden : chain.Pairwise r.Spares

/-! ## One class -/

/-- The rules that linking has checked for a class with declaration `d`. -/
structure Checked (r : Registry) (c : ClassId) (d : ClassDecl) (links : Links) : Prop where
  parent : ∀ p, links.parent = some p → ∃ base, r.decl? p = some base ∧
    d.kind = .class ∧ base.kind = .class ∧ base.isFinal = false
  interface : ∀ p, r.Refers c p → links.parent = some p ∨ r.kind? p = some .interface
  override : ∀ entry ∈ d.methods.entries, ∀ m, (r.parentMethods links).get? entry.1 = some m →
    m.decl.isFinal = false
  table : ∀ key, links.methods.get? key =
    (r.ownMethod? key c).or ((r.parentMethods links).get? key)

theorem Admits.rule {ref : Role × QualifiedName} (h : r.Admits r.Resolved d ref)
    (hv : r.config.verify = true) (hp : r.idOf? ref.2 = some p) :
    ∃ base, r.decl? p = some base ∧ ref.1.violation? d base = none := by
  obtain ⟨q, listed, _, hq, ⟨base, hbase, halike⟩, -, hrule⟩ := h
  rw [hp] at hq
  cases hq
  refine ⟨base, hbase, ?_⟩
  rw [Role.violation?_alike (.refl d) halike]
  exact hrule hv

/-- The own methods of a class with all that it inherits from linked override no
final one, in terms of the links that the registry holds. -/
theorem Assembled.permits {Good : LazySite → Prop} (h : r.Assembled r.Resolved Good c links)
    (hd : r.decl? c = some d) :
    ∀ entry ∈ d.methods.entries, r.Permits (r.inherited r.linksOf c d) entry := by
  obtain ⟨d₀, linksOf, hasm⟩ := h
  have halike : d₀.Alike d := hasm.inherits.declares.alike (.of_decl? hd)
  have hlinks : r.inherited r.linksOf c d = r.inherited linksOf c d₀ := by
    rw [inherited, halike.inheritances]
    exact inherited_congr fun ref href p hp => (hasm.inherits.linked ref href p hp).linksOf
  rw [halike.methods, hlinks]
  exact hasm.permits

theorem Founded.checked (h : r.Founded) (hv : r.config.verify = true)
    (hc : r.Resolved c links) : ∃ d, r.decl? c = some d ∧ r.Checked c d links := by
  obtain ⟨d, hd, hadm, hlinks⟩ := (h.assembled c links hc).exists_decl
  have hparent : links.parent = d.parent.bind r.idOf? := by
    rw [hlinks, parent_compose]
  have hpermits := (h.assembled c links hc).permits hd
  refine ⟨d, hd, fun p hp => ?_, fun p hp => ?_, fun entry hentry m hm => ?_, fun key => ?_⟩
  · rw [hparent] at hp
    obtain ⟨name, hname, hbound⟩ := Option.bind_eq_some_iff.mp hp
    obtain ⟨base, hbase, hrule⟩ := (hadm _ (mem_inheritances_parent.mpr hname)).rule hv hbound
    exact ⟨base, hbase, parentViolation?_eq_none_iff.mp hrule⟩
  · obtain ⟨d', name, hd', hname, hbound⟩ := hp
    rw [hd] at hd'
    cases hd'
    obtain ⟨role, href⟩ := ClassDecl.mem_references.mp hname
    cases role with
    | parent =>
      left
      rw [hparent, mem_inheritances_parent.mp href, Option.bind_some, hbound]
    | interface =>
      obtain ⟨base, hbase, hrule⟩ := (hadm _ href).rule hv hbound
      right
      rw [kind?, hbase, Option.map_some, interfaceViolation?_eq_none_iff.mp hrule]
  · refine overrideViolation?_eq_none_iff.mp (hpermits entry hentry hv m ?_)
    rw [methods_inherited_compose, ← hlinks, hm]
  · rw [hlinks, get?_compose_eq hd]

/-! ## Along the parents -/

theorem ParentChain.eq_cons (h : r.ParentChain c chain) : ∃ above, chain = c :: above := by
  cases h with
  | root => exact ⟨[], rfl⟩
  | child => exact ⟨_, rfl⟩

theorem ParentChain.of_parent (h : r.ParentChain c chain) (hc : r.links c = .ok links)
    (hp : links.parent = some p) : ∃ above, chain = c :: above ∧ r.ParentChain p above := by
  cases h with
  | root linked parentless =>
    rw [hc] at linked
    cases linked
    rw [hp] at parentless
    cases parentless
  | child linked parent above =>
    rw [hc] at linked
    cases linked
    rw [hp] at parent
    cases parent
    exact ⟨_, rfl, above⟩

/-- Every parent is a class that is not final. -/
theorem ParentChain.parents (h : r.ParentChain c chain) (hr : r.Founded)
    (hv : r.config.verify = true) :
    ∀ x ∈ chain.tail, ∃ d, r.decl? x = some d ∧ d.kind = .class ∧ d.isFinal = false := by
  induction h with
  | root => exact fun x hx => by cases hx
  | @child c p links chain linked parent above ih =>
    intro x hx
    obtain ⟨rest, rfl⟩ := above.eq_cons
    rcases List.mem_cons.mp hx with rfl | hx
    · obtain ⟨d, -, hchecked⟩ := hr.checked hv (links_eq_ok_iff.mp linked)
      obtain ⟨base, hbase, -, hkind, hfinal⟩ := hchecked.parent x parent
      exact ⟨base, hbase, hkind, hfinal⟩
    · exact ih x hx

theorem parentMethods_eq (hp : links.parent = some p) (hbase : r.Resolved p base) :
    r.parentMethods links = base.methods := by
  rw [parentMethods, hp]
  exact congrArg Links.methods hbase.linksOf

/-- An own method would override the one that the parent's table holds. -/
theorem Checked.own_eq_none (h : r.Checked c d links) {key : String} {m : SharedMethod}
    (hm : (r.parentMethods links).get? key = some m) (hfinal : m.decl.isFinal = true) :
    d.methods.get? key = none := by
  cases hown : d.methods.get? key with
  | none => rfl
  | some own =>
    have hnot := h.override _ (Catalog.mem_of_get? hown) m hm
    rw [hfinal] at hnot
    cases hnot

/-- The table of a class holds the final methods of every class up the parents:
the parent's table does, and no own method may override one of them. -/
theorem ParentChain.get?_of_final (h : r.ParentChain c chain) (hr : r.Founded)
    (hv : r.config.verify = true) (hc : r.Resolved c links) {a : ClassId} (ha : a ∈ chain)
    {m : MethodDecl} {key : String} (hd : r.decl? a = some d)
    (hm : d.methods.get? key = some m) (hfinal : m.isFinal = true) :
    links.methods.get? key = some { owner := a, decl := m } := by
  have hown : r.ownMethod? key a = some { owner := a, decl := m } := by
    rw [ownMethod?, hd, Option.bind_some, hm, Option.map_some]
  induction h generalizing links with
  | root linked parentless =>
    obtain rfl := List.mem_singleton.mp ha
    obtain ⟨_, -, hchecked⟩ := hr.checked hv hc
    rw [hchecked.table, hown, Option.some_or]
  | child linked parent above ih =>
    obtain rfl := Resolved.unique (links_eq_ok_iff.mp linked) hc
    obtain ⟨own, hd', hchecked⟩ := hr.checked hv hc
    rw [hchecked.table]
    rcases List.mem_cons.mp ha with rfl | ha
    · rw [hown, Option.some_or]
    · obtain ⟨base, hbase⟩ := hr.resolved_of_refers hc (hr.refers_parent hc parent)
      have habove := (parentMethods_eq parent hbase).symm ▸ ih hbase ha
      have hnone := hchecked.own_eq_none habove hfinal
      rw [ownMethod?, hd', Option.bind_some, hnone, Option.map_none, Option.none_or, habove]

theorem ParentChain.spares (h : r.ParentChain c chain) (hr : r.Founded)
    (hv : r.config.verify = true) : chain.Pairwise r.Spares := by
  induction h with
  | root => exact List.pairwise_singleton _ _
  | @child c p links chain linked parent above ih =>
    refine List.pairwise_cons.mpr ⟨fun a ha d hd m hm hfinal d' hd' spelled hspelled => ?_, ih⟩
    have hc : r.Resolved c links := links_eq_ok_iff.mp linked
    obtain ⟨own, hown, hchecked⟩ := hr.checked hv hc
    obtain rfl := Option.some.inj (hown.symm.trans hd')
    obtain ⟨base, hbase⟩ := hr.resolved_of_refers hc (hr.refers_parent hc parent)
    have habove := above.get?_of_final hr hv hbase ha hd (ClassDecl.get?_of_mem_values hm) hfinal
    rw [← parentMethods_eq parent hbase, ← hspelled] at habove
    exact hchecked.own_eq_none habove hfinal

/-! ## Everything inherited -/

/-- An interface has no parent. -/
theorem Founded.parentless (h : r.Founded) (hv : r.config.verify = true)
    (hc : r.Resolved c links) (hkind : r.kind? c = some .interface) : links.parent = none := by
  obtain ⟨d, hd, hchecked⟩ := h.checked hv hc
  cases hp : links.parent with
  | none => rfl
  | some p =>
    obtain ⟨_, -, hclass, -⟩ := hchecked.parent p hp
    rw [kind?, hd, Option.map_some, hclass] at hkind
    cases hkind

/-- By induction down the hierarchy: an ancestor comes from the parent, and then
it is one of its ancestors, or from an interface, which has no parents. -/
theorem Founded.interfaces (h : r.Founded) (hv : r.config.verify = true) :
    ∀ c links, r.Resolved c links → ∀ chain, r.ParentChain c chain →
      ∀ x ∈ links.ancestors, x ∉ chain → r.kind? x = some .interface := by
  refine h.induction fun c links hc ih chain hchain x hx hnot => ?_
  rcases (h.mem_ancestors_iff hc).mp hx with rfl | ⟨p, base, hp, hbase, hx⟩
  · obtain ⟨above, rfl⟩ := hchain.eq_cons
    exact absurd List.mem_cons_self hnot
  obtain ⟨d, -, hchecked⟩ := h.checked hv hc
  rcases hchecked.interface p hp with hparent | hkind
  · obtain ⟨above, rfl, habove⟩ := hchain.of_parent (links_eq_ok_iff.mpr hc) hparent
    exact ih p base hp hbase above habove x hx fun hmem => hnot (List.mem_cons_of_mem c hmem)
  · have hroot : r.ParentChain p [p] :=
      .root (links_eq_ok_iff.mpr hbase) (h.parentless hv hbase hkind)
    by_cases hxp : x = p
    · rw [hxp]
      exact hkind
    · exact ih p base hp hbase [p] hroot x hx fun hmem => hxp (List.mem_singleton.mp hmem)

theorem Founded.exists_sound (h : r.Founded) (hv : r.config.verify = true)
    (hc : r.Resolved c links) : ∃ chain, r.Sound c links chain := by
  obtain ⟨chain, hchain, -⟩ := h.exists_parentChain c links hc
  have hok := links_eq_ok_iff.mpr hc
  refine ⟨chain, hchain, fun hparent x hx => ?_, fun x hx => ?_, h.interfaces hv c links hc chain
    hchain, fun a ha d hd m hm hfinal spelled hspelled => ?_, hchain.spares h hv⟩
  · obtain ⟨p, hp⟩ := Option.isSome_iff_exists.mp hparent
    obtain ⟨above, rfl, -⟩ := hchain.of_parent hok hp
    rcases List.mem_cons.mp hx with rfl | hx
    · obtain ⟨d, hd, hchecked⟩ := h.checked hv hc
      obtain ⟨_, -, hclass, -⟩ := hchecked.parent p hp
      rw [kind?, hd, Option.map_some, hclass]
    · obtain ⟨d, hd, hclass, -⟩ := hchain.parents h hv x hx
      rw [kind?, hd, Option.map_some, hclass]
  · obtain ⟨d, hd, -, hfinal⟩ := hchain.parents h hv x hx
    exact ⟨d, hd, hfinal⟩
  · rw [findMethod, hok, ← hchain.get?_of_final h hv hc ha hd (ClassDecl.get?_of_mem_values hm)
      hfinal, ← hspelled]
    rfl

/-- Whatever has been done to a registry that checks rules, a resolved class and
everything that it inherits from keep all of them. -/
theorem Run.sound {config : Config} {ops : List Operation} (h : Run (new config) ops r)
    (hv : r.config.verify = true) (hc : r.links c = .ok links) : ∃ chain, r.Sound c links chain :=
  h.reachable.founded.exists_sound hv (links_eq_ok_iff.mp hc)

/-- A class inherits a final method and an interface over two levels; a class that
declares the method again is turned down. -/
theorem Run.sound_final_method :
    let decls : List ClassDecl :=
      [{ name := ⟨"I"⟩, kind := .interface },
        .addMethod { name := "stop", modifiers := .finalBit } { name := ⟨"A"⟩ },
        { name := ⟨"B"⟩, parent := some ⟨"A"⟩, interfaces := [⟨"I"⟩] },
        { name := ⟨"C"⟩, parent := some ⟨"B"⟩ },
        .addMethod { name := "STOP" } { name := ⟨"D"⟩, parent := some ⟨"C"⟩ }]
    ∃ r links chain, Run (new {}) (decls.map .register ++ [.resolveAll]) r ∧
      r.config.verify = true ∧ r.links ⟨3⟩ = .ok links ∧ r.Sound ⟨3⟩ links chain ∧
      links.ancestors = [⟨3⟩, ⟨2⟩, ⟨1⟩, ⟨0⟩] ∧ r.isResolved ⟨4⟩ = .ok false := by
  intro decls
  have hrun : (performAll 9 (decls.map .register ++ [.resolveAll]) (new {})).map (fun r =>
      (r.config.verify, (r.links ⟨3⟩).map Links.ancestors, r.isResolved ⟨4⟩)) =
      some (true, .ok [⟨3⟩, ⟨2⟩, ⟨1⟩, ⟨0⟩], .ok false) := rfl
  obtain ⟨r, hr, hresults⟩ := Option.map_eq_some_iff.mp hrun
  rw [Prod.mk.injEq, Prod.mk.injEq] at hresults
  obtain ⟨hverify, hancestors, hrefused⟩ := hresults
  cases hl : r.links ⟨3⟩ with
  | error f =>
    rw [hl] at hancestors
    cases hancestors
  | ok links =>
    rw [hl] at hancestors
    obtain ⟨chain, hsound⟩ := Run.sound (.of_performAll hr) hverify hl
    exact ⟨r, links, chain, .of_performAll hr, hverify, hl, hsound, Except.ok.inj hancestors,
      hrefused⟩

end Registry
end Lineage
