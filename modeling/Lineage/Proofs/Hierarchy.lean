/-
The ancestors of resolved classes.

`Refers` is the graph of declared parents and interfaces.  The theorem of this
file is `Run.hierarchy`: in every state of every run the ancestors of a resolved
class are the classes that it reaches in this graph, and no resolved class
reaches itself, so that being an instance is a partial order on resolved
classes.  What a single change keeps is `Founded`.
-/
import Lineage.Proofs.Change
import Lineage.Proofs.Compose
import Mathlib.Data.Finset.Card

namespace Lineage
namespace Registry

variable {r s : Registry} {c p x : ClassId} {links : Links}

/-- The first class declares a parent or an interface that is bound to the
second. -/
def Refers (r : Registry) (c p : ClassId) : Prop :=
  ∃ d name, r.decl? c = some d ∧ name ∈ d.references ∧ r.idOf? name = some p

/-- References lead from the first class to the second, or the two are the same. -/
def Reaches (r : Registry) : ClassId → ClassId → Prop :=
  Relation.ReflTransGen r.Refers

theorem Refers.mono (hs : r.Extends s) (h : r.Refers c p) : s.Refers c p := by
  obtain ⟨d, name, hd, hname, hp⟩ := h
  obtain ⟨d', hd', hset⟩ := hs.declared hd
  exact ⟨d', name, hd', hset.alike.references ▸ hname, hs.bound hp⟩

theorem Reaches.mono (hs : r.Extends s) (h : r.Reaches c p) : s.Reaches c p :=
  Relation.ReflTransGen.mono (fun _ _ h => Refers.mono hs h) _ _ h

/-! ## Assembled links -/

theorem compose_alike {linksOf : ClassId → Links} {d d' : ClassDecl} (h : d.Alike d') :
    r.compose linksOf c d' = r.compose linksOf c d := by
  unfold compose inherited
  rw [h.inheritances, h.methods]

theorem inherited_congr {linksOf linksOf' : ClassId → Links} {d : ClassDecl}
    (h : ∀ ref ∈ d.inheritances, ∀ p, r.idOf? ref.2 = some p → linksOf' p = linksOf p) :
    r.inherited linksOf' c d = r.inherited linksOf c d := by
  refine List.foldl_ext _ _ _ fun links ref href => ?_
  unfold inherit
  cases hp : r.idOf? ref.2 with
  | none => rfl
  | some p =>
    dsimp only
    rw [h ref href p hp]

theorem compose_congr {linksOf linksOf' : ClassId → Links} {d : ClassDecl}
    (h : ∀ ref ∈ d.inheritances, ∀ p, r.idOf? ref.2 = some p → linksOf' p = linksOf p) :
    r.compose linksOf' c d = r.compose linksOf c d := by
  unfold compose
  rw [inherited_congr h]

/-- The links of an assembled class in terms of its own declaration and of the
links that the registry holds. -/
theorem Assembled.exists_decl {Good : LazySite → Prop}
    (h : r.Assembled r.Resolved Good c links) :
    ∃ d, r.decl? c = some d ∧ (∀ ref ∈ d.inheritances, r.Admits r.Resolved d ref) ∧
      links = r.compose r.linksOf c d := by
  obtain ⟨d, linksOf, ⟨hinh, -, -, rfl⟩⟩ := h
  obtain ⟨d', hd', halike⟩ := hinh.declares
  refine ⟨d', hd', ?_, ?_⟩
  · rw [halike.inheritances]
    intro ref href
    obtain ⟨p, base, l, hp, hbase, hl, hrule⟩ := hinh.admits ref href
    refine ⟨p, base, l, hp, hbase, hl, fun hv => ?_⟩
    rw [Role.violation?_alike halike (.refl base)]
    exact hrule hv
  · rw [compose_alike halike]
    exact compose_congr fun ref href p hp => ((hinh.linked ref href p hp).linksOf).symm

theorem Assembled.mono (hs : r.Extends s) (h : r.Assembled r.Resolved r.Computed c links) :
    s.Assembled s.Resolved s.Computed c links := by
  obtain ⟨d, linksOf, ⟨hinh, hpermits, hgood, rfl⟩⟩ := h
  have hinh' : s.Inherits s.Resolved c d linksOf := by
    refine ⟨hinh.declares.mono hs, fun ref href => (hinh.admits ref href).mono hs, ?_⟩
    intro ref href p hp
    obtain ⟨q, -, -, hq, -⟩ := hinh.admits ref href
    rw [hs.bound hq] at hp
    cases hp
    exact hs.resolved (hinh.linked ref href _ hq)
  have hfold : s.inherited linksOf c d = r.inherited linksOf c d := by
    refine List.foldl_ext _ _ _ fun links ref href => ?_
    obtain ⟨q, -, -, hq, -⟩ := hinh.admits ref href
    unfold inherit
    rw [hq, hs.bound hq]
  refine ⟨d, linksOf, hinh', fun entry hentry => ?_, fun member hmember => ?_, ?_⟩
  · rw [hfold]
    exact (hpermits entry hentry).mono hs
  · exact hs.computed hinh.declares.issued (hgood member hmember)
  · unfold compose
    rw [hfold, hs.config]

/-- Once all names that a class inherits from are bound, no later registry
changes what it refers to. -/
theorem Refers.of_extends {d : ClassDecl} (hs : r.Extends s) (hd : r.decl? c = some d)
    (hadm : ∀ ref ∈ d.inheritances, r.Admits r.Resolved d ref) (h : s.Refers c p) :
    r.Refers c p ∧ ∃ base, r.Resolved p base := by
  obtain ⟨d', name, hd', hname, hp⟩ := h
  obtain ⟨d'', hd'', hset⟩ := hs.declared hd
  rw [hd'] at hd''
  cases hd''
  rw [hset.alike.references] at hname
  obtain ⟨role, href⟩ := ClassDecl.mem_references.mp hname
  obtain ⟨q, _, base, hq, _, hl, _⟩ := hadm _ href
  rw [hs.bound hq] at hp
  cases hp
  exact ⟨⟨d, name, hd, hname, hq⟩, base, hl⟩

/-! ## What every change keeps -/

/-- Resolved classes have the links that linking assembles, their ancestors are
reached, and no class is an ancestor of what it inherits from. -/
structure Founded (r : Registry) : Prop where
  assembled : ∀ c links, r.Resolved c links → r.Assembled r.Resolved r.Computed c links
  reached : ∀ c links, r.Resolved c links → ∀ x ∈ links.ancestors, r.Reaches c x
  apart : ∀ c links, r.Resolved c links → ∀ p, r.Refers c p →
    ∃ base, r.Resolved p base ∧ c ∉ base.ancestors

theorem Resolved.unique {links' : Links} (h : r.Resolved c links) (h' : r.Resolved c links') :
    links' = links := by
  unfold Resolved at h h'
  rw [h] at h'
  cases h'
  rfl

namespace Founded

/-- One step down: the ancestors are the class and those of what it refers to. -/
theorem mem_ancestors_iff (h : r.Founded) (hc : r.Resolved c links) :
    x ∈ links.ancestors ↔
      x = c ∨ ∃ p base, r.Refers c p ∧ r.Resolved p base ∧ x ∈ base.ancestors := by
  obtain ⟨d, hd, hadm, rfl⟩ := (h.assembled c links hc).exists_decl
  rw [mem_ancestors_compose]
  refine or_congr_right ⟨?_, ?_⟩
  · rintro ⟨name, hname, p, hp, hx⟩
    have href : r.Refers c p := ⟨d, name, hd, hname, hp⟩
    obtain ⟨base, hbase, -⟩ := h.apart c _ hc p href
    rw [hbase.linksOf] at hx
    exact ⟨p, base, href, hbase, hx⟩
  · rintro ⟨p, base, ⟨d', name, hd', hname, hp⟩, hbase, hx⟩
    rw [hd] at hd'
    cases hd'
    exact ⟨name, hname, p, hp, by rw [hbase.linksOf]; exact hx⟩

/-- Everything that a resolved class reaches is resolved, and is an ancestor. -/
theorem mem_ancestors_of_reaches (h : r.Founded) (hcx : r.Reaches c x)
    (hc : r.Resolved c links) : (∃ base, r.Resolved x base) ∧ x ∈ links.ancestors := by
  induction hcx using Relation.ReflTransGen.head_induction_on generalizing links with
  | refl => exact ⟨⟨links, hc⟩, (h.mem_ancestors_iff hc).mpr (.inl rfl)⟩
  | head href _ ih =>
    obtain ⟨base, hbase, -⟩ := h.apart _ links hc _ href
    obtain ⟨hx, hmem⟩ := ih hbase
    exact ⟨hx, (h.mem_ancestors_iff hc).mpr (.inr ⟨_, base, href, hbase, hmem⟩)⟩

theorem mem_ancestors_iff_reaches (h : r.Founded) (hc : r.Resolved c links) :
    x ∈ links.ancestors ↔ r.Reaches c x :=
  ⟨h.reached c links hc x, fun hx => (h.mem_ancestors_of_reaches hx hc).2⟩

theorem not_reaches_self (h : r.Founded) (hc : r.Resolved c links) :
    ¬ Relation.TransGen r.Refers c c := by
  intro hcycle
  obtain ⟨p, href, hback⟩ := Relation.TransGen.head'_iff.mp hcycle
  obtain ⟨base, hbase, hnot⟩ := h.apart c links hc p href
  exact hnot ((h.mem_ancestors_iff_reaches hbase).mpr hback)

theorem resolved_of_refers (h : r.Founded) (hc : r.Resolved c links) (hp : r.Refers c p) :
    ∃ base, r.Resolved p base := by
  obtain ⟨base, hbase, -⟩ := h.apart c links hc p hp
  exact ⟨base, hbase⟩

/-- What a class refers to has fewer ancestors: the class itself is missing. -/
theorem ancestors_ssubset (h : r.Founded) {base : Links} (hc : r.Resolved c links)
    (hp : r.Refers c p) (hbase : r.Resolved p base) :
    base.ancestors.toFinset ⊂ links.ancestors.toFinset := by
  obtain ⟨base', hbase', hnot⟩ := h.apart c links hc p hp
  obtain rfl := hbase.unique hbase'
  rw [Finset.ssubset_iff_of_subset]
  · refine ⟨c, List.mem_toFinset.mpr ((h.mem_ancestors_iff hc).mpr (.inl rfl)), ?_⟩
    rwa [List.mem_toFinset]
  · intro x hx
    rw [List.mem_toFinset] at hx ⊢
    exact (h.mem_ancestors_iff hc).mpr (.inr ⟨p, _, hp, hbase, hx⟩)

theorem card_ancestors_lt (h : r.Founded) {base : Links} (hc : r.Resolved c links)
    (hp : r.Refers c p) (hbase : r.Resolved p base) :
    base.ancestors.toFinset.card < links.ancestors.toFinset.card :=
  Finset.card_lt_card (h.ancestors_ssubset hc hp hbase)

/-- Induction down the hierarchy: a resolved class comes after all it refers to. -/
theorem induction (h : r.Founded) {P : ClassId → Links → Prop}
    (step : ∀ c links, r.Resolved c links →
      (∀ p base, r.Refers c p → r.Resolved p base → P p base) → P c links) :
    ∀ c links, r.Resolved c links → P c links := by
  suffices ∀ n c links, links.ancestors.toFinset.card = n → r.Resolved c links → P c links from
    fun c links hc => this _ c links rfl hc
  intro n
  induction n using Nat.strong_induction_on with
  | _ n ih =>
    rintro c links rfl hc
    exact step c links hc fun p base hp hbase =>
      ih _ (h.card_ancestors_lt hc hp hbase) p base rfl hbase

/-- A later registry in which no more classes are resolved. -/
theorem of_extends (h : r.Founded) (hs : r.Extends s)
    (hback : ∀ c links, s.Resolved c links → r.Resolved c links) : s.Founded where
  assembled c links hc := (h.assembled c links (hback c links hc)).mono hs
  reached c links hc x hx := (h.reached c links (hback c links hc) x hx).mono hs
  apart c links hc p href := by
    have hc' := hback c links hc
    obtain ⟨d, hd, hadm, -⟩ := (h.assembled c links hc').exists_decl
    obtain ⟨base, hbase, hnot⟩ := h.apart c links hc' p (href.of_extends hs hd hadm).1
    exact ⟨base, hs.resolved hbase, hnot⟩

/-- One more class is resolved, and all it inherits from was resolved before. -/
theorem insert (h : r.Founded) (hs : r.Extends s) (hu : r.standing? c = some .unresolved)
    (hc : r.Assembled r.Resolved r.Computed c links) (hnew : s.Resolved c links)
    (hback : ∀ x base, s.Resolved x base → x = c ∨ r.Resolved x base) : s.Founded := by
  obtain ⟨d, hd, hadm, hlinks⟩ := hc.exists_decl
  have hsubset : ∀ p base, r.Resolved p base → c ∉ base.ancestors := by
    intro p base hp hmem
    obtain ⟨⟨base', hbase'⟩, -⟩ := h.mem_ancestors_of_reaches (h.reached p base hp c hmem) hp
    rw [Resolved, hu] at hbase'
    cases hbase'
  have hold : ∀ x base, s.Resolved x base → x ≠ c → r.Resolved x base :=
    fun x base hx hne => (hback x base hx).resolve_left hne
  refine ⟨fun x base hx => ?_, fun x base hx y hy => ?_, fun x base hx p href => ?_⟩
  · by_cases hxc : x = c
    · subst hxc
      rw [hnew.unique hx]
      exact hc.mono hs
    · exact (h.assembled x base (hold x base hx hxc)).mono hs
  · by_cases hxc : x = c
    · subst hxc
      rw [hnew.unique hx, hlinks, mem_ancestors_compose] at hy
      rcases hy with rfl | ⟨name, hname, p, hp, hy⟩
      · exact .refl
      · have href : s.Refers x p := Refers.mono hs ⟨d, name, hd, hname, hp⟩
        obtain ⟨-, base', hbase'⟩ := href.of_extends hs hd hadm
        rw [hbase'.linksOf] at hy
        exact .head href ((h.reached p base' hbase' y hy).mono hs)
    · exact (h.reached x base (hold x base hx hxc) y hy).mono hs
  · by_cases hxc : x = c
    · subst hxc
      obtain ⟨-, base', hbase'⟩ := href.of_extends hs hd hadm
      exact ⟨base', hs.resolved hbase', hsubset p base' hbase'⟩
    · have hx' := hold x base hx hxc
      obtain ⟨d', hd', hadm', -⟩ := (h.assembled x base hx').exists_decl
      obtain ⟨base', hbase', hnot⟩ := h.apart x base hx' p (href.of_extends hs hd' hadm').1
      exact ⟨base', hs.resolved hbase', hnot⟩

end Founded

theorem resolved_of_append {d : ClassDecl} (h : (r.append d).Resolved c links) :
    r.Resolved c links := by
  obtain ⟨found, hf, hst⟩ := Option.map_eq_some_iff.mp h
  rcases registration?_of_append hf with hold | rfl
  · rw [Resolved, Registry.standing?, hold, Option.map_some, hst]
  · cases hst

theorem Compute.resolved (h : Compute r s) (hc : s.Resolved c links) : r.Resolved c links := by
  cases h with
  | load h =>
    cases h with
    | requested hook unbound => exact hc
    | registered free => exact resolved_of_append hc
  | noted label => exact hc
  | began pending usable fresh => exact hc
  | @ended site rest innermost result =>
    obtain ⟨q, -, hr, -, -, -, he⟩ := endEvaluation_eq site result r
    rw [Resolved, he] at hc
    cases result with
    | ok v =>
      rw [standing?_settle, standing?_congr hr] at hc
      exact hc
    | error e =>
      rw [standing?_congr hr] at hc
      exact hc

theorem resolved_of_endLinking {result : Except Error Links} {id : ClassId}
    (hc : (r.endLinking id result).Resolved c links) :
    (c = id ∧ result = .ok links) ∨ r.Resolved c links := by
  rw [endLinking_eq, Resolved, standing?_setStanding] at hc
  split at hc
  · rename_i heq
    obtain ⟨st, -, hst⟩ := Option.map_eq_some_iff.mp hc
    cases result with
    | ok l => cases hst; exact .inl ⟨heq, rfl⟩
    | error e => cases hst
  · exact .inr hc

theorem Founded.refuse {e : Error} (hr : r.Founded) (hu : r.standing? c = some .unresolved) :
    (r.endLinking c (.error e)).Founded := by
  refine hr.of_extends (extends_endLinking hu) fun x links hx => ?_
  refine (resolved_of_endLinking hx).resolve_left ?_
  rintro ⟨-, h⟩
  cases h

theorem Change.founded (h : Change r s) (hr : r.Founded) : s.Founded := by
  have hext := h.grows
  cases h with
  | compute h => exact hr.of_extends hext fun c links => h.resolved
  | hooked loader => exact hr.of_extends hext fun c links hc => hc
  | beganLinking unresolved fresh => exact hr.of_extends hext fun c links hc => hc
  | linked innermost unresolved assembled =>
    refine hr.insert hext unresolved assembled (standing?_endLinking unresolved) fun x base hx => ?_
    exact (resolved_of_endLinking hx).imp_left And.left
  | refused innermost unresolved cause => exact hr.refuse unresolved
  | seeded resolved registered untouched =>
    exact hr.of_extends hext fun c links hc => by rwa [Resolved, standing?_setStatics] at hc
  | assigned registered touched table' =>
    exact hr.of_extends hext fun c links hc => by rwa [Resolved, standing?_setStatics] at hc

theorem Advances.founded (h : Advances r s) (hr : r.Founded) : s.Founded := by
  have hs := h.steps
  clear h
  induction hs with
  | refl => exact hr
  | tail _ hstep ih => exact hstep.founded ih

theorem founded_new (config : Config) : (new config).Founded := by
  have hnone : ∀ c links, ¬ (new config).Resolved c links := fun c links hc => by cases hc
  exact ⟨fun c links hc => absurd hc (hnone c links), fun c links hc => absurd hc (hnone c links),
    fun c links hc => absurd hc (hnone c links)⟩

theorem Reachable.founded (hr : r.Reachable) : r.Founded := by
  obtain ⟨config, hsteps⟩ := hr
  induction hsteps with
  | refl => exact founded_new config
  | tail _ hstep ih => exact hstep.founded ih

/-- No value of a resolved class is pending. -/
theorem Founded.computed (h : r.Founded) (hc : r.Resolved c links) (m : LazyMember) :
    r.Computed ⟨c, m⟩ := by
  intro source hp
  obtain ⟨d, linksOf, hasm⟩ := h.assembled c links hc
  obtain ⟨d', hd', halike⟩ := hasm.inherits.declares
  have hm : d'.lazy? m = some (.pending source) := by
    rw [lazy?, hd'] at hp
    exact hp
  have hmem : m ∈ d.lazyMembers := halike.lazyMembers ▸ ClassDecl.mem_lazyMembers hm
  exact hasm.computed m hmem source hp

/-! ## The partial order -/

/-- Resolved classes under their references: the links of a class are the
bindings of the names it declares, its ancestors are the classes it reaches, and
being an instance is a partial order. -/
structure Hierarchy (r : Registry) : Prop where
  bound : ∀ {c links d}, r.links c = .ok links → r.decl? c = some d →
    ∀ name ∈ d.references, ∃ p base, r.idOf? name = some p ∧ r.links p = .ok base
  parent : ∀ {c links d}, r.links c = .ok links → r.decl? c = some d →
    links.parent.map some = d.parent.map r.idOf?
  interfaces : ∀ {c links d}, r.links c = .ok links → r.decl? c = some d →
    links.interfaces.map some = d.interfaces.map r.idOf?
  ancestors : ∀ {c links}, r.links c = .ok links → ∀ x, x ∈ links.ancestors ↔ r.Reaches c x
  refl : ∀ {c links}, r.links c = .ok links → r.isInstanceOf c c = .ok true
  trans : ∀ {a b c}, r.isInstanceOf a b = .ok true → r.isInstanceOf b c = .ok true →
    r.isInstanceOf a c = .ok true
  antisymm : ∀ {a b}, r.isInstanceOf a b = .ok true → r.isInstanceOf b a = .ok true → a = b
  acyclic : ∀ {c links}, r.links c = .ok links → ¬ Relation.TransGen r.Refers c c

theorem Founded.isInstanceOf_iff (h : r.Founded) :
    r.isInstanceOf c x = .ok true ↔ (∃ links, r.Resolved c links) ∧ r.Reaches c x := by
  unfold isInstanceOf
  cases hl : r.links c with
  | error f =>
    have hnone : ∀ links, ¬ r.Resolved c links := by
      intro links hc
      rw [links_eq_ok_iff.mpr hc] at hl
      cases hl
    constructor
    · intro hc
      cases hc
    · rintro ⟨⟨links, hc⟩, -⟩
      exact absurd hc (hnone links)
  | ok links =>
    have hc : r.Resolved c links := links_eq_ok_iff.mp hl
    have hiff : links.hasAncestor x = true ↔ r.Reaches c x := by
      rw [Links.hasAncestor, List.contains_iff_mem, h.mem_ancestors_iff_reaches hc]
    rw [← hiff]
    simp only [Except.map, Except.ok.injEq]
    exact ⟨fun hx => ⟨⟨links, hc⟩, hx⟩, fun hx => hx.2⟩

theorem map_some_filterMap_idOf? {names : List QualifiedName}
    (h : ∀ name ∈ names, ∃ p, r.idOf? name = some p) :
    (names.filterMap r.idOf?).map some = names.map r.idOf? := by
  induction names with
  | nil => rfl
  | cons name rest ih =>
    obtain ⟨p, hp⟩ := h name List.mem_cons_self
    rw [List.filterMap_cons_some hp, List.map_cons, List.map_cons, hp,
      ih fun name hname => h name (List.mem_cons_of_mem _ hname)]

theorem Hierarchy.of_founded (h : r.Founded) : r.Hierarchy where
  bound {c links d} hl hd name hname := by
    obtain ⟨d', hd', hadm, -⟩ := (h.assembled c links (links_eq_ok_iff.mp hl)).exists_decl
    rw [hd] at hd'
    cases hd'
    obtain ⟨role, href⟩ := ClassDecl.mem_references.mp hname
    obtain ⟨p, -, base, hp, -, hbase, -⟩ := hadm _ href
    exact ⟨p, base, hp, links_eq_ok_iff.mpr hbase⟩
  parent {c links d} hl hd := by
    obtain ⟨d', hd', hadm, rfl⟩ := (h.assembled c links (links_eq_ok_iff.mp hl)).exists_decl
    rw [hd] at hd'
    cases hd'
    rw [parent_compose]
    cases hp : d.parent with
    | none => rfl
    | some name =>
      obtain ⟨p, -, -, hbound, -⟩ := hadm (.parent, name) (by simp [ClassDecl.inheritances, hp])
      dsimp only at hbound
      simp [hbound]
  interfaces {c links d} hl hd := by
    obtain ⟨d', hd', hadm, rfl⟩ := (h.assembled c links (links_eq_ok_iff.mp hl)).exists_decl
    rw [hd] at hd'
    cases hd'
    rw [interfaces_compose]
    refine map_some_filterMap_idOf? fun name hname => ?_
    obtain ⟨p, -, -, hp, -⟩ := hadm (.interface, name) (by simp [ClassDecl.inheritances, hname])
    exact ⟨p, hp⟩
  ancestors hl x := h.mem_ancestors_iff_reaches (links_eq_ok_iff.mp hl)
  refl hl := h.isInstanceOf_iff.mpr ⟨⟨_, links_eq_ok_iff.mp hl⟩, .refl⟩
  trans hab hbc := by
    rw [h.isInstanceOf_iff] at *
    exact ⟨hab.1, hab.2.trans hbc.2⟩
  antisymm {a b} hab hba := by
    rw [h.isInstanceOf_iff] at hab hba
    obtain ⟨⟨links, ha⟩, hab⟩ := hab
    rcases Relation.reflTransGen_iff_eq_or_transGen.mp hab with heq | hab
    · exact heq.symm
    · exact absurd (hab.trans_left hba.2) (h.not_reaches_self ha)
  acyclic hl := h.not_reaches_self (links_eq_ok_iff.mp hl)

/-- Whatever has been done to a registry, its resolved classes form a hierarchy. -/
theorem Run.hierarchy {config : Config} {ops : List Operation} (h : Run (new config) ops r) :
    r.Hierarchy :=
  .of_founded h.reachable.founded

/-- A class with a parent that implements an interface. -/
theorem Run.hierarchy_three_classes :
    ∃ r, Run (new {})
        [.register { name := ⟨"I"⟩, kind := .interface },
          .register { name := ⟨"A"⟩, interfaces := [⟨"I"⟩] },
          .register { name := ⟨"B"⟩, parent := some ⟨"A"⟩ }, .resolveAll] r ∧
      r.Hierarchy ∧ r.isInstanceOf ⟨2⟩ ⟨0⟩ = .ok true := by
  let ops : List Operation :=
    [.register { name := ⟨"I"⟩, kind := .interface },
      .register { name := ⟨"A"⟩, interfaces := [⟨"I"⟩] },
      .register { name := ⟨"B"⟩, parent := some ⟨"A"⟩ }, .resolveAll]
  have hanswer : (performAll 5 ops (new {})).map (·.isInstanceOf ⟨2⟩ ⟨0⟩) = some (.ok true) := rfl
  obtain ⟨r, hr, hinst⟩ := Option.map_eq_some_iff.mp hanswer
  have hrun : Run (new {}) ops r := .of_performAll hr
  exact ⟨r, hrun, Run.hierarchy hrun, hinst⟩

end Registry
end Lineage
