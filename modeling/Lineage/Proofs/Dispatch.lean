/-
Method tables of resolved classes.

A table is built from that of the parent by laying own methods over, one level
at a time.  The theorem of this file, `Run.dispatch`, reads it without the
levels: a method is found under a name exactly if a class on the way up the
parents declares it, and it is the one of the first such class.  Interfaces take
no part.  The keys are those of the parent, in their order, and then the new
ones.
-/
import Lineage.Proofs.Hierarchy

namespace Lineage
namespace Registry

variable {r : Registry} {c p x : ClassId} {links : Links} {d : ClassDecl} {key : String}

/-- The method that a class itself declares under a folded name, as tables hold
it. -/
def ownMethod? (r : Registry) (key : String) (c : ClassId) : Option SharedMethod :=
  (r.decl? c).bind fun d => (d.methods.get? key).map fun m => { owner := c, decl := m }

/-- A resolved class, its parent, and so on up to a class without a parent. -/
inductive ParentChain (r : Registry) : ClassId → List ClassId → Prop where
  | root {c : ClassId} {links : Links} (linked : r.links c = .ok links)
      (parentless : links.parent = none) : ParentChain r c [c]
  | child {c p : ClassId} {links : Links} {chain : List ClassId} (linked : r.links c = .ok links)
      (parent : links.parent = some p) (above : ParentChain r p chain) :
      ParentChain r c (c :: chain)

/-! ## One level of a table -/

/-- The table of the parent, from which the table of a class starts. -/
def parentMethods (r : Registry) (links : Links) : Catalog SharedMethod :=
  match links.parent with
  | some p => (r.linksOf p).methods
  | none => .empty

theorem methods_inherited_compose (d : ClassDecl) :
    (r.inherited r.linksOf c d).methods = r.parentMethods (r.compose r.linksOf c d) := by
  cases hp : d.parent.bind r.idOf? <;>
    simp only [methods_inherited, parentMethods, parent_compose, hp]

/-- Own names that are there already keep their place, the others follow. -/
theorem names_foldl_declare {entries : List (String × MethodDecl)}
    (hn : (entries.map Prod.fst).Nodup) (links : Links) :
    (entries.foldl (Links.declare c) links).methods.names =
      links.methods.names ++
        (entries.map Prod.fst).filter fun key => !links.methods.contains key := by
  induction entries generalizing links with
  | nil => simp
  | cons entry rest ih =>
    obtain ⟨k, m⟩ := entry
    rw [List.map_cons, List.nodup_cons] at hn
    have hnames : (links.declare c (k, m)).methods.names =
        if k ∈ links.methods.names then links.methods.names else links.methods.names ++ [k] :=
      Catalog.names_put _ _ _
    -- the key that has just been filed is none of those that are left
    have hrest : ((rest.map Prod.fst).filter fun key =>
          !(links.declare c (k, m)).methods.contains key) =
        (rest.map Prod.fst).filter fun key => !links.methods.contains key := by
      refine List.filter_congr fun key hkey => ?_
      have hne : key ≠ k := fun heq => hn.1 (heq ▸ hkey)
      rw [Bool.eq_iff_iff]
      simp only [Bool.not_eq_true', ← Bool.not_eq_true, Catalog.contains_iff, hnames]
      split <;> simp [hne]
    rw [List.foldl_cons, ih hn.2, hrest, hnames, List.map_cons, List.filter_cons]
    by_cases hk : k ∈ links.methods.names
    · simp [hk, Catalog.contains_iff.mpr hk]
    · have hk' : links.methods.contains k = false := by
        rw [← Bool.not_eq_true, Catalog.contains_iff]
        exact hk
      simp [hk, hk']

theorem names_compose :
    (r.compose r.linksOf c d).methods.names =
      (r.parentMethods (r.compose r.linksOf c d)).names ++ d.methods.names.filter fun key =>
        !(r.parentMethods (r.compose r.linksOf c d)).contains key := by
  rw [← methods_inherited_compose]
  exact names_foldl_declare d.methods.names_nodup (r.inherited r.linksOf c d)

/-- Own methods hide those in the table of the parent. -/
theorem get?_compose_eq (hd : r.decl? c = some d) (key : String) :
    (r.compose r.linksOf c d).methods.get? key =
      (r.ownMethod? key c).or ((r.parentMethods (r.compose r.linksOf c d)).get? key) := by
  rw [get?_compose, methods_inherited_compose, ownMethod?, hd, Option.bind_some]
  cases d.methods.get? key <;> rfl

theorem constructor_compose :
    (r.compose r.linksOf c d).constructor =
      (r.compose r.linksOf c d).method? r.config.constructorName := rfl

/-! ## All levels -/

/-- The recorded parent is referred to. -/
theorem Founded.refers_parent (h : r.Founded) (hc : r.Resolved c links)
    (hp : links.parent = some p) : r.Refers c p := by
  obtain ⟨d, hd, -, rfl⟩ := (h.assembled c links hc).exists_decl
  rw [parent_compose] at hp
  obtain ⟨name, hname, hbound⟩ := Option.bind_eq_some_iff.mp hp
  refine ⟨d, name, hd, ?_, hbound⟩
  rw [ClassDecl.references, hname]
  exact List.mem_append_left _ List.mem_cons_self

/-- By induction down the hierarchy, each table gives what the first class up the
parents stores. -/
theorem Founded.exists_parentChain (h : r.Founded) :
    ∀ c links, r.Resolved c links → ∃ chain, r.ParentChain c chain ∧
      ∀ key, links.methods.get? key = chain.findSome? (r.ownMethod? key) := by
  refine h.induction fun c links hc ih => ?_
  obtain ⟨d, hd, -, hlinks⟩ := (h.assembled c links hc).exists_decl
  have hlevel : ∀ key, links.methods.get? key =
      (r.ownMethod? key c).or ((r.parentMethods links).get? key) := by
    intro key
    rw [hlinks, get?_compose_eq hd]
  cases hparent : links.parent with
  | none =>
    refine ⟨[c], .root (links_eq_ok_iff.mpr hc) hparent, fun key => ?_⟩
    rw [hlevel, parentMethods, hparent]
    cases hown : r.ownMethod? key c <;> simp [hown]
  | some p =>
    have hp := h.refers_parent hc hparent
    obtain ⟨base, hbase⟩ := h.resolved_of_refers hc hp
    obtain ⟨chain, hchain, habove⟩ := ih p base hp hbase
    refine ⟨c :: chain, .child (links_eq_ok_iff.mpr hc) hparent hchain, fun key => ?_⟩
    rw [hlevel, parentMethods, hparent]
    dsimp only
    rw [hbase.linksOf, habove]
    cases hown : r.ownMethod? key c <;> simp [hown]

theorem ownMethod?_eq_some {m : SharedMethod} (h : r.ownMethod? key c = some m) :
    m.owner = c ∧ ∃ d, r.decl? c = some d ∧ d.methods.get? key = some m.decl ∧
      m.decl.declaredBy = some d.name := by
  obtain ⟨d, hd, hm⟩ := Option.bind_eq_some_iff.mp h
  obtain ⟨stored, hstored, rfl⟩ := Option.map_eq_some_iff.mp hm
  exact ⟨rfl, d, hd, hstored, (d.methods_filed _ (Catalog.mem_of_get? hstored)).2⟩

/-- The table of a class with links `links` and declaration `d`, whose parents
are `chain`. -/
structure Dispatch (r : Registry) (c : ClassId) (d : ClassDecl) (links : Links)
    (chain : List ClassId) : Prop where
  declared : r.decl? c = some d
  parents : r.ParentChain c chain
  /-- The first class up the parents that declares the method provides it. -/
  nearest : ∀ name, r.findMethod c name = .ok (chain.findSome? (r.ownMethod? (Text.fold name)))
  /-- Every method comes from a class up the parents, and names it. -/
  origin : ∀ entry ∈ links.methods.entries, entry.2.owner ∈ chain ∧
    ∃ base, r.decl? entry.2.owner = some base ∧
      base.methods.get? entry.1 = some entry.2.decl ∧ entry.2.decl.declaredBy = some base.name
  keys_root : links.parent = none → links.methods.names = d.methods.names
  keys_child : ∀ p base, links.parent = some p → r.links p = .ok base →
    links.methods.names = base.methods.names ++ d.methods.names.filter fun key =>
      !base.methods.contains key
  keys_nodup : links.methods.names.Nodup
  constructor : r.constructor c = r.findMethod c r.config.constructorName

theorem Founded.exists_dispatch (h : r.Founded) (hc : r.Resolved c links) :
    ∃ d chain, Dispatch r c d links chain := by
  obtain ⟨d, hd, -, hlinks⟩ := (h.assembled c links hc).exists_decl
  obtain ⟨chain, hchain, hget⟩ := h.exists_parentChain c links hc
  have hok : r.links c = .ok links := links_eq_ok_iff.mpr hc
  have hnames : links.methods.names = (r.parentMethods links).names ++
      d.methods.names.filter fun key => !(r.parentMethods links).contains key := by
    rw [hlinks]
    exact names_compose
  refine ⟨d, chain, hd, hchain, fun name => ?_, fun entry hentry => ?_, fun hroot => ?_,
    fun p base hp hbase => ?_, links.methods.names_nodup, ?_⟩
  · rw [findMethod, hok]
    exact congrArg Except.ok (hget _)
  · have hstored := (hget entry.1).symm.trans (Catalog.get?_of_mem hentry)
    obtain ⟨x, hx, hown⟩ := List.exists_of_findSome?_eq_some hstored
    obtain ⟨howner, hbase⟩ := ownMethod?_eq_some hown
    rw [howner]
    exact ⟨hx, hbase⟩
  · rw [hnames, parentMethods, hroot]
    simp [Catalog.contains]
  · rw [hnames, parentMethods, hp]
    dsimp only
    rw [Resolved.linksOf (links_eq_ok_iff.mp hbase)]
  · rw [constructor, findMethod, hok]
    refine congrArg Except.ok ?_
    rw [hlinks]
    exact constructor_compose

/-- Whatever has been done to a registry, the table of a resolved class gives
under each name, in any letter case, the method of the nearest class up the
parents that declares it. -/
theorem Run.dispatch {config : Config} {ops : List Operation} (h : Run (new config) ops r)
    (hc : r.links c = .ok links) : ∃ d chain, Dispatch r c d links chain :=
  h.reachable.founded.exists_dispatch (links_eq_ok_iff.mp hc)

/-- A class that declares one of two inherited methods again, in other letters,
and implements an interface with a third one. -/
theorem Run.dispatch_override :
    let decls : List ClassDecl :=
      [.addMethod { name := "ping" } { name := ⟨"I"⟩, kind := .interface },
        .addMethod { name := "stop" } (.addMethod { name := "run" } { name := ⟨"A"⟩ }),
        .addMethod { name := "go" } (.addMethod { name := "STOP" }
          { name := ⟨"B"⟩, parent := some ⟨"A"⟩, interfaces := [⟨"I"⟩] })]
    ∃ r links d chain, Run (new {}) (decls.map .register ++ [.resolveAll]) r ∧
      r.links ⟨2⟩ = .ok links ∧ Dispatch r ⟨2⟩ d links chain ∧
      links.methods.names = ["run", "stop", "go"] ∧
      (r.findMethod ⟨2⟩ "Run").map (Option.map SharedMethod.owner) = .ok (some ⟨1⟩) ∧
      (r.findMethod ⟨2⟩ "Stop").map (Option.map SharedMethod.owner) = .ok (some ⟨2⟩) ∧
      (r.findMethod ⟨2⟩ "ping").map (Option.map SharedMethod.owner) = .ok none := by
  intro decls
  have hrun : (performAll 9 (decls.map .register ++ [.resolveAll]) (new {})).map (fun r =>
      ((r.links ⟨2⟩).map fun links => links.methods.names,
        ["Run", "Stop", "ping"].map fun name =>
          (r.findMethod ⟨2⟩ name).map (Option.map SharedMethod.owner))) =
      some (.ok ["run", "stop", "go"],
        [.ok (some ⟨1⟩), .ok (some ⟨2⟩), .ok none]) := rfl
  obtain ⟨r, hr, hresults⟩ := Option.map_eq_some_iff.mp hrun
  rw [Prod.mk.injEq] at hresults
  obtain ⟨hkeys, hfinds⟩ := hresults
  simp only [List.map_cons, List.map_nil, List.cons.injEq, and_true] at hfinds
  cases hl : r.links ⟨2⟩ with
  | error f =>
    rw [hl] at hkeys
    cases hkeys
  | ok links =>
    rw [hl] at hkeys
    obtain ⟨d, chain, hdispatch⟩ := Run.dispatch (.of_performAll hr) hl
    exact ⟨r, links, d, chain, .of_performAll hr, hl, hdispatch, Except.ok.inj hkeys, hfinds⟩

end Registry
end Lineage
