/-
Which classes can be resolved.

`WellFormed` speaks of declarations only: every name that is referred to is
bound, no class refers back to itself, and, where rules are checked, every class
keeps them.  `Run.resolveId_iff` says that resolution succeeds exactly then, if
no value is pending, and that otherwise the class ends as failed.
-/
import Lineage.Proofs.Order

namespace Lineage
namespace Registry

variable {w r s : Registry} {c p x id : ClassId} {links : Links} {d dx : ClassDecl} {e : Error}

/-- The second class is the declared parent of the first. -/
def IsParent (w : Registry) (c p : ClassId) : Prop :=
  ∃ d name, w.decl? c = some d ∧ d.parent = some name ∧ w.idOf? name = some p

/-- The declarations that a class leads to are in order. -/
structure WellFormed (w : Registry) (id : ClassId) : Prop where
  bound : ∀ c d, w.Reaches id c → w.decl? c = some d →
    ∀ name ∈ d.references, ∃ p, w.idOf? name = some p
  acyclic : ∀ c, w.Reaches id c → ¬ Relation.TransGen w.Refers c c
  parent : w.config.verify = true → ∀ c d, w.Reaches id c → w.decl? c = some d →
    ∀ name p base, d.parent = some name → w.idOf? name = some p → w.decl? p = some base →
      d.kind = .class ∧ base.kind = .class ∧ base.isFinal = false
  interfaces : w.config.verify = true → ∀ c d, w.Reaches id c → w.decl? c = some d →
    ∀ name ∈ d.interfaces, ∀ p base, w.idOf? name = some p → w.decl? p = some base →
      base.kind = .interface
  methods : w.config.verify = true → ∀ c d, w.Reaches id c → w.decl? c = some d →
    ∀ x dx, Relation.TransGen w.IsParent c x → w.decl? x = some dx →
      ∀ key m m', d.methods.get? key = some m → dx.methods.get? key = some m' → m'.isFinal = false

theorem IsParent.refers (h : w.IsParent c p) : w.Refers c p := by
  obtain ⟨d, name, hd, hname, hp⟩ := h
  refine ⟨d, name, hd, ?_, hp⟩
  rw [ClassDecl.references, hname]
  exact List.mem_append_left _ List.mem_cons_self

theorem WellFormed.of_refers (h : w.WellFormed c) (hp : w.Refers c p) : w.WellFormed p where
  bound x d hx := h.bound x d (.head hp hx)
  acyclic x hx := h.acyclic x (.head hp hx)
  parent hv x d hx := h.parent hv x d (.head hp hx)
  interfaces hv x d hx := h.interfaces hv x d (.head hp hx)
  methods hv x d hx := h.methods hv x d (.head hp hx)

/-! ## Rules between two declarations -/

theorem parentViolation?_eq_none_iff {base : ClassDecl} :
    d.parentViolation? base = none ↔
      d.kind = .class ∧ base.kind = .class ∧ base.isFinal = false := by
  unfold ClassDecl.parentViolation? Kind.isClass
  cases d.kind <;> cases base.kind <;> cases base.isFinal <;> simp

theorem interfaceViolation?_eq_none_iff {listed : ClassDecl} :
    listed.interfaceViolation? = none ↔ listed.kind = .interface := by
  unfold ClassDecl.interfaceViolation? Kind.isInterface
  cases listed.kind <;> simp

theorem overrideViolation?_eq_none_iff {m : MethodDecl} :
    m.overrideViolation? = none ↔ m.isFinal = false := by
  unfold MethodDecl.overrideViolation?
  cases m.isFinal <;> simp

theorem mem_inheritances_parent {name : QualifiedName} :
    (Role.parent, name) ∈ d.inheritances ↔ d.parent = some name := by
  cases hp : d.parent <;> simp [ClassDecl.inheritances, hp, eq_comm]

theorem mem_inheritances_interface {name : QualifiedName} :
    (Role.interface, name) ∈ d.inheritances ↔ name ∈ d.interfaces := by
  simp [ClassDecl.inheritances]

/-! ## Methods along the parents -/

/-- The methods a class starts from are those of its parent. -/
theorem get?_inherited {linksOf : ClassId → Links} {key : String} {m : SharedMethod}
    (hd : w.decl? c = some d) (hm : (w.inherited linksOf c d).methods.get? key = some m) :
    ∃ p, w.IsParent c p ∧ (linksOf p).methods.get? key = some m := by
  rw [methods_inherited] at hm
  cases hp : d.parent.bind w.idOf? with
  | none => rw [hp] at hm; cases hm
  | some p =>
    rw [hp] at hm
    obtain ⟨name, hname, hbound⟩ := Option.bind_eq_some_iff.mp hp
    exact ⟨p, ⟨d, name, hd, hname, hbound⟩, hm⟩

theorem inherited_get? {linksOf : ClassId → Links} (key : String) (hd : w.decl? c = some d)
    (hp : w.IsParent c p) :
    (w.inherited linksOf c d).methods.get? key = (linksOf p).methods.get? key := by
  obtain ⟨d', name, hd', hname, hbound⟩ := hp
  rw [hd] at hd'
  cases hd'
  rw [methods_inherited, hname, Option.bind_some, hbound]

/-- Every method in a table is declared by a class on the way up. -/
theorem Yields.exists_declared {key : String} {m : SharedMethod} {d' : ClassDecl}
    (h : w.Yields c links d') (hm : links.methods.get? key = some m) :
    ∃ x dx, Relation.ReflTransGen w.IsParent c x ∧ w.decl? x = some dx ∧
      dx.methods.get? key = some m.decl := by
  induction h generalizing m with
  | @intro c d _ _ _ _ linksOf declOf declared above _ _ _ _ _ ih =>
    rw [get?_compose] at hm
    cases hown : d.methods.get? key with
    | some own =>
      rw [hown] at hm
      cases hm
      exact ⟨c, d, .refl, declared, hown⟩
    | none =>
      rw [hown] at hm
      obtain ⟨p, hp, hm⟩ := get?_inherited declared hm
      obtain ⟨x, dx, hx, hdx, hmx⟩ := ih p (.single hp.refers) hm
      exact ⟨x, dx, .head hp hx, hdx, hmx⟩

/-- Where rules are checked, nothing hides a final method. -/
theorem Yields.get?_of_final {key : String} {m : MethodDecl} {d' : ClassDecl}
    (hv : w.config.verify = true) (hx : Relation.ReflTransGen w.IsParent c x)
    (hdx : w.decl? x = some dx) (hm : dx.methods.get? key = some m) (hfinal : m.isFinal = true)
    (h : w.Yields c links d') : links.methods.get? key = some { owner := x, decl := m } := by
  induction hx using Relation.ReflTransGen.head_induction_on generalizing links d' with
  | refl =>
    cases h with
    | intro declared =>
      rw [hdx] at declared
      cases declared
      rw [get?_compose, hm]
  | @head c p hp _ ih =>
    cases h with
    | @intro _ d _ _ _ _ linksOf declOf declared above admitted permitted =>
      have hbase := ih (above p (.single hp.refers))
      have hinherited := (inherited_get? key declared hp).trans hbase
      rw [get?_compose]
      cases hown : d.methods.get? key with
      | none => exact hinherited
      | some own =>
        have hentry : (key, own) ∈ d.methods.entries := Catalog.mem_of_get? hown
        have hnone := permitted _ hentry hv _ hinherited
        rw [overrideViolation?_eq_none_iff.mp hnone] at hfinal
        cases hfinal

/-! ## Both directions -/

theorem WellFormed.not_objects {ref : Role × QualifiedName} {f : Fault} (h : w.WellFormed c)
    (hobs : w.Obstructed c ref) : ¬ w.Objects c ref f := by
  obtain ⟨d, before, after, ⟨d₀, hd₀, halike⟩, hsplit, -, -⟩ := hobs
  have href : ref ∈ d₀.inheritances := by
    rw [halike.inheritances, hsplit]
    exact List.mem_append_cons_self
  rintro (⟨hnone, -⟩ | ⟨d', p, base, v, hd', hp, ⟨base₀, hbase₀, hbase⟩, -, hv, hbroken, -⟩)
  · obtain ⟨p, hp⟩ := h.bound c d₀ .refl hd₀ ref.2 (ClassDecl.mem_references.mpr ⟨ref.1, href⟩)
    rw [hnone] at hp
    cases hp
  · rw [← Role.violation?_alike (hd'.alike (.of_decl? hd₀)) hbase] at hbroken
    obtain ⟨role, name⟩ := ref
    cases role with
    | parent =>
      have hrule := h.parent hv c d₀ .refl hd₀ name p base₀ (mem_inheritances_parent.mp href) hp
        hbase₀
      rw [Role.violation?, parentViolation?_eq_none_iff.mpr hrule] at hbroken
      cases hbroken
    | interface =>
      have hrule := h.interfaces hv c d₀ .refl hd₀ name (mem_inheritances_interface.mp href) p base₀
        hp hbase₀
      rw [Role.violation?, interfaceViolation?_eq_none_iff.mpr hrule] at hbroken
      cases hbroken

theorem WellFormed.not_override {linksOf : ClassId → Links} {entry : String × MethodDecl}
    {m : SharedMethod} (h : w.WellFormed c) (hinh : w.Inherits w.Linked c d linksOf)
    (hentry : entry ∈ d.methods.entries) (hv : w.config.verify = true)
    (hm : (w.inherited linksOf c d).methods.get? entry.1 = some m) :
    m.decl.overrideViolation? = none := by
  obtain ⟨d₀, hd₀, halike⟩ := hinh.declares
  have hown : d₀.methods.get? entry.1 = some entry.2 := by
    rw [halike.methods]
    exact Catalog.get?_of_mem hentry
  have hm₀ : (w.inherited linksOf c d₀).methods.get? entry.1 = some m := by
    rw [inherited, halike.inheritances]
    exact hm
  obtain ⟨p, hp, hmp⟩ := get?_inherited hd₀ hm₀
  have hlinked : w.Linked p (linksOf p) := by
    obtain ⟨d', name, hd', hname, hbound⟩ := hp
    rw [hd₀] at hd'
    cases hd'
    have href : (Role.parent, name) ∈ d.inheritances := by
      rw [← halike.inheritances]
      exact mem_inheritances_parent.mpr hname
    exact hinh.linked _ href p hbound
  obtain ⟨d', hy⟩ := hlinked
  obtain ⟨x, dx, hx, hdx, hmx⟩ := hy.exists_declared hmp
  exact overrideViolation?_eq_none_iff.mpr
    (h.methods hv c d₀ .refl hd₀ x dx (.head' hp hx) hdx entry.1 _ _ hown hmx)

theorem Linked.of_reaches (h : w.Linked c links) (hx : w.Reaches c x) : ∃ l, w.Linked x l := by
  rcases Relation.reflTransGen_iff_eq_or_transGen.mp hx with rfl | hx
  · exact ⟨links, h⟩
  · obtain ⟨d, h⟩ := h
    exact h.above hx

/-- Linking has checked every name that the class inherits from. -/
theorem Linked.admits {ref : Role × QualifiedName} (h : w.Linked c links) (hd : w.decl? c = some d)
    (href : ref ∈ d.inheritances) : ∃ p base, w.idOf? ref.2 = some p ∧ w.decl? p = some base ∧
      (w.config.verify = true → ref.1.violation? d base = none) := by
  obtain ⟨d', hy⟩ := h
  cases hy with
  | intro declared _ admitted =>
    rw [hd] at declared
    cases declared
    exact admitted ref href

theorem Linked.rule {ref : Role × QualifiedName} {base : ClassDecl} (h : w.Linked c links)
    (hd : w.decl? c = some d) (href : ref ∈ d.inheritances) (hp : w.idOf? ref.2 = some p)
    (hbase : w.decl? p = some base) (hv : w.config.verify = true) :
    ref.1.violation? d base = none := by
  obtain ⟨q, base', hq, hbase', hrule⟩ := h.admits hd href
  rw [hp] at hq
  cases hq
  rw [hbase] at hbase'
  cases hbase'
  exact hrule hv

/-- What a class declares is not final in any class on the way up. -/
theorem Linked.not_final {key : String} {m m' : MethodDecl} (h : w.Linked c links)
    (hd : w.decl? c = some d) (hv : w.config.verify = true)
    (hx : Relation.TransGen w.IsParent c x) (hdx : w.decl? x = some dx)
    (hm : d.methods.get? key = some m) (hm' : dx.methods.get? key = some m') :
    m'.isFinal = false := by
  obtain ⟨d', hy⟩ := h
  obtain ⟨p, hp, hpx⟩ := Relation.TransGen.head'_iff.mp hx
  cases hfinal : m'.isFinal with
  | false => rfl
  | true =>
    cases hy with
    | @intro _ _ _ _ _ _ linksOf declOf declared above admitted permitted =>
      rw [hd] at declared
      cases declared
      have hbase := (above p (.single hp.refers)).get?_of_final hv hpx hdx hm' hfinal
      have hnone := permitted _ (Catalog.mem_of_get? hm) hv _
        ((inherited_get? key hd hp).trans hbase)
      rw [overrideViolation?_eq_none_iff.mp hnone] at hfinal
      cases hfinal

theorem Linked.wellFormed (h : w.Linked id links) : w.WellFormed id where
  bound c d hc hd name hname := by
    obtain ⟨l, hl⟩ := h.of_reaches hc
    obtain ⟨role, href⟩ := ClassDecl.mem_references.mp hname
    obtain ⟨p, -, hp, -⟩ := hl.admits hd href
    exact ⟨p, hp⟩
  acyclic c hc := by
    obtain ⟨l, d, hy⟩ := h.of_reaches hc
    exact hy.acyclic
  parent hv c d hc hd name p base hname hp hbase := by
    obtain ⟨l, hl⟩ := h.of_reaches hc
    have hrule := hl.rule hd (mem_inheritances_parent.mpr hname) hp hbase hv
    exact parentViolation?_eq_none_iff.mp hrule
  interfaces hv c d hc hd name hname p base hp hbase := by
    obtain ⟨l, hl⟩ := h.of_reaches hc
    have hrule := hl.rule hd (mem_inheritances_interface.mpr hname) hp hbase hv
    exact interfaceViolation?_eq_none_iff.mp hrule
  methods hv c d hc hd x dx hx hdx key m m' hm hm' := by
    obtain ⟨l, hl⟩ := h.of_reaches hc
    exact hl.not_final hd hv hx hdx hm hm'

theorem not_uncomputable {f : Fault}
    (hcomputed : ∀ site source, w.lazy? site ≠ some (.pending source)) :
    ¬ w.Uncomputable c d f := by
  rintro ⟨r, s, depth, linksOf, declOf, -, stage, failed, e, rfl⟩
  have hissued : r.Issued c := .of_standing? stage.unresolved
  have hforce : ∀ m, (force depth ⟨c, m⟩ r).Meets (fun _ t => t = r) (fun _ _ => False) True := by
    intro m
    cases depth with
    | zero => trivial
    | succ depth =>
      obtain ⟨v, hv⟩ := force_of_computed depth hissued
        (fun e he => by rw [stage.unresolved] at he; cases he) fun source hs =>
          hcomputed ⟨c, m⟩ source
            (stage.within.grows.pending (stage.within.issued_iff.mp hissued) hs)
      rw [hv]
      rfl
  have hall : (forceAll (force depth) c d r).Meets (fun _ t => t = r) (fun _ _ => False) True := by
    refine Eval.meets_forEach (I := fun _ t => t = r) ?_ d.lazyMembers [] r rfl rfl
    rintro before m after t - rfl
    exact Eval.meets_bind (hforce m) fun _ _ ht => ht
  rw [failed] at hall
  exact hall

theorem Fails.not_wellFormed (hcomputed : ∀ site source, w.lazy? site ≠ some (.pending source))
    (h : w.Fails c e) : ¬ w.WellFormed c := by
  induction h with
  | @own c e refused =>
    intro hwf
    rcases refused.own_cases with ⟨ref, hobs, hobjects⟩ | ⟨d, linksOf, hinh, hrest⟩
    · exact hwf.not_objects hobs hobjects
    rcases hrest with ⟨before, entry, after, m, v, hsplit, -, hm, hv, hbroken, -⟩ | ⟨-, hbad⟩
    · have hentry : entry ∈ d.methods.entries := by
        rw [hsplit]
        exact List.mem_append_cons_self
      rw [hwf.not_override hinh hentry hv hm] at hbroken
      cases hbroken
    · exact not_uncomputable hcomputed hbad
  | inherited awaits bad ih => exact fun hwf => ih (hwf.of_refers awaits.refers)
  | cycle nodup ring member =>
    intro hwf
    exact hwf.acyclic _ .refl
      (Relation.TransGen.mono (fun _ _ h => Awaits.refers h) _ _ (transGen_of_ring ring member))

/-! ## Resolution -/

theorem Rests.resolveId_meets (hw : w.Fresh) (h : Rests w r) {depth : Nat}
    (hcomputed : ∀ site source, w.lazy? site ≠ some (.pending source)) (hid : r.Issued id)
    (hdepth : r.size + 2 ≤ depth) :
    (resolveId depth id r).Meets (fun _ s => ∃ links, s.Resolved id links ∧ w.Linked id links)
      (fun f s => ∃ e, f = .raised e ∧ s.standing? id = some (.failed e) ∧ w.Fails id e) False := by
  have htracks := resolveId_tracks hw depth id r h.tracks (h.tracks.within.issued_iff.mp hid) (by
    rw [h.resolving]
    intro outer hout
    cases hout)
  refine htracks.imp ?_ ?_ ?_
  · rintro _ s ⟨hs, -, -, links, hl⟩
    exact ⟨links, hl, hs.linked id links hl⟩
  · rintro f s ⟨hs, hstack, -, e, rfl, hfailed | hcycle⟩
    · exact ⟨e, rfl, hfailed, hs.failed id e hfailed⟩
    · have hnone : s.cycle? id = none := by
        rw [cycle?_eq_none_iff, hstack, h.resolving]
        exact List.not_mem_nil
      rw [hnone] at hcycle
      cases hcycle
  · rintro (hlt | ⟨site, source, hp⟩)
    · rw [h.resolving, ← h.tracks.within.size] at hlt
      exact absurd hlt (by simp only [List.length_nil]; omega)
    · exact hcomputed site source hp

/-- Register any classes whose values are all there, and resolve as you like.
Then a class can be resolved exactly if it is well-formed, and if it is not, it
ends as failed with the error that is raised. -/
theorem Run.resolveId_iff {config : Config} {decls : List ClassDecl} {ops : List Operation}
    {depth : Nat} (hstart : Run (new config) (decls.map .register) w)
    (hvalues : ∀ d ∈ decls, d.everyValue Lazy.isSettled = true) (h : Run w ops r)
    (hops : ∀ op ∈ ops, op.isResolution = true) (hid : r.Issued id)
    (hdepth : r.size + 2 ≤ depth) :
    ((∃ s, resolveId depth id r = .value () s) ↔ w.WellFormed id) ∧
      (¬ w.WellFormed id → ∃ e s, resolveId depth id r = .failure (.raised e) s ∧
        s.standing? id = some (.failed e)) := by
  obtain ⟨hindexed, hresolving, hevaluating⟩ := hstart.idle
  have hregistered := hstart.registered
  have hcomputed : ∀ site source, w.lazy? site ≠ some (.pending source) := by
    intro site source hp
    obtain ⟨d, hd, hl⟩ := hregistered.lazy? hp
    cases ClassDecl.everyValue_iff.mp (hvalues d hd) _ _ hl
  have hw : w.Fresh :=
    ⟨hindexed, hregistered.hookless, fun _ _ => hregistered.standing?, hresolving, hevaluating,
      fun site source hp => absurd hp (hcomputed site source)⟩
  have hmeets := (h.rests hw hops hw.rests).resolveId_meets hw hcomputed hid hdepth
  cases hrun : resolveId depth id r with
  | value u s =>
    rw [hrun] at hmeets
    obtain ⟨links, -, hlinked⟩ := hmeets
    have hwf := hlinked.wellFormed
    exact ⟨⟨fun _ => hwf, fun _ => ⟨s, rfl⟩⟩, fun hnot => absurd hwf hnot⟩
  | failure f s =>
    rw [hrun] at hmeets
    obtain ⟨e, rfl, hfailed, hfails⟩ := hmeets
    have hnot := hfails.not_wellFormed hcomputed
    refine ⟨⟨?_, fun hwf => absurd hwf hnot⟩, fun _ => ⟨e, s, rfl, hfailed⟩⟩
    rintro ⟨s, hs⟩
    cases hs
  | tooDeep =>
    rw [hrun] at hmeets
    exact hmeets.elim

/-- A class that inherits a final method is well-formed, and one that declares it
again is not. -/
theorem Run.resolveId_iff_final_method :
    let decls : List ClassDecl :=
      [.addMethod { name := "run", modifiers := .finalBit } { name := ⟨"A"⟩ },
        { name := ⟨"B"⟩, parent := some ⟨"A"⟩ },
        .addMethod { name := "RUN" } { name := ⟨"C"⟩, parent := some ⟨"B"⟩ }]
    ∃ w r, Run (new {}) (decls.map .register) w ∧ Run w [.resolveId ⟨2⟩, .resolveAll] r ∧
      w.WellFormed ⟨1⟩ ∧ ¬ w.WellFormed ⟨2⟩ := by
  intro decls
  have hrun : ((performAll 9 (decls.map .register) (new {})).bind fun w =>
      (performAll 9 [.resolveId ⟨2⟩, .resolveAll] w).map fun r =>
        (r.size, (resolveId 9 ⟨1⟩ r).isValue, (resolveId 9 ⟨2⟩ r).isValue)) =
      some (3, true, false) := rfl
  obtain ⟨w, hw, hrest⟩ := Option.bind_eq_some_iff.mp hrun
  obtain ⟨r, hr, hresults⟩ := Option.map_eq_some_iff.mp hrest
  rw [Prod.mk.injEq, Prod.mk.injEq] at hresults
  obtain ⟨hsize, hone, htwo⟩ := hresults
  have hiff : ∀ id : ClassId, r.Issued id →
      ((∃ s, resolveId 9 id r = .value () s) ↔ w.WellFormed id) := fun id hid =>
    (Run.resolveId_iff (.of_performAll hw) (by decide) (.of_performAll hr) (by decide) hid
      (by omega)).1
  refine ⟨w, r, .of_performAll hw, .of_performAll hr, ?_, fun hwf => ?_⟩
  · obtain ⟨_, s, hs⟩ := Outcome.isValue_iff.mp hone
    exact (hiff ⟨1⟩ (by rw [Issued, hsize]; decide)).mp ⟨s, hs⟩
  · obtain ⟨s, hs⟩ := (hiff ⟨2⟩ (by rw [Issued, hsize]; decide)).mpr hwf
    rw [hs] at htwo
    cases htwo

end Registry
end Lineage
