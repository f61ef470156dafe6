/-
What linking a class yields, and why it can fail.

`compose` gives the links of a class in closed form from the links of what it
inherits from.  `link_meets` says that linking either arrives at exactly these
links (`Assembled`) or fails at the first obstacle (`Refused`).  Both speak of a
relation `Linked` between classes and links, which is the standing of the
classes in one use of the theorem and a derivation in another.
-/
import Lineage.Proofs.Outcome
import Lineage.Proofs.State
import Mathlib.Data.List.Basic

namespace Lineage

/-- Whether linking a class raises the error by itself. -/
def Error.isOfLinking : Error → Bool
  | .classNotFound _ => true
  | .invalidInheritance _ _ _ => true
  | _ => false

/-! ## Links in closed form -/

namespace Links

/-- Take over what a class in the given role has to offer. -/
def extend (links : Links) (role : Role) (id : ClassId) (base : Links) : Links :=
  match role with
  | .parent =>
    { links.addAncestors base.ancestors with parent := some id, methods := base.methods }
  | .interface =>
    { links.addAncestors base.ancestors with interfaces := links.interfaces ++ [id] }

/-- Lay one own method over the methods that are there. -/
def declare (id : ClassId) (links : Links) (entry : String × MethodDecl) : Links :=
  { links with methods := links.methods.put entry.1 { owner := id, decl := entry.2 } }

end Links

namespace Registry

/-- Take over what one inherited name has to offer, where `linksOf` gives the
links of every class. -/
def inherit (r : Registry) (linksOf : ClassId → Links) (links : Links)
    (ref : Role × QualifiedName) : Links :=
  match r.idOf? ref.2 with
  | some p => links.extend ref.1 p (linksOf p)
  | none => links

/-- The links of a class before its own methods are laid over. -/
def inherited (r : Registry) (linksOf : ClassId → Links) (id : ClassId) (d : ClassDecl) : Links :=
  d.inheritances.foldl (r.inherit linksOf) { ancestors := [id] }

/-- The links of a class. -/
def compose (r : Registry) (linksOf : ClassId → Links) (id : ClassId) (d : ClassDecl) : Links :=
  let full := d.methods.entries.foldl (Links.declare id) (r.inherited linksOf id d)
  { full with constructor := full.method? r.config.constructorName }

/-! ## Conditions of linking -/

/-- The registered declaration of a class, up to values. -/
def Declares (r : Registry) (id : ClassId) (d : ClassDecl) : Prop :=
  ∃ d', r.decl? id = some d' ∧ d.Alike d'

/-- A class stands resolved with the given links. -/
def Resolved (r : Registry) (id : ClassId) (links : Links) : Prop :=
  r.standing? id = some (.resolved links)

/-- The links of the resolved classes. -/
def linksOf (r : Registry) (id : ClassId) : Links :=
  match r.standing? id with
  | some (.resolved links) => links
  | _ => {}

section Conditions

variable (r : Registry) (Linked : ClassId → Links → Prop)

/-- An inherited name is bound to a linked class that breaks no rule. -/
def Admits (d : ClassDecl) (ref : Role × QualifiedName) : Prop :=
  ∃ p base links, r.idOf? ref.2 = some p ∧ r.Declares p base ∧ Linked p links ∧
    (r.config.verify = true → ref.1.violation? d base = none)

/-- Linking of the first class has come to a name that is bound to the second. -/
def Awaits (id p : ClassId) : Prop :=
  ∃ d before ref after, r.Declares id d ∧ d.inheritances = before ++ ref :: after ∧
    (∀ x ∈ before, r.Admits Linked d x) ∧ r.idOf? ref.2 = some p

/-- An own method overrides no final one. -/
def Permits (links : Links) (entry : String × MethodDecl) : Prop :=
  r.config.verify = true → ∀ m, links.methods.get? entry.1 = some m →
    m.decl.overrideViolation? = none

/-- Everything that a class inherits from is linked. -/
structure Inherits (id : ClassId) (d : ClassDecl) (linksOf : ClassId → Links) : Prop where
  declares : r.Declares id d
  admits : ∀ ref ∈ d.inheritances, r.Admits Linked d ref
  linked : ∀ ref ∈ d.inheritances, ∀ p, r.idOf? ref.2 = some p → Linked p (linksOf p)

/-- A class with the given links has passed every step of linking. -/
structure Assembly (Good : LazySite → Prop) (id : ClassId) (d : ClassDecl)
    (linksOf : ClassId → Links) (links : Links) : Prop where
  inherits : r.Inherits Linked id d linksOf
  permits : ∀ entry ∈ d.methods.entries, r.Permits (r.inherited linksOf id d) entry
  computed : ∀ member ∈ d.lazyMembers, Good { owner := id, member := member }
  links_eq : links = r.compose linksOf id d

def Assembled (Good : LazySite → Prop) (id : ClassId) (links : Links) : Prop :=
  ∃ d linksOf, r.Assembly Linked Good id d linksOf links

/-- A class has failed at the first step of linking that cannot be passed.
`Bad` and `BadMembers` describe the failures of what it inherits from and of its
own values. -/
inductive Refused (Bad : ClassId → Fault → Prop) (BadMembers : ClassDecl → Fault → Prop)
    (id : ClassId) : Fault → Prop where
  | unbound {d before ref after} (declares : r.Declares id d)
      (split : d.inheritances = before ++ ref :: after)
      (passed : ∀ x ∈ before, r.Admits Linked d x) (unbound : r.idOf? ref.2 = none) :
      Refused Bad BadMembers id (.raised (.classNotFound ref.2.text))
  | reference {p fault} (awaits : r.Awaits Linked id p) (bad : Bad p fault) :
      Refused Bad BadMembers id fault
  | rule {d before ref after p base links v} (declares : r.Declares id d)
      (split : d.inheritances = before ++ ref :: after)
      (passed : ∀ x ∈ before, r.Admits Linked d x) (bound : r.idOf? ref.2 = some p)
      (declaresBase : r.Declares p base) (linked : Linked p links)
      (verify : r.config.verify = true) (broken : ref.1.violation? d base = some v) :
      Refused Bad BadMembers id (.raised (.invalidInheritance d.name.text base.name.text v))
  | override {d linksOf before entry after m v} (inherits : r.Inherits Linked id d linksOf)
      (split : d.methods.entries = before ++ entry :: after)
      (passed : ∀ x ∈ before, r.Permits (r.inherited linksOf id d) x)
      (found : (r.inherited linksOf id d).methods.get? entry.1 = some m)
      (verify : r.config.verify = true) (broken : m.decl.overrideViolation? = some v) :
      Refused Bad BadMembers id
        (.raised (.invalidInheritance d.name.text m.decl.qualifiedName v))
  | members {d linksOf fault} (inherits : r.Inherits Linked id d linksOf)
      (permits : ∀ x ∈ d.methods.entries, r.Permits (r.inherited linksOf id d) x)
      (bad : BadMembers d fault) :
      Refused Bad BadMembers id fault

end Conditions

theorem Refused.raised {r : Registry} {Linked : ClassId → Links → Prop}
    {Bad : ClassId → Fault → Prop} {BadMembers : ClassDecl → Fault → Prop} {id : ClassId}
    {f : Fault} (h : r.Refused Linked Bad BadMembers id f)
    (hb : ∀ p f, Bad p f → ∃ e, f = .raised e) (hm : ∀ d f, BadMembers d f → ∃ e, f = .raised e) :
    ∃ e, f = .raised e := by
  cases h with
  | unbound => exact ⟨_, rfl⟩
  | reference awaits bad => exact hb _ _ bad
  | rule => exact ⟨_, rfl⟩
  | override => exact ⟨_, rfl⟩
  | members inherits permits bad => exact hm _ _ bad

/-! ## Later registries keep what has been passed -/

variable {r s : Registry} {id : ClassId}

theorem Declares.of_decl? {d : ClassDecl} (h : r.decl? id = some d) : r.Declares id d :=
  ⟨d, h, .refl d⟩

theorem Declares.mono {d : ClassDecl} (hs : r.Extends s) (h : r.Declares id d) :
    s.Declares id d := by
  obtain ⟨d', hd', ha⟩ := h
  obtain ⟨d'', hd'', hst⟩ := hs.declared hd'
  exact ⟨d'', hd'', ha.trans hst.alike⟩

theorem Declares.alike {d d' : ClassDecl} (h : r.Declares id d) (h' : r.Declares id d') :
    d.Alike d' := by
  obtain ⟨e, he, ha⟩ := h
  obtain ⟨e', he', ha'⟩ := h'
  rw [he] at he'
  cases he'
  exact ha.trans ha'.symm

theorem Declares.issued {d : ClassDecl} (h : r.Declares id d) : r.Issued id := by
  obtain ⟨d', hd', -⟩ := h
  exact .of_decl? hd'

theorem Resolved.linksOf {links : Links} (h : r.Resolved id links) : r.linksOf id = links := by
  unfold Registry.linksOf
  rw [show r.standing? id = some (.resolved links) from h]

theorem Admits.mono {d : ClassDecl} {ref : Role × QualifiedName} (hs : r.Extends s)
    (h : r.Admits r.Resolved d ref) : s.Admits s.Resolved d ref := by
  obtain ⟨p, base, links, hp, hb, hl, hv⟩ := h
  exact ⟨p, base, links, hs.bound hp, hb.mono hs, hs.resolved hl, by rw [hs.config]; exact hv⟩

theorem inherit_mono {d : ClassDecl} {ref : Role × QualifiedName} (hs : r.Extends s)
    (h : r.Admits r.Resolved d ref) (links : Links) :
    s.inherit s.linksOf links ref = r.inherit r.linksOf links ref := by
  obtain ⟨p, base, l, hp, -, hl, -⟩ := h
  unfold inherit
  rw [hp, hs.bound hp]
  dsimp only
  rw [Resolved.linksOf hl, Resolved.linksOf (hs.resolved hl)]

theorem foldl_inherit_mono {d : ClassDecl} {refs : List (Role × QualifiedName)} (hs : r.Extends s)
    (h : ∀ ref ∈ refs, r.Admits r.Resolved d ref) (links : Links) :
    refs.foldl (s.inherit s.linksOf) links = refs.foldl (r.inherit r.linksOf) links :=
  List.foldl_ext _ _ _ fun links ref href => inherit_mono hs (h ref href) links

/-! ## Parent and interfaces in one loop -/

/-- Find, link and check what one name is bound to. -/
def inheritOne (resolve : ClassId → Eval Registry Unit) (d : ClassDecl)
    (ref : Role × QualifiedName) : Eval Registry (ClassId × Links) := do
  let p ← lookup ref.2
  resolve p
  let base ← .ask (·.decl p)
  reject d.name.text base.name.text (ref.1.violation? d base)
  let links ← .ask (·.links p)
  pure (p, links)

/-- Take over what each of a list of names has to offer. -/
def inheritAll (resolve : ClassId → Eval Registry Unit) (d : ClassDecl) :
    List (Role × QualifiedName) → Links → Eval Registry Links
  | [], links => pure links
  | ref :: rest, links => do
    let found ← inheritOne resolve d ref
    inheritAll resolve d rest (links.extend ref.1 found.1 found.2)

section Loop

variable {resolve : ClassId → Eval Registry Unit} {d : ClassDecl}

theorem inheritAll_append (refs refs' : List (Role × QualifiedName)) (links : Links) :
    inheritAll resolve d (refs ++ refs') links =
      inheritAll resolve d refs links >>= inheritAll resolve d refs' := by
  induction refs generalizing links with
  | nil => simp [inheritAll]
  | cons ref rest ih => simp [inheritAll, ih]

theorem inheritParent_eq (links : Links) :
    inheritParent resolve d links =
      inheritAll resolve d (d.parent.toList.map (Role.parent, ·)) links := by
  unfold inheritParent
  cases d.parent with
  | none => rfl
  | some name => simp [inheritAll, inheritOne, Links.extend, Role.violation?]

theorem inheritInterfaces_eq (names : List QualifiedName) (links : Links) :
    inheritInterfaces resolve d names links =
      inheritAll resolve d (names.map (Role.interface, ·)) links := by
  induction names generalizing links with
  | nil => rfl
  | cons name rest ih =>
    simp [inheritInterfaces, inheritAll, inheritOne, Links.extend, Role.violation?, ih]

end Loop

/-- Compute every value of a class in the given way. -/
def forceAll (force : LazySite → Eval Registry Value) (id : ClassId) (d : ClassDecl) :
    Eval Registry Unit :=
  .forEach (fun member => do let _ ← force { owner := id, member := member }) d.lazyMembers

theorem link_eq (resolve : ClassId → Eval Registry Unit) (force : LazySite → Eval Registry Value)
    (id : ClassId) :
    link resolve force id = (do
      let d ← .ask (·.decl id)
      let links ← inheritAll resolve d d.inheritances { ancestors := [id] }
      let links ← declareMethods id d d.methods.entries links
      forceAll force id d
      let r ← .get
      pure { links with constructor := links.method? r.config.constructorName }) := by
  unfold link forceAll
  simp only [inheritParent_eq, inheritInterfaces_eq, ClassDecl.inheritances, inheritAll_append,
    bind_assoc]

/-! ## Each step and how it fails -/

theorem reject_meets (className target : String) (violation : Option Violation) (r : Registry)
    (D : Prop) :
    (reject className target violation r).Meets
      (fun _ s => s = r ∧ (r.config.verify = true → violation = none))
      (fun f s => s = r ∧ ∃ v, r.config.verify = true ∧ violation = some v ∧
        f = .raised (.invalidInheritance className target v)) D := by
  refine Eval.meets_bind (Eval.meets_get (Q := fun a s => a = r ∧ s = r) ⟨rfl, rfl⟩) ?_
  rintro a s ⟨rfl, rfl⟩
  cases violation with
  | none => exact ⟨rfl, fun _ => rfl⟩
  | some v =>
    dsimp only
    split
    · rename_i hv
      exact ⟨rfl, v, hv, rfl, rfl⟩
    · rename_i hv
      exact ⟨rfl, fun h => absurd h hv⟩

theorem get?_foldl_declare {entries : List (String × MethodDecl)} {key : String}
    (h : key ∉ entries.map Prod.fst) (links : Links) :
    (entries.foldl (Links.declare id) links).methods.get? key = links.methods.get? key := by
  induction entries generalizing links with
  | nil => rfl
  | cons entry rest ih =>
    rw [List.map_cons, List.mem_cons, not_or] at h
    rw [List.foldl_cons, ih h.2, Links.declare, Catalog.get?_put, if_neg h.1]

/-- Own methods are laid over one by one; as their names differ, each of them
meets what was inherited. -/
theorem declareMethods_meets (d : ClassDecl) (base : Links) (r : Registry) (D : Prop)
    {all : List (String × MethodDecl)} (hn : (all.map Prod.fst).Nodup) :
    ∀ after before, all = before ++ after → (∀ x ∈ before, r.Permits base x) →
    (declareMethods id d after (before.foldl (Links.declare id) base) r).Meets
      (fun l s => s = r ∧ (∀ entry ∈ all, r.Permits base entry) ∧
        l = all.foldl (Links.declare id) base)
      (fun f s => s = r ∧ ∃ before entry after m v, all = before ++ entry :: after ∧
        (∀ x ∈ before, r.Permits base x) ∧ base.methods.get? entry.1 = some m ∧
        r.config.verify = true ∧ m.decl.overrideViolation? = some v ∧
        f = .raised (.invalidInheritance d.name.text m.decl.qualifiedName v)) D := by
  intro after
  induction after with
  | nil =>
    intro before hall hb
    rw [List.append_nil] at hall
    subst hall
    exact ⟨rfl, hb, rfl⟩
  | cons entry rest ih =>
    intro before hall hb
    have hget : (before.foldl (Links.declare id) base).methods.get? entry.1 =
        base.methods.get? entry.1 := by
      refine get?_foldl_declare ?_ base
      rw [hall, List.map_append, List.map_cons, List.nodup_append] at hn
      exact fun h => hn.2.2 entry.1 h entry.1 List.mem_cons_self rfl
    have hnext : r.Permits base entry → _ := fun hp => ih (before ++ [entry])
      (by rw [hall, List.append_assoc]; rfl) fun x hx => by
        rcases List.mem_append.mp hx with hx | hx
        · exact hb x hx
        · rwa [List.mem_singleton.mp hx]
    rw [List.foldl_append] at hnext
    unfold declareMethods
    rw [hget]
    cases hm : base.methods.get? entry.1 with
    | none => exact hnext fun _ m h => by rw [hm] at h; cases h
    | some m =>
      refine Eval.meets_bind ((reject_meets _ _ _ r D).imp (fun _ _ h => h) ?_ fun h => h) ?_
      · rintro f s ⟨hs, v, hv, hbr, hf⟩
        exact ⟨hs, before, entry, rest, m, v, hall, hb, hm, hv, hbr, hf⟩
      · rintro _ s ⟨rfl, hp⟩
        refine hnext fun hv m' h => ?_
        rw [hm] at h
        cases h
        exact hp hv

/-! ## All steps together -/

/-- What the steps of linking a class with declaration `d` keep and how they end.
`I` is what is known of the registry until everything inherited is linked, `J`
what is known after a failure, and `K` when all own values are there. -/
structure LinkSteps (I : Registry → Prop) (J : Fault → Registry → Prop) (K : Registry → Prop)
    (Bad : ClassId → Fault → Registry → Prop)
    (BadMembers : ClassDecl → Fault → Registry → Prop) (D : Prop)
    (resolve : ClassId → Eval Registry Unit) (force : LazySite → Eval Registry Value)
    (id : ClassId) (d : ClassDecl) : Prop where
  indexed : ∀ r, I r → r.Indexed
  weaken : ∀ e r, I r → e.isOfLinking = true → J (.raised e) r
  lookup : ∀ name r, I r → (lookup name r).Meets
    (fun p s => I s ∧ r.Extends s ∧ s.idOf? name = some p)
    (fun f s => I s ∧ r.Extends s ∧ s.idOf? name = none ∧ f = .raised (.classNotFound name.text))
    D
  resolve : ∀ p r, I r → r.Issued p → r.Awaits r.Resolved id p → (resolve p r).Meets
    (fun _ s => I s ∧ r.Extends s ∧ ∃ links, s.Resolved p links)
    (fun f s => J f s ∧ r.Extends s ∧ Bad p f s) D
  members : ∀ r, I r → r.Inherits r.Resolved id d r.linksOf →
    (forceAll force id d r).Meets
      (fun _ s => K s ∧ r.Extends s ∧
        ∀ member ∈ d.lazyMembers, s.Computed { owner := id, member := member })
      (fun f s => J f s ∧ r.Extends s ∧ BadMembers d f s) D

section Steps

variable {I K : Registry → Prop} {J : Fault → Registry → Prop}
  {Bad : ClassId → Fault → Registry → Prop}
  {BadMembers : ClassDecl → Fault → Registry → Prop} {D : Prop}
  {resolve : ClassId → Eval Registry Unit} {force : LazySite → Eval Registry Value}
  {d : ClassDecl}

/-- Why linking failed, read off the registry that it left behind. -/
abbrev RefusedIn (Bad : ClassId → Fault → Registry → Prop)
    (BadMembers : ClassDecl → Fault → Registry → Prop) (id : ClassId) (f : Fault)
    (r : Registry) : Prop :=
  r.Refused r.Resolved (fun p g => Bad p g r) (fun d g => BadMembers d g r) id f

theorem inheritOne_meets (h : LinkSteps I J K Bad BadMembers D resolve force id d)
    {before after : List (Role × QualifiedName)} {ref : Role × QualifiedName} (hI : I r)
    (hd : r.Declares id d) (hsplit : d.inheritances = before ++ ref :: after)
    (hb : ∀ x ∈ before, r.Admits r.Resolved d x) :
    (inheritOne resolve d ref r).Meets
      (fun found s => I s ∧ r.Extends s ∧ s.Admits s.Resolved d ref ∧
        s.idOf? ref.2 = some found.1 ∧ s.Resolved found.1 found.2)
      (fun f s => J f s ∧ r.Extends s ∧ RefusedIn Bad BadMembers id f s) D := by
  refine Eval.meets_bind ((h.lookup ref.2 r hI).imp (fun _ _ h => h) ?_ fun h => h) ?_
  · rintro f s ⟨hs, hext, hn, rfl⟩
    exact ⟨h.weaken _ s hs rfl, hext,
      .unbound (hd.mono hext) hsplit (fun x hx => (hb x hx).mono hext) hn⟩
  rintro p s ⟨hs, hext, hp⟩
  have hissued := h.indexed s hs _ _ hp
  have hawaits : s.Awaits s.Resolved id p :=
    ⟨d, before, ref, after, hd.mono hext, hsplit, fun x hx => (hb x hx).mono hext, hp⟩
  refine Eval.meets_bind ((h.resolve p s hs hissued hawaits).imp (fun _ _ h => h) ?_
    fun h => h) ?_
  · rintro f t ⟨ht, hext', hbad⟩
    have hawaits' : t.Awaits t.Resolved id p :=
      ⟨d, before, ref, after, hd.mono (hext.trans hext'), hsplit,
        fun x hx => (hb x hx).mono (hext.trans hext'), hext'.bound hp⟩
    exact ⟨ht, hext.trans hext', .reference hawaits' hbad⟩
  rintro _ t ⟨ht, hext', links, hl⟩
  have hext := hext.trans hext'
  have hp := hext'.bound hp
  obtain ⟨base, hbase⟩ := issued_iff_decl?.mp (hext'.issued hissued)
  refine Eval.meets_bind
    (Eval.meets_ask (Q := fun a u => a = base ∧ u = t) (fun a ha => ?_) fun f hf => ?_) ?_
  · rw [decl_eq_ok_iff, hbase] at ha
    cases ha
    exact ⟨rfl, rfl⟩
  · exact absurd hf (decl_eq_error (.of_decl? hbase) f)
  rintro _ _ ⟨rfl, rfl⟩
  rename_i base t
  refine Eval.meets_bind ((reject_meets _ _ _ t D).imp (fun _ _ h => h) ?_ fun h => h) ?_
  · rintro f u ⟨rfl, v, hv, hbr, rfl⟩
    exact ⟨h.weaken _ _ ht rfl, hext,
      .rule (hd.mono hext) hsplit (fun x hx => (hb x hx).mono hext) hp
      (.of_decl? hbase) hl hv hbr⟩
  rintro _ u ⟨rfl, hrule⟩
  refine Eval.meets_bind
    (Eval.meets_ask (Q := fun a v => a = links ∧ v = u) (fun a ha => ?_) fun f hf => ?_) ?_
  · rw [links_eq_ok_iff, show u.standing? p = _ from hl] at ha
    cases ha
    exact ⟨rfl, rfl⟩
  · rw [links_eq_ok_iff.mpr hl] at hf
    cases hf
  rintro _ _ ⟨rfl, rfl⟩
  exact ⟨ht, hext, ⟨p, base, _, hp, .of_decl? hbase, hl, hrule⟩, hp, hl⟩

theorem inheritAll_meets (h : LinkSteps I J K Bad BadMembers D resolve force id d) (init : Links) :
    ∀ after before r, d.inheritances = before ++ after → I r → r.Declares id d →
    (∀ x ∈ before, r.Admits r.Resolved d x) →
    (inheritAll resolve d after (before.foldl (r.inherit r.linksOf) init) r).Meets
      (fun l s => I s ∧ r.Extends s ∧ (∀ x ∈ d.inheritances, s.Admits s.Resolved d x) ∧
        l = d.inheritances.foldl (s.inherit s.linksOf) init)
      (fun f s => J f s ∧ r.Extends s ∧ RefusedIn Bad BadMembers id f s) D := by
  intro after
  induction after with
  | nil =>
    intro before r hsplit hI hd hb
    rw [List.append_nil] at hsplit
    subst hsplit
    exact ⟨hI, .refl r, hb, rfl⟩
  | cons ref rest ih =>
    intro before r hsplit hI hd hb
    refine Eval.meets_bind (inheritOne_meets h hI hd hsplit hb) ?_
    rintro ⟨p, base⟩ s ⟨hs, hext, hadm, hp, hl⟩
    have hb' : ∀ x ∈ before ++ [ref], s.Admits s.Resolved d x := by
      intro x hx
      rcases List.mem_append.mp hx with hx | hx
      · exact (hb x hx).mono hext
      · rwa [List.mem_singleton.mp hx]
    have hlinks : (before.foldl (r.inherit r.linksOf) init).extend ref.1 p base =
        (before ++ [ref]).foldl (s.inherit s.linksOf) init := by
      rw [List.foldl_append, foldl_inherit_mono hext hb, List.foldl_cons, List.foldl_nil, inherit,
        hp]
      dsimp only
      rw [Resolved.linksOf hl]
    dsimp only
    rw [hlinks]
    refine (ih (before ++ [ref]) s (by rw [hsplit, List.append_assoc]; rfl) hs (hd.mono hext)
      hb').imp ?_ ?_ fun h => h
    · rintro l t ⟨ht, hext', hall⟩
      exact ⟨ht, hext.trans hext', hall⟩
    · rintro f t ⟨ht, hext', hr⟩
      exact ⟨ht, hext.trans hext', hr⟩

theorem Inherits.of_admits (hd : r.Declares id d)
    (ha : ∀ x ∈ d.inheritances, r.Admits r.Resolved d x) :
    r.Inherits r.Resolved id d r.linksOf := by
  refine ⟨hd, ha, fun ref href p hp => ?_⟩
  obtain ⟨q, base, links, hq, -, hl, -⟩ := ha ref href
  rw [hp] at hq
  cases hq
  rwa [hl.linksOf]

theorem Inherits.mono (hs : r.Extends s) (h : r.Inherits r.Resolved id d r.linksOf) :
    s.Inherits s.Resolved id d s.linksOf :=
  .of_admits (h.declares.mono hs) fun x hx => (h.admits x hx).mono hs

theorem inherited_mono (hs : r.Extends s) (h : r.Inherits r.Resolved id d r.linksOf) :
    s.inherited s.linksOf id d = r.inherited r.linksOf id d :=
  foldl_inherit_mono hs h.admits _

theorem Permits.mono {links : Links} {entry : String × MethodDecl} (hs : r.Extends s)
    (h : r.Permits links entry) : s.Permits links entry := by
  unfold Permits
  rw [hs.config]
  exact h

/-- Linking arrives at the links in closed form, or fails at the first step that
cannot be passed. -/
theorem link_meets (h : LinkSteps I J K Bad BadMembers D resolve force id d) (hI : I r)
    (hd : r.decl? id = some d) :
    (link resolve force id r).Meets
      (fun links s => K s ∧ r.Extends s ∧ s.Assembly s.Resolved s.Computed id d s.linksOf links)
      (fun f s => J f s ∧ r.Extends s ∧ RefusedIn Bad BadMembers id f s) D := by
  rw [link_eq]
  refine Eval.meets_bind
    (Eval.meets_ask (Q := fun a s => d = a ∧ r = s) (fun a ha => ?_) fun f hf => ?_) ?_
  · rw [decl_eq_ok_iff, hd] at ha
    cases ha
    exact ⟨rfl, rfl⟩
  · exact absurd hf (decl_eq_error (.of_decl? hd) f)
  rintro _ _ ⟨rfl, rfl⟩
  have hdecl := Declares.of_decl? hd
  refine Eval.meets_bind
    (inheritAll_meets h { ancestors := [id] } d.inheritances [] r rfl hI hdecl (by simp)) ?_
  rintro links s ⟨hs, hext, hadm, rfl⟩
  have hinh := Inherits.of_admits (hdecl.mono hext) hadm
  refine Eval.meets_bind ((declareMethods_meets d (s.inherited s.linksOf id d) s D
    d.methods.names_nodup d.methods.entries [] rfl (by simp)).imp (fun _ _ h => h) ?_
    fun h => h) ?_
  · rintro f _ ⟨rfl, before, entry, after, m, v, hsplit, hb, hm, hv, hbr, rfl⟩
    exact ⟨h.weaken _ _ hs rfl, hext, .override hinh hsplit hb hm hv hbr⟩
  rintro links _ ⟨rfl, hpermits, rfl⟩
  rename_i s
  refine Eval.meets_bind ((h.members s hs hinh).imp (fun _ _ h => h) ?_ fun h => h) ?_
  · rintro f t ⟨ht, hext', hbad⟩
    refine ⟨ht, hext.trans hext', .members (hinh.mono hext') (fun x hx => ?_) hbad⟩
    rw [inherited_mono hext' hinh]
    exact (hpermits x hx).mono hext'
  · rintro _ t ⟨ht, hext', hc⟩
    refine ⟨ht, hext.trans hext', hinh.mono hext', fun x hx => ?_, hc, ?_⟩
    · rw [inherited_mono hext' hinh]
      exact (hpermits x hx).mono hext'
    · rw [compose, inherited_mono hext' hinh]

end Steps

end Registry
end Lineage
