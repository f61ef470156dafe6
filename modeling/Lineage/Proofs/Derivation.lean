/-
What linking a class leads to, whatever is linked before it.

In a registry that nothing can be loaded into, `Yields w c links d` derives the
links of a class and its declaration with all values, and `Fails w c e` derives
its error.  Neither mentions an order of resolution or a stack.  A class has at
most one of the two: `Yields.unique`, `Yields.not_fails` and `Fails.alike`.  The
error is unique but for a cycle, which may be entered at any of its classes.
-/
import Lineage.Proofs.Agreement
import Mathlib.Data.List.Cycle

namespace Lineage

/-- The same error, or the same cycle entered at another class. -/
inductive Error.Alike : Error → Error → Prop where
  | refl (e : Error) : Alike e e
  | rotated {name name' : String} {rest rest' : List String}
      (rotation : (name :: rest).IsRotated (name' :: rest')) :
      Alike (.inheritanceCycle name (name :: rest ++ [name]))
        (.inheritanceCycle name' (name' :: rest' ++ [name']))

namespace Registry

variable {w r s : Registry} {c p x : ClassId} {links links' : Links} {d d' : ClassDecl}
  {e e' : Error}

/-- Nothing can be loaded, nothing is resolved or in progress, and every pending
value has a local source. -/
structure Fresh (w : Registry) : Prop where
  indexed : w.Indexed
  hookless : w.autoloader = none
  unresolved : ∀ c st, w.standing? c = some st → st = .unresolved
  resolving : w.resolving = []
  evaluating : w.evaluating = []
  isLocal : ∀ site source, w.lazy? site = some (.pending source) → source.isLocal = true

/-! ## Derivations -/

/-- A state over `w` in which everything above class `c` is linked, with the
given links and declarations, and the class itself is as it was. -/
structure Stage (w r : Registry) (c : ClassId) (linksOf : ClassId → Links)
    (declOf : ClassId → ClassDecl) : Prop where
  within : w.Within r
  own : r.decl? c = w.decl? c
  unresolved : r.standing? c = some .unresolved
  above : ∀ x, Relation.TransGen w.Refers c x →
    r.Resolved x (linksOf x) ∧ r.decl? x = some (declOf x)
  evaluating : r.evaluating = []

/-- Linking class `c` yields the links and the declaration with values. -/
inductive Yields (w : Registry) : ClassId → Links → ClassDecl → Prop where
  | intro {c : ClassId} {d d' : ClassDecl} {r s : Registry} {depth : Nat}
      {linksOf : ClassId → Links} {declOf : ClassId → ClassDecl}
      (declared : w.decl? c = some d)
      (above : ∀ x, Relation.TransGen w.Refers c x → Yields w x (linksOf x) (declOf x))
      (admitted : ∀ ref ∈ d.inheritances, ∃ p base, w.idOf? ref.2 = some p ∧
        w.decl? p = some base ∧ (w.config.verify = true → ref.1.violation? d base = none))
      (permitted : ∀ entry ∈ d.methods.entries, w.Permits (w.inherited linksOf c d) entry)
      (stage : Stage w r c linksOf declOf)
      (computed : forceAll (force depth) c d r = .value () s)
      (last : s.decl? c = some d') : Yields w c (w.compose linksOf c d) d'

/-- The class can be linked. -/
def Linked (w : Registry) (c : ClassId) (links : Links) : Prop :=
  ∃ d, w.Yields c links d

/-- Everything above a class can be linked, and then its own values cannot be
computed. -/
def Uncomputable (w : Registry) (c : ClassId) (d : ClassDecl) (f : Fault) : Prop :=
  ∃ r s depth linksOf declOf,
    (∀ x, Relation.TransGen w.Refers c x → w.Yields x (linksOf x) (declOf x)) ∧
      Stage w r c linksOf declOf ∧ forceAll (force depth) c d r = .failure f s ∧
      ∃ e, f = .raised e

/-- The error of a cycle that is entered at its first class. -/
def cycleError (w : Registry) (first : ClassId) (rest : List ClassId) : Error :=
  .inheritanceCycle (w.nameText first) ((first :: rest ++ [first]).map w.nameText)

/-- Linking class `c` fails: by its own fault, by that of a class it inherits
from, or because each class of a cycle waits for the next. -/
inductive Fails (w : Registry) : ClassId → Error → Prop where
  | own {c : ClassId} {e : Error}
      (refused : w.Refused w.Linked (fun _ _ => False) (w.Uncomputable c) c (.raised e)) :
      Fails w c e
  | inherited {c p : ClassId} {e : Error} (awaits : w.Awaits w.Linked c p) (bad : Fails w p e) :
      Fails w c e
  | cycle {c first : ClassId} {rest : List ClassId} (nodup : (first :: rest).Nodup)
      (ring : List.IsChain (w.Awaits w.Linked) (first :: rest ++ [first]))
      (member : c ∈ first :: rest) : Fails w c (w.cycleError first rest)

/-! ## Classes that can be linked -/

theorem Awaits.refers {Linked : ClassId → Links → Prop} (h : w.Awaits Linked c p) :
    w.Refers c p := by
  obtain ⟨d, before, ref, after, ⟨d', hd', halike⟩, hsplit, -, hp⟩ := h
  refine ⟨d', ref.2, hd', ?_, hp⟩
  rw [halike.references]
  refine ClassDecl.mem_references.mpr ⟨ref.1, ?_⟩
  rw [hsplit]
  exact List.mem_append_cons_self

theorem Yields.above (h : w.Yields c links d) (hx : Relation.TransGen w.Refers c x) :
    ∃ l, w.Linked x l := by
  cases h with
  | intro _ above => exact ⟨_, _, above x hx⟩

theorem Yields.acyclic (h : w.Yields c links d) : ¬ Relation.TransGen w.Refers c c := by
  induction h with
  | @intro c _ _ _ _ _ _ _ _ _ _ _ _ _ _ ih => exact fun hc => ih c hc hc

/-- The class can be linked in the sense of `Assembled`, too. -/
theorem Yields.inherits (h : w.Yields c links d') :
    ∃ d linksOf, w.decl? c = some d ∧ w.Inherits w.Linked c d linksOf ∧
      (∀ entry ∈ d.methods.entries, w.Permits (w.inherited linksOf c d) entry) ∧
      links = w.compose linksOf c d := by
  cases h with
  | @intro _ d _ _ _ _ linksOf declOf declared above admitted permitted =>
    have hlinked : ∀ ref ∈ d.inheritances, ∀ p, w.idOf? ref.2 = some p →
        w.Linked p (linksOf p) := by
      intro ref href p hp
      have hrefers : w.Refers c p :=
        ⟨d, ref.2, declared, ClassDecl.mem_references.mpr ⟨ref.1, href⟩, hp⟩
      exact ⟨_, above p (.single hrefers)⟩
    refine ⟨d, linksOf, declared, ⟨.of_decl? declared, fun ref href => ?_, hlinked⟩, permitted, rfl⟩
    obtain ⟨p, base, hp, hbase, hrule⟩ := admitted ref href
    exact ⟨p, base, linksOf p, hp, .of_decl? hbase, hlinked ref href p hp, hrule⟩

theorem Stage.congr {linksOf linksOf' : ClassId → Links} {declOf declOf' : ClassId → ClassDecl}
    (h : Stage w r c linksOf' declOf')
    (hsame : ∀ x, Relation.TransGen w.Refers c x → linksOf' x = linksOf x ∧ declOf' x = declOf x) :
    Stage w r c linksOf declOf where
  within := h.within
  own := h.own
  unresolved := h.unresolved
  above x hx := by
    rw [← (hsame x hx).1, ← (hsame x hx).2]
    exact h.above x hx
  evaluating := h.evaluating

theorem forceAll_alike {force : LazySite → Eval Registry Value} (h : d.Alike d') :
    forceAll force c d' = forceAll force c d := by
  unfold forceAll
  rw [h.lazyMembers]

section Unique

variable (hw : w.Fresh)
include hw

theorem Fresh.upward (hc : w.Issued c) : Upward w (w.Reaches c) where
  issued x hx := by
    rcases Relation.ReflTransGen.cases_tail hx with rfl | ⟨y, -, _, name, -, -, hp⟩
    · exact hc
    · exact hw.indexed name x hp
  closed x y hx hxy := hx.tail hxy
  isLocal site source _ hp := hw.isLocal site source hp

/-- Own values are computed alike from all states in which the same is above. -/
theorem Stage.jointly {linksOf : ClassId → Links} {declOf : ClassId → ClassDecl}
    (h : Stage w r c linksOf declOf) (h' : Stage w s c linksOf declOf) (depth depth' : Nat)
    (d : ClassDecl) :
    Jointly w (w.Reaches c) (forceAll (force depth) c d) (forceAll (force depth') c d) r s
      fun _ => True := by
  have hissued : w.Issued c := h.within.issued_iff.mp (.of_standing? h.unresolved)
  refine forceAll_jointly (hw.upward hissued) depth depth' .refl d ?_
  have husable : ∀ q, Stage w q c linksOf declOf → ∀ x, w.Reaches c x → ∀ e,
      q.standing? x ≠ some (.failed e) := by
    intro q hq x hx e he
    rcases Relation.reflTransGen_iff_eq_or_transGen.mp hx with rfl | hx
    · rw [hq.unresolved] at he
      cases he
    · rw [(hq.above x hx).1] at he
      cases he
  refine ⟨h.within, h'.within, ?_, husable r h, husable s h', by rw [h.evaluating, h'.evaluating]⟩
  intro x hx
  rcases Relation.reflTransGen_iff_eq_or_transGen.mp hx with rfl | hx
  · rw [h.own, h'.own]
  · rw [(h.above x hx).2, (h'.above x hx).2]

/-- The links and the values of a class do not depend on how they come about. -/
theorem Yields.unique (h : w.Yields c links d) (h' : w.Yields c links' d') :
    links' = links ∧ d' = d := by
  induction h generalizing links' d' with
  | @intro c d₀ d₁ r s depth linksOf declOf declared above admitted permitted stage computed last
      ih =>
    cases h' with
    | @intro _ d₀' _ r' s' depth' linksOf' declOf' declared' above' _ _ stage' computed' last' =>
      rw [declared] at declared'
      cases declared'
      have hsame : ∀ x, Relation.TransGen w.Refers c x → linksOf' x = linksOf x ∧
          declOf' x = declOf x := fun x hx => ih x hx (above' x hx)
      refine ⟨compose_congr fun ref href p hp => (hsame p (.single ?_)).1, ?_⟩
      · exact ⟨d₀, ref.2, declared, ClassDecl.mem_references.mpr ⟨ref.1, href⟩, hp⟩
      · have hjoint := stage.jointly hw (stage'.congr hsame) depth depth' d₀
        unfold Jointly at hjoint
        rw [computed, computed'] at hjoint
        cases hjoint with
        | value hv =>
          have hdecl := hv.2.agrees.decl? c .refl
          rw [last, last'] at hdecl
          cases hdecl
          rfl

theorem Linked.unique (h : w.Linked c links) (h' : w.Linked c links') : links' = links := by
  obtain ⟨d, h⟩ := h
  obtain ⟨d', h'⟩ := h'
  exact (h.unique hw h').1

/-- A class whose own values cannot be computed fails in the same way from every
state in which the same is above. -/
theorem Uncomputable.meets {f : Fault} {linksOf : ClassId → Links}
    {declOf : ClassId → ClassDecl} (h : w.Uncomputable c d f) (halike : d.Alike d')
    (above : ∀ x, Relation.TransGen w.Refers c x → Yields w x (linksOf x) (declOf x))
    (stage : Stage w r c linksOf declOf) (depth : Nat) :
    (forceAll (force depth) c d' r).Meets (fun _ _ => False) (fun g _ => g = f) True := by
  obtain ⟨q, t, depth', linksOf', declOf', above', stage', failed, -⟩ := h
  have hsame : ∀ x, Relation.TransGen w.Refers c x → linksOf' x = linksOf x ∧
      declOf' x = declOf x := fun x hx => (above x hx).unique hw (above' x hx)
  have hjoint := stage.jointly hw (stage'.congr hsame) depth depth' d
  unfold Jointly at hjoint
  rw [failed] at hjoint
  rw [forceAll_alike halike]
  generalize forceAll (force depth) c d r = o at hjoint ⊢
  cases hjoint with
  | spentLeft => exact trivial
  | failure h => exact rfl

theorem Yields.not_uncomputable {f : Fault} (h : w.Yields c links d') :
    ∀ d, w.Declares c d → ¬ w.Uncomputable c d f := by
  intro d hd hbad
  cases h with
  | @intro _ d₀ _ r s depth _ _ declared above _ _ stage computed _ =>
    have hmeets := hbad.meets hw (hd.alike (.of_decl? declared)) above stage depth
    rw [computed] at hmeets
    exact hmeets

omit hw in
theorem Uncomputable.raised {f : Fault} (h : w.Uncomputable c d f) : ∃ e, f = .raised e := by
  obtain ⟨_, _, _, _, _, -, -, -, he⟩ := h
  exact he

theorem Uncomputable.unique {f f' : Fault} (h : w.Uncomputable c d f)
    (h' : w.Uncomputable c d' f') (halike : d'.Alike d) : f' = f := by
  obtain ⟨r, s, depth, linksOf, declOf, above, stage, failed, -⟩ := h
  have hmeets := h'.meets hw halike above stage depth
  rw [failed] at hmeets
  exact hmeets.symm

end Unique

/-! ## The first obstacle -/

/-- Two ways to cut a list at the first member without a property are one. -/
theorem first_unique {α : Type} {P : α → Prop} {a a' b b' : List α} {x x' : α}
    (hsplit : a ++ x :: b = a' ++ x' :: b') (ha : ∀ y ∈ a, P y) (hx : ¬ P x)
    (ha' : ∀ y ∈ a', P y) (hx' : ¬ P x') : a' = a ∧ x' = x := by
  induction a generalizing a' with
  | nil =>
    cases a' with
    | nil => cases hsplit; exact ⟨rfl, rfl⟩
    | cons y rest =>
      cases hsplit
      exact absurd (ha' x List.mem_cons_self) hx
  | cons y rest ih =>
    cases a' with
    | nil =>
      cases hsplit
      exact absurd (ha x' List.mem_cons_self) hx'
    | cons y' rest' =>
      rw [List.cons_append, List.cons_append, List.cons.injEq] at hsplit
      obtain ⟨rfl, hsplit⟩ := hsplit
      obtain ⟨rfl, rfl⟩ := ih hsplit (fun z hz => ha z (List.mem_cons_of_mem _ hz))
        fun z hz => ha' z (List.mem_cons_of_mem _ hz)
      exact ⟨rfl, rfl⟩

theorem Admits.alike {Linked : ClassId → Links → Prop} {ref : Role × QualifiedName}
    (h : w.Admits Linked d ref) (halike : d.Alike d') : w.Admits Linked d' ref := by
  obtain ⟨p, base, l, hp, hbase, hl, hrule⟩ := h
  refine ⟨p, base, l, hp, hbase, hl, fun hv => ?_⟩
  rw [Role.violation?_alike halike (.refl base)]
  exact hrule hv

/-- The first name that stands in the way of linking class `c`. -/
def Obstructed (w : Registry) (c : ClassId) (ref : Role × QualifiedName) : Prop :=
  ∃ d before after, w.Declares c d ∧ d.inheritances = before ++ ref :: after ∧
    (∀ x ∈ before, w.Admits w.Linked d x) ∧ ¬ w.Admits w.Linked d ref

theorem Obstructed.unique {ref ref' : Role × QualifiedName} (h : w.Obstructed c ref)
    (h' : w.Obstructed c ref') : ref' = ref := by
  obtain ⟨d, before, after, hd, hsplit, hpassed, hnot⟩ := h
  obtain ⟨d', before', after', hd', hsplit', hpassed', hnot'⟩ := h'
  have halike := hd.alike hd'
  rw [halike.inheritances, hsplit] at hsplit'
  exact (first_unique hsplit' hpassed hnot (fun x hx => (hpassed' x hx).alike halike.symm)
    fun hadm => hnot' (hadm.alike halike)).2

theorem Obstructed.not_inherits {ref : Role × QualifiedName} {linksOf : ClassId → Links}
    (h : w.Obstructed c ref) : ¬ w.Inherits w.Linked c d linksOf := by
  intro hinh
  obtain ⟨d', before, after, hd', hsplit, -, hnot⟩ := h
  have halike := hd'.alike hinh.declares
  have hmem : ref ∈ d.inheritances := by
    rw [halike.inheritances, hsplit]
    exact List.mem_append_cons_self
  exact hnot ((hinh.admits ref hmem).alike halike.symm)

/-- What is wrong with a name by itself: it is unbound, or a rule is broken. -/
def Objects (w : Registry) (c : ClassId) (ref : Role × QualifiedName) (f : Fault) : Prop :=
  (w.idOf? ref.2 = none ∧ f = .raised (.classNotFound ref.2.text)) ∨
    ∃ d p base v, w.Declares c d ∧ w.idOf? ref.2 = some p ∧ w.Declares p base ∧
      (∃ l, w.Linked p l) ∧ w.config.verify = true ∧ ref.1.violation? d base = some v ∧
      f = .raised (.invalidInheritance d.name.text base.name.text v)

theorem Objects.unique {ref : Role × QualifiedName} {f f' : Fault} (h : w.Objects c ref f)
    (h' : w.Objects c ref f') : f' = f := by
  rcases h with ⟨hnone, rfl⟩ | ⟨d, p, base, v, hd, hp, hbase, -, -, hv, rfl⟩
  · rcases h' with ⟨-, rfl⟩ | ⟨_, p', _, _, _, hp', _⟩
    · rfl
    · rw [hnone] at hp'
      cases hp'
  · rcases h' with ⟨hnone, -⟩ | ⟨d', p', base', v', hd', hp', hbase', -, -, hv', rfl⟩
    · rw [hnone] at hp
      cases hp
    · rw [hp] at hp'
      cases hp'
      have hd := hd.alike hd'
      have hbase := hbase.alike hbase'
      rw [Role.violation?_alike hd hbase, hv] at hv'
      cases hv'
      rw [hd.name, hbase.name]

/-- An own fault lies with a name, with a method, or with a value. -/
theorem Refused.own_cases {f : Fault}
    (h : w.Refused w.Linked (fun _ _ => False) (w.Uncomputable c) c f) :
    (∃ ref, w.Obstructed c ref ∧ w.Objects c ref f) ∨
      ∃ d linksOf, w.Inherits w.Linked c d linksOf ∧
        ((∃ before entry after m v, d.methods.entries = before ++ entry :: after ∧
            (∀ x ∈ before, w.Permits (w.inherited linksOf c d) x) ∧
            (w.inherited linksOf c d).methods.get? entry.1 = some m ∧ w.config.verify = true ∧
            m.decl.overrideViolation? = some v ∧
            f = .raised (.invalidInheritance d.name.text m.decl.qualifiedName v)) ∨
          ((∀ x ∈ d.methods.entries, w.Permits (w.inherited linksOf c d) x) ∧
            w.Uncomputable c d f)) := by
  cases h with
  | @unbound d before ref after declares split passed unbound =>
    refine .inl ⟨ref, ⟨d, before, after, declares, split, passed, ?_⟩, .inl ⟨unbound, rfl⟩⟩
    rintro ⟨p, -, -, hp, -⟩
    rw [unbound] at hp
    cases hp
  | reference awaits bad => exact bad.elim
  | @rule d before ref after p base l v declares split passed bound declaresBase linked verify
      broken =>
    refine .inl ⟨ref, ⟨d, before, after, declares, split, passed, ?_⟩,
      .inr ⟨d, p, base, v, declares, bound, declaresBase, ⟨l, linked⟩, verify, broken, rfl⟩⟩
    rintro ⟨p', base', -, hp', hbase', -, hrule⟩
    rw [bound] at hp'
    cases hp'
    have hnone := hrule verify
    rw [Role.violation?_alike (.refl d) (declaresBase.alike hbase'), broken] at hnone
    cases hnone
  | override inherits split passed found verify broken =>
    exact .inr ⟨_, _, inherits, .inl ⟨_, _, _, _, _, split, passed, found, verify, broken, rfl⟩⟩
  | members inherits permits bad => exact .inr ⟨_, _, inherits, .inr ⟨permits, bad⟩⟩

/-! ## Rings -/

section Ring

variable {α : Type} {R : α → α → Prop} {a b : α} {l : List α}

/-- A ring may be entered at any of its members. -/
theorem exists_rotated (h : List.IsChain R (a :: l ++ [a])) (hb : b ∈ a :: l) :
    ∃ l', (a :: l).IsRotated (b :: l') ∧ List.IsChain R (b :: l' ++ [b]) := by
  obtain ⟨before, after, hsplit⟩ := List.append_of_mem hb
  have hrot : (a :: l).IsRotated (b :: (after ++ before)) := by
    rw [hsplit, ← List.cons_append]
    exact List.isRotated_append
  refine ⟨after ++ before, hrot, ?_⟩
  have hcycle : ((a :: l : List α) : Cycle α) = ((b :: (after ++ before) : List α) : Cycle α) :=
    Cycle.coe_eq_coe.mpr hrot
  have hchain : Cycle.Chain R ((a :: l : List α) : Cycle α) := (Cycle.chain_coe_cons R a l).mpr h
  rw [hcycle] at hchain
  exact (Cycle.chain_coe_cons R b (after ++ before)).mp hchain

theorem exists_next (h : List.IsChain R (a :: l ++ [a])) (hb : b ∈ a :: l) :
    ∃ c ∈ a :: l, R b c := by
  obtain ⟨l', hrot, hchain⟩ := exists_rotated h hb
  cases l' with
  | nil => exact ⟨b, hb, (List.isChain_cons_cons.mp hchain).1⟩
  | cons c rest =>
    have hc : c ∈ b :: c :: rest := List.mem_cons_of_mem b List.mem_cons_self
    exact ⟨c, hrot.mem_iff.mpr hc, (List.isChain_cons_cons.mp hchain).1⟩

theorem transGen_of_ring (h : List.IsChain R (a :: l ++ [a])) (hb : b ∈ a :: l) :
    Relation.TransGen R b b := by
  have hchain : Cycle.Chain (Relation.TransGen R) ((a :: l : List α) : Cycle α) :=
    ((Cycle.chain_coe_cons R a l).mpr h).imp fun _ _ hr => .single hr
  exact Cycle.chain_iff_pairwise.mp hchain b hb b hb

/-- If every member leads to one next member only, then so does the whole way back. -/
theorem ring_unique {l' : List α} (hfun : ∀ x y z, R x y → R x z → z = y)
    (h : List.IsChain R (a :: l ++ [b])) (h' : List.IsChain R (a :: l' ++ [b])) (hb : b ∉ l)
    (hb' : b ∉ l') : l' = l := by
  induction l generalizing a l' with
  | nil =>
    cases l' with
    | nil => rfl
    | cons c rest' =>
      have hc := hfun _ _ _ (List.isChain_cons_cons.mp h).1 (List.isChain_cons_cons.mp h').1
      exact absurd (hc ▸ List.mem_cons_self) hb'
  | cons c rest ih =>
    cases l' with
    | nil =>
      have hc := hfun _ _ _ (List.isChain_cons_cons.mp h').1 (List.isChain_cons_cons.mp h).1
      exact absurd (hc ▸ List.mem_cons_self) hb
    | cons c' rest' =>
      have h := List.isChain_cons_cons.mp h
      have h' := List.isChain_cons_cons.mp h'
      obtain rfl := hfun _ _ _ h.1 h'.1
      rw [ih h.2 h'.2 (fun hm => hb (List.mem_cons_of_mem _ hm))
        fun hm => hb' (List.mem_cons_of_mem _ hm)]

end Ring

/-! ## One result for each class -/

section Unique

variable (hw : w.Fresh)
include hw

theorem inherited_unique {linksOf linksOf' : ClassId → Links}
    (h : w.Inherits w.Linked c d linksOf) (h' : w.Inherits w.Linked c d' linksOf') :
    w.inherited linksOf' c d' = w.inherited linksOf c d := by
  have halike := h.declares.alike h'.declares
  unfold inherited
  rw [halike.inheritances]
  refine List.foldl_ext _ _ _ fun l ref href => ?_
  unfold inherit
  cases hp : w.idOf? ref.2 with
  | none => rfl
  | some p =>
    dsimp only
    rw [(h.linked ref href p hp).unique hw (h'.linked ref (halike.inheritances ▸ href) p hp)]

omit hw in
theorem Permits.not_broken {links : Links} {entry : String × MethodDecl} {m : SharedMethod}
    {v : Violation} (hv : w.config.verify = true) (hm : links.methods.get? entry.1 = some m)
    (hbroken : m.decl.overrideViolation? = some v) : ¬ w.Permits links entry := by
  intro hp
  rw [hp hv m hm] at hbroken
  cases hbroken

theorem Refused.own_unique {f f' : Fault}
    (h : w.Refused w.Linked (fun _ _ => False) (w.Uncomputable c) c f)
    (h' : w.Refused w.Linked (fun _ _ => False) (w.Uncomputable c) c f') : f' = f := by
  rcases h.own_cases with ⟨ref, hobs, hreason⟩ | ⟨d, linksOf, hinh, hrest⟩
  · rcases h'.own_cases with ⟨ref', hobs', hreason'⟩ | ⟨d', linksOf', hinh', -⟩
    · obtain rfl := hobs.unique hobs'
      exact hreason.unique hreason'
    · exact absurd hinh' hobs.not_inherits
  · rcases h'.own_cases with ⟨ref', hobs', -⟩ | ⟨d', linksOf', hinh', hrest'⟩
    · exact absurd hinh hobs'.not_inherits
    have halike := hinh.declares.alike hinh'.declares
    rw [inherited_unique hw hinh hinh', halike.methods] at hrest'
    rcases hrest with ⟨before, entry, after, m, v, hsplit, hpassed, hm, hv, hbroken, rfl⟩ |
      ⟨hpermits, hbad⟩
    · have hnot := Permits.not_broken hv hm hbroken
      rcases hrest' with ⟨before', entry', after', m', v', hsplit', hpassed', hm', -, hbroken',
        rfl⟩ | ⟨hpermits', -⟩
      · have hnot' := Permits.not_broken hv hm' hbroken'
        rw [hsplit] at hsplit'
        obtain ⟨-, rfl⟩ := first_unique hsplit' hpassed hnot hpassed' hnot'
        rw [hm] at hm'
        cases hm'
        rw [hbroken] at hbroken'
        cases hbroken'
        rw [halike.name]
      · refine absurd (hpermits' entry ?_) hnot
        rw [hsplit]
        exact List.mem_append_cons_self
    · rcases hrest' with ⟨before', entry', after', m', v', hsplit', -, hm', hv, hbroken', -⟩ |
        ⟨-, hbad'⟩
      · refine absurd (hpermits entry' ?_) (Permits.not_broken hv hm' hbroken')
        rw [hsplit']
        exact List.mem_append_cons_self
      · exact hbad.unique hw hbad' halike.symm

/-- A class that can be linked does not fail. -/
theorem Yields.not_fails (h : w.Yields c links d) : ¬ w.Fails c e := by
  induction h generalizing e with
  | @intro c d₀ d₁ r s depth linksOf declOf declared above admitted permitted stage computed last
      ih =>
    have hyields : w.Yields c (w.compose linksOf c d₀) d₁ :=
      .intro declared above admitted permitted stage computed last
    intro hfails
    cases hfails with
    | own refused =>
      obtain ⟨d', linksOf', hd', hinh, hpermits, -⟩ := hyields.inherits
      rcases refused.own_cases with ⟨ref, hobs, -⟩ | ⟨d, linksOf, hinh', hrest⟩
      · exact hobs.not_inherits hinh
      · rw [inherited_unique hw hinh' hinh,
          (hinh'.declares.alike hinh.declares).methods] at hpermits
        rcases hrest with ⟨before, entry, after, m, v, hsplit, -, hm, hv, hbroken, -⟩ | ⟨-, hbad⟩
        · refine absurd (hpermits entry ?_) (Permits.not_broken hv hm hbroken)
          rw [hsplit]
          exact List.mem_append_cons_self
        · exact hyields.not_uncomputable hw d hinh'.declares hbad
    | inherited awaits bad => exact ih _ (.single awaits.refers) bad
    | cycle nodup ring member =>
      exact hyields.acyclic
        (Relation.TransGen.mono (fun _ _ h => Awaits.refers h) _ _ (transGen_of_ring ring member))

omit hw in
/-- A class waits for a class that cannot be linked because of one name, which
is itself in order. -/
theorem Awaits.obstructed (h : w.Awaits w.Linked c p) (hp : ∀ l, ¬ w.Linked p l) :
    ∃ ref, w.Obstructed c ref ∧ w.idOf? ref.2 = some p ∧ ∀ f, ¬ w.Objects c ref f := by
  obtain ⟨d, before, ref, after, hd, hsplit, hpassed, hbound⟩ := h
  refine ⟨ref, ⟨d, before, after, hd, hsplit, hpassed, ?_⟩, hbound, ?_⟩
  · rintro ⟨q, -, l, hq, -, hl, -⟩
    rw [hbound] at hq
    cases hq
    exact hp l hl
  · rintro f (⟨hnone, -⟩ | ⟨d', q, base, v, -, hq, -, ⟨l, hl⟩, -⟩)
    · rw [hbound] at hnone
      cases hnone
    · rw [hbound] at hq
      cases hq
      exact hp l hl

/-- Class `c` waits for class `p`, in vain. -/
def Blocked (w : Registry) (c p : ClassId) : Prop :=
  w.Awaits w.Linked c p ∧ ∀ l, ¬ w.Linked p l

omit hw in
theorem Blocked.unique {p' : ClassId} (h : w.Blocked c p) (h' : w.Blocked c p') : p' = p := by
  obtain ⟨ref, hobs, hp, -⟩ := h.1.obstructed h.2
  obtain ⟨ref', hobs', hp', -⟩ := h'.1.obstructed h'.2
  obtain rfl := hobs.unique hobs'
  rw [hp] at hp'
  cases hp'
  rfl

omit hw in
theorem Blocked.not_own {f : Fault} (h : w.Blocked c p) :
    ¬ w.Refused w.Linked (fun _ _ => False) (w.Uncomputable c) c f := by
  intro hown
  obtain ⟨ref, hobs, -, hnot⟩ := h.1.obstructed h.2
  rcases hown.own_cases with ⟨ref', hobs', hreason⟩ | ⟨d, linksOf, hinh, -⟩
  · obtain rfl := hobs.unique hobs'
    exact hnot f hreason
  · exact hobs.not_inherits hinh

omit hw in
theorem not_linked_of_ring {first : ClassId} {rest : List ClassId}
    (ring : List.IsChain (w.Awaits w.Linked) (first :: rest ++ [first]))
    (hc : c ∈ first :: rest) (l : Links) : ¬ w.Linked c l := by
  rintro ⟨d, h⟩
  have hcycle := transGen_of_ring ring hc
  exact h.acyclic (Relation.TransGen.mono (fun _ _ h => Awaits.refers h) _ _ hcycle)

omit hw in
theorem ring_blocked {first : ClassId} {rest : List ClassId}
    (ring : List.IsChain (w.Awaits w.Linked) (first :: rest ++ [first])) :
    List.IsChain w.Blocked (first :: rest ++ [first]) := by
  refine ring.imp_of_mem_imp fun c p _ hp hawaits => ⟨hawaits, not_linked_of_ring ring ?_⟩
  rcases List.mem_append.mp hp with hp | hp
  · exact hp
  · rw [List.mem_singleton.mp hp]
    exact List.mem_cons_self

theorem Fails.not_linked (h : w.Fails c e) (l : Links) : ¬ w.Linked c l := by
  rintro ⟨d, hy⟩
  exact hy.not_fails hw h

theorem cycle_alike {first : ClassId} {rest : List ClassId} (nodup : (first :: rest).Nodup)
    (ring : List.IsChain (w.Awaits w.Linked) (first :: rest ++ [first])) (h : w.Fails c e)
    (hc : c ∈ first :: rest) : (w.cycleError first rest).Alike e := by
  have hring := ring_blocked ring
  induction h with
  | own refused =>
    obtain ⟨p, -, hblocked⟩ := exists_next hring hc
    exact absurd refused hblocked.not_own
  | @inherited c p e awaits bad ih =>
    obtain ⟨p', hp', hblocked⟩ := exists_next hring hc
    obtain rfl := hblocked.unique ⟨awaits, bad.not_linked hw⟩
    exact ih hp'
  | @cycle c first' rest' nodup' ring' member =>
    obtain ⟨l, hrot, hl⟩ := exists_rotated hring hc
    obtain ⟨l', hrot', hl'⟩ := exists_rotated (ring_blocked ring') member
    have hc : c ∉ l := (List.nodup_cons.mp (hrot.nodup_iff.mp nodup)).1
    have hc' : c ∉ l' := (List.nodup_cons.mp (hrot'.nodup_iff.mp nodup')).1
    obtain rfl := ring_unique (fun x y z (h : w.Blocked x y) h' => h.unique h') hl hl' hc hc'
    have hrings := (hrot.trans hrot'.symm).map w.nameText
    unfold cycleError
    rw [List.map_append, List.map_append]
    exact .rotated hrings

/-- The error of a class is unique but for the class at which a cycle is
entered. -/
theorem Fails.alike (h : w.Fails c e) (h' : w.Fails c e') : e.Alike e' := by
  induction h with
  | own refused =>
    cases h' with
    | own refused' =>
      cases refused.own_unique hw refused'
      exact .refl _
    | inherited awaits bad =>
      exact absurd refused (Blocked.not_own ⟨awaits, bad.not_linked hw⟩)
    | cycle nodup ring member =>
      obtain ⟨p, -, hblocked⟩ := exists_next (ring_blocked ring) member
      exact absurd refused hblocked.not_own
  | @inherited c p e awaits bad ih =>
    have hblocked : w.Blocked c p := ⟨awaits, bad.not_linked hw⟩
    cases h' with
    | own refused => exact absurd refused hblocked.not_own
    | inherited awaits' bad' =>
      obtain rfl := hblocked.unique ⟨awaits', bad'.not_linked hw⟩
      exact ih bad'
    | cycle nodup ring member =>
      obtain ⟨p', hp', hblocked'⟩ := exists_next (ring_blocked ring) member
      obtain rfl := hblocked.unique hblocked'
      exact ih (.cycle nodup ring hp')
  | cycle nodup ring member => exact cycle_alike hw nodup ring h' member

end Unique

end Registry
end Lineage
