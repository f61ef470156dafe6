/-
Everything that can happen to a registry.

`Change` lists the single changes with the condition under which each is made.
`perform_advances` says that every operation is a sequence of them, so a property
that no single change breaks holds in every state of every run (`Run`).
-/
import Lineage.Proofs.Computation
import Lineage.Proofs.Linking
import Lineage.Registry.Operation

namespace Lineage
namespace Registry

/-- A class that is inherited from is failed, or is being linked itself. -/
def BadReference (p : ClassId) (f : Fault) (r : Registry) : Prop :=
  ∃ e, f = .raised e ∧ (r.standing? p = some (.failed e) ∨ r.cycle? p = some e)

/-- The first own value that is missing cannot be computed. -/
def BadMembers (id : ClassId) (d : ClassDecl) (f : Fault) (r : Registry) : Prop :=
  ∃ before member after e, d.lazyMembers = before ++ member :: after ∧
    (∀ x ∈ before, r.Computed { owner := id, member := x }) ∧ f = .raised e

/-- A change made by an operation. -/
inductive Change : Registry → Registry → Prop where
  | compute {r s : Registry} (h : Compute r s) : Change r s
  | hooked {r : Registry} (loader : Option Autoloader) : Change r { r with autoloader := loader }
  | beganLinking {r : Registry} {id : ClassId} (unresolved : r.standing? id = some .unresolved)
      (fresh : id ∉ r.resolving) : Change r (r.beginLinking id)
  | linked {r : Registry} {id : ClassId} {rest : List ClassId} {links : Links}
      (innermost : r.resolving = id :: rest) (unresolved : r.standing? id = some .unresolved)
      (assembled : r.Assembled r.Resolved r.Computed id links) :
      Change r (r.endLinking id (.ok links))
  | refused {r : Registry} {id : ClassId} {rest : List ClassId} {e : Error}
      (innermost : r.resolving = id :: rest) (unresolved : r.standing? id = some .unresolved)
      (cause : RefusedIn BadReference (BadMembers id) id (.raised e) r) :
      Change r (r.endLinking id (.error e))
  | seeded {r : Registry} {id : ClassId} {links : Links} {found : Registration}
      (resolved : r.Resolved id links) (registered : r.registration? id = some found)
      (untouched : found.statics = none) : Change r (r.setStatics id (.ofDecl found.decl))
  | assigned {r : Registry} {id : ClassId} {found : Registration} {table : StaticTable}
      (registered : r.registration? id = some found) (touched : found.statics = some table)
      (table' : StaticTable) : Change r (r.setStatics id table')

variable {r s t : Registry} {id : ClassId}

theorem endLinking_eq (id : ClassId) (result : Except Error Links) (r : Registry) :
    r.endLinking id result = { r with resolving := r.resolving.tail }.setStanding id
      (match result with | .ok links => .resolved links | .error e => .failed e) := by
  cases result <;> rfl

theorem resolving_endLinking (id : ClassId) (result : Except Error Links) (r : Registry) :
    (r.endLinking id result).resolving = r.resolving.tail := by
  cases result <;> rfl

theorem evaluating_endLinking (id : ClassId) (result : Except Error Links) (r : Registry) :
    (r.endLinking id result).evaluating = r.evaluating := by
  cases result <;> rfl

theorem decl?_endLinking (id other : ClassId) (result : Except Error Links) (r : Registry) :
    (r.endLinking id result).decl? other = r.decl? other := by
  rw [endLinking_eq, decl?_setStanding]
  rfl

theorem standing?_endLinking {result : Except Error Links} {st : Standing}
    (h : r.standing? id = some st) :
    (r.endLinking id result).standing? id =
      some (match result with | .ok links => .resolved links | .error e => .failed e) := by
  rw [endLinking_eq, standing?_setStanding, if_pos rfl]
  show (r.standing? id).map _ = _
  rw [h]
  rfl

theorem standing?_endLinking_of_ne {result : Except Error Links} {other : ClassId}
    (h : other ≠ id) : (r.endLinking id result).standing? other = r.standing? other := by
  rw [endLinking_eq, standing?_setStanding, if_neg h]
  rfl

theorem extends_endLinking {result : Except Error Links}
    (h : r.standing? id = some .unresolved) : r.Extends (r.endLinking id result) := by
  rw [endLinking_eq]
  have hpop : r.Extends { r with resolving := r.resolving.tail } := .of_eq rfl rfl rfl
  exact hpop.trans (extends_setStanding h)

theorem Change.grows (h : Change r s) : r.Extends s := by
  cases h with
  | compute h => exact h.grows
  | hooked loader => exact .of_eq rfl rfl rfl
  | beganLinking unresolved fresh => exact .of_eq rfl rfl rfl
  | linked innermost unresolved assembled => exact extends_endLinking unresolved
  | refused innermost unresolved cause => exact extends_endLinking unresolved
  | seeded resolved registered untouched => exact extends_setStatics _ _ r
  | assigned registered touched table' => exact extends_setStatics _ _ r

theorem Extends.of_changes (h : Relation.ReflTransGen Change r s) : r.Extends s := by
  induction h with
  | refl => exact .refl _
  | tail _ hstep ih => exact ih.trans hstep.grows

theorem Indexed.of_extends (hr : r.Indexed) (hext : r.Extends s) (hi : s.index = r.index) :
    s.Indexed := by
  intro name id hn
  rw [idOf?, hi] at hn
  exact hext.issued (hr name id hn)

/-- A change registers one class, whose name is free, or none at all. -/
theorem Change.registers (h : Change r s) :
    (s.index = r.index ∧ s.size = r.size) ∨ ∃ d, r.contains d.name = false ∧ s = r.append d := by
  cases h with
  | compute h =>
    cases h with
    | load h =>
      cases h with
      | requested hook unbound => exact .inl ⟨rfl, rfl⟩
      | registered free => exact .inr ⟨_, free, rfl⟩
    | noted label => exact .inl ⟨rfl, rfl⟩
    | began pending usable fresh => exact .inl ⟨rfl, rfl⟩
    | ended innermost result =>
      cases result with
      | ok v => exact .inl ⟨rfl, size_updateAt _ _ _⟩
      | error e => exact .inl ⟨rfl, rfl⟩
  | hooked loader => exact .inl ⟨rfl, rfl⟩
  | beganLinking unresolved fresh => exact .inl ⟨rfl, rfl⟩
  | linked innermost unresolved assembled => exact .inl ⟨rfl, size_updateAt _ _ _⟩
  | refused innermost unresolved cause => exact .inl ⟨rfl, size_updateAt _ _ _⟩
  | seeded resolved registered untouched => exact .inl ⟨rfl, size_updateAt _ _ _⟩
  | assigned registered touched table' => exact .inl ⟨rfl, size_updateAt _ _ _⟩

theorem Change.indexed (h : Change r s) (hr : r.Indexed) : s.Indexed := by
  rcases h.registers with ⟨hindex, -⟩ | ⟨d, hfree, rfl⟩
  · exact hr.of_extends h.grows hindex
  · exact Load.indexed (.registered hfree) hr

/-! ## Sequences of changes -/

/-- Changes after which the same classes are being linked and the same values
are in progress as before, and none of these classes is settled. -/
structure Advances (r s : Registry) : Prop where
  steps : Relation.ReflTransGen Change r s
  resolving : s.resolving = r.resolving
  evaluating : s.evaluating = r.evaluating
  held : ∀ id ∈ r.resolving, r.standing? id = some .unresolved →
    s.standing? id = some .unresolved

namespace Advances

theorem refl (r : Registry) : Advances r r := ⟨.refl, rfl, rfl, fun _ _ h => h⟩

theorem trans (h : Advances r s) (h' : Advances s t) : Advances r t where
  steps := h.steps.trans h'.steps
  resolving := h'.resolving.trans h.resolving
  evaluating := h'.evaluating.trans h.evaluating
  held id hid hu := h'.held id (h.resolving ▸ hid) (h.held id hid hu)

theorem of_computes (h : Computes r s) : Advances r s where
  steps := by
    have hs := h.steps
    clear h
    induction hs with
    | refl => exact .refl
    | tail _ hstep ih => exact ih.tail (.compute hstep)
  resolving := h.resolving
  evaluating := h.evaluating
  held id _ hu := by rw [h.standing? (.of_standing? hu), hu]

theorem of_change (h : Change r s) (hres : s.resolving = r.resolving)
    (heval : s.evaluating = r.evaluating) (hst : ∀ id, s.standing? id = r.standing? id) :
    Advances r s :=
  ⟨.single h, hres, heval, fun id _ hu => by rw [hst, hu]⟩

theorem grows (h : Advances r s) : r.Extends s :=
  .of_changes h.steps

theorem indexed (h : Advances r s) (hr : r.Indexed) : s.Indexed := by
  have hs := h.steps
  clear h
  induction hs with
  | refl => exact hr
  | tail _ hstep ih => exact hstep.indexed ih

end Advances

/-! ## Resolving classes -/

theorem cycle?_eq_none_iff : r.cycle? id = none ↔ id ∉ r.resolving := by
  unfold cycle?
  split <;> simp_all

theorem resolveId_of_resolved {links : Links} (depth : Nat) (h : r.Resolved id links) :
    resolveId (depth + 1) id r = .value () r := by
  obtain ⟨found, hf, hst⟩ := Option.map_eq_some_iff.mp h
  show (Eval.ask (·.registration id) >>= _) r = _
  rw [registration_bind hf, hst]
  rfl

theorem resolveId_of_failed {e : Error} (depth : Nat) (h : r.standing? id = some (.failed e)) :
    resolveId (depth + 1) id r = .failure (.raised e) r := by
  obtain ⟨found, hf, hst⟩ := Option.map_eq_some_iff.mp h
  show (Eval.ask (·.registration id) >>= _) r = _
  rw [registration_bind hf, hst]
  rfl

theorem resolveId_of_cycle {e : Error} (depth : Nat) (h : r.standing? id = some .unresolved)
    (hc : r.cycle? id = some e) : resolveId (depth + 1) id r = .failure (.raised e) r := by
  obtain ⟨found, hf, hst⟩ := Option.map_eq_some_iff.mp h
  show (Eval.ask (·.registration id) >>= _) r = _
  rw [registration_bind hf, hst]
  dsimp only
  rw [Eval.bind_apply, Eval.get_apply]
  dsimp only
  rw [hc]
  rfl

/-- A class that is met for the first time is put on the stack, linked, and taken
off again with the result. -/
theorem resolveId_of_fresh (depth : Nat) (h : r.standing? id = some .unresolved)
    (hc : id ∉ r.resolving) :
    resolveId (depth + 1) id r =
      (do
        let result ← (link (resolveId depth) (force depth) id).attempt
        .modify (endLinking id result)
        .ofExcept (result.map fun _ => ()) : Eval Registry Unit) (r.beginLinking id) := by
  obtain ⟨found, hf, hst⟩ := Option.map_eq_some_iff.mp h
  show (Eval.ask (·.registration id) >>= _) r = _
  rw [registration_bind hf, hst]
  dsimp only
  rw [Eval.bind_apply, Eval.get_apply]
  dsimp only
  rw [cycle?_eq_none_iff.mpr hc]
  rfl

theorem resolveId_meets_of_fresh {depth : Nat} {Q : Unit → Registry → Prop}
    {E F : Fault → Registry → Prop} {L : Links → Registry → Prop} {D : Prop}
    (h : r.standing? id = some .unresolved) (hc : id ∉ r.resolving)
    (hlink : (link (resolveId depth) (force depth) id (r.beginLinking id)).Meets L F D)
    (hok : ∀ links s, L links s → Q () (s.endLinking id (.ok links)))
    (herr : ∀ e s, F (.raised e) s → E (.raised e) (s.endLinking id (.error e)))
    (hun : ∀ i s, ¬ F (.unissued i) s) : (resolveId (depth + 1) id r).Meets Q E D := by
  rw [resolveId_of_fresh depth h hc]
  refine Eval.meets_bind (Eval.meets_attempt (F := E)
    (R := fun result s => match result with
      | .ok links => L links s
      | .error e => F (.raised e) s)
    hlink (fun _ _ h => h) (fun _ _ h => h) fun i s hf => absurd hf (hun i s)) ?_
  intro result s hs
  cases result with
  | ok links => exact hok links s hs
  | error e => exact herr e s hs

theorem resolveId_of_unissued (depth : Nat) (h : ¬ r.Issued id) :
    resolveId (depth + 1) id r = .failure (.unissued id) r := by
  show (Eval.ask (·.registration id) >>= _) r = _
  rw [Eval.bind_apply, Eval.ask, registration, registration?_eq_none h]

/-- Only a class that is there can be resolved. -/
theorem Issued.of_resolveId {depth : Nat} (h : resolveId depth id r = .value () s) :
    r.Issued id := by
  by_contra hid
  cases depth with
  | zero => cases h
  | succ depth =>
    rw [resolveId_of_unissued depth hid] at h
    cases h

/-- After linking, the class itself is settled and no class below it on the stack
is. -/
theorem advances_endLinking {result : Except Error Links}
    (hu : r.standing? id = some .unresolved) (hc : id ∉ r.resolving)
    (h : Advances (r.beginLinking id) s) (hlast : Change s (s.endLinking id result)) :
    Advances r (s.endLinking id result) where
  steps := (Relation.ReflTransGen.head (.beganLinking hu hc) h.steps).tail hlast
  resolving := by
    rw [resolving_endLinking, h.resolving]
    rfl
  evaluating := by
    rw [evaluating_endLinking, h.evaluating]
    rfl
  held other hother hu' := by
    have hne : other ≠ id := fun heq => hc (heq ▸ hother)
    rw [standing?_endLinking_of_ne hne]
    exact h.held other (List.mem_cons_of_mem id hother) hu'

/-- Values are computed one by one; each that is there stays while the next ones
are computed. -/
theorem forceAll_meets (depth : Nat) (d : ClassDecl) (hr : r.Indexed) (hi : r.Issued id) :
    (forceAll (force depth) id d r).Meets
      (fun _ s => Computes r s ∧
        ∀ member ∈ d.lazyMembers, s.Computed { owner := id, member := member })
      (fun f s => Computes r s ∧ BadMembers id d f s) True := by
  refine Eval.meets_forEach
    (I := fun before t => Computes r t ∧ ∀ x ∈ before, t.Computed { owner := id, member := x })
    ?_ d.lazyMembers [] r rfl ⟨.refl r, by simp⟩
  rintro before member after t hsplit ⟨ht, hb⟩
  have hi' := ht.grows.issued hi
  refine Eval.meets_bind (Outcome.Meets.imp
    (force_computes depth ⟨id, member⟩ t (ht.indexed hr) hi') (fun _ _ h => h) ?_ fun h => h) ?_
  · rintro f u ⟨hu, e, hf⟩
    exact ⟨ht.trans hu, before, member, after, e, hsplit.symm,
      fun x hx => hu.grows.computed hi' (hb x hx), hf⟩
  · rintro _ u ⟨hu, hc⟩
    refine ⟨ht.trans hu, fun x hx => ?_⟩
    rcases List.mem_append.mp hx with hx | hx
    · exact hu.grows.computed hi' (hb x hx)
    · rwa [List.mem_singleton.mp hx]

/-- A lookup is a sequence of changes, after which the name is bound or not. -/
theorem lookup_advances (name : QualifiedName) (r : Registry) :
    (lookup name r).Meets (fun id s => Advances r s ∧ s.idOf? name = some id)
      (fun f s => Advances r s ∧ s.idOf? name = none ∧ f = .raised (.classNotFound name.text))
      False := by
  refine (lookup_meets name r).imp ?_ ?_ id
  · exact fun _ _ ⟨hs, hid⟩ => ⟨.of_computes (.of_loads hs), hid⟩
  · exact fun _ _ ⟨hs, hnone⟩ => ⟨.of_computes (.of_loads hs), hnone⟩

/-- What each step of linking a class does, if resolution of what it inherits from
is a sequence of changes. -/
theorem linkSteps_advances {depth : Nat} {d : ClassDecl} (hr : r.Indexed)
    (hresolve : ∀ p r, Indexed r → r.Issued p → (resolveId depth p r).Meets
      (fun _ s => Advances r s ∧ ∃ links, s.Resolved p links)
      (fun f s => Advances r s ∧ BadReference p f s) True) :
    LinkSteps (Advances r) (fun _ => Advances r) (Advances r) BadReference (BadMembers id) True
      (resolveId depth) (force depth) id d where
  indexed s hs := hs.indexed hr
  weaken _ _ hs _ := hs
  lookup name s hs := by
    refine (lookup_advances name s).imp ?_ ?_ False.elim
    · exact fun q t ⟨ht, hq⟩ => ⟨hs.trans ht, ht.grows, hq⟩
    · exact fun f t ⟨ht, hq⟩ => ⟨hs.trans ht, ht.grows, hq⟩
  resolve q s hs hq _ := by
    refine (hresolve q s (hs.indexed hr) hq).imp ?_ ?_ fun h => h
    · exact fun _ t ⟨ht, hl⟩ => ⟨hs.trans ht, ht.grows, hl⟩
    · exact fun f t ⟨ht, hb⟩ => ⟨hs.trans ht, ht.grows, hb⟩
  members s hs hinh := by
    refine (forceAll_meets depth d (hs.indexed hr) hinh.declares.issued).imp ?_ ?_ fun h => h
    · intro _ t ⟨ht, hv⟩
      exact ⟨hs.trans (.of_computes ht), ht.grows, hv⟩
    · intro f t ⟨ht, hf⟩
      exact ⟨hs.trans (.of_computes ht), ht.grows, hf⟩

/-- Linking a class that has been put on the stack is a sequence of changes, and then the
class may be taken off with the result. -/
theorem linking_advances {depth : Nat} (hr : r.Indexed) (hu : r.standing? id = some .unresolved)
    (hresolve : ∀ p r, Indexed r → r.Issued p → (resolveId depth p r).Meets
      (fun _ s => Advances r s ∧ ∃ links, s.Resolved p links)
      (fun f s => Advances r s ∧ BadReference p f s) True) :
    ((link (resolveId depth) (force depth) id).attempt (r.beginLinking id)).Meets
      (fun result s => Advances (r.beginLinking id) s ∧ s.standing? id = some .unresolved ∧
        Change s (s.endLinking id result)) (fun _ _ => False) True := by
  obtain ⟨d, hd⟩ := issued_iff_decl?.mp (.of_standing? hu)
  have hunres : ∀ s, Advances (r.beginLinking id) s → s.standing? id = some .unresolved :=
    fun s hs => hs.held id List.mem_cons_self hu
  refine Eval.meets_attempt
    (link_meets (linkSteps_advances (r := r.beginLinking id) hr hresolve) (.refl _) hd) ?_ ?_ ?_
  · rintro links s ⟨hs, _, hasm⟩
    exact ⟨hs, hunres s hs, .linked hs.resolving (hunres s hs) ⟨d, s.linksOf, hasm⟩⟩
  · rintro e s ⟨hs, _, hcause⟩
    exact ⟨hs, hunres s hs, .refused hs.resolving (hunres s hs) hcause⟩
  · rintro i s ⟨_, _, hcause⟩
    obtain ⟨e, he⟩ := hcause.raised (fun _ _ ⟨e, he, _⟩ => ⟨e, he⟩)
      fun _ _ ⟨_, _, _, e, _, _, he⟩ => ⟨e, he⟩
    cases he

/-- Resolution is a sequence of changes, after which the class is resolved, or
failed with the error that is raised, or still being linked. -/
theorem resolveId_advances (depth : Nat) :
    ∀ p r, Indexed r → r.Issued p → (resolveId depth p r).Meets
      (fun _ s => Advances r s ∧ ∃ links, s.Resolved p links)
      (fun f s => Advances r s ∧ BadReference p f s) True := by
  induction depth with
  | zero => intro p r _ _; exact trivial
  | succ depth ih =>
    intro p r hr hp
    obtain ⟨st, hst⟩ := hp.standing?
    cases st with
    | resolved links =>
      rw [resolveId_of_resolved depth hst]
      exact ⟨.refl r, links, hst⟩
    | failed e =>
      rw [resolveId_of_failed depth hst]
      exact ⟨.refl r, e, rfl, .inl hst⟩
    | unresolved =>
      cases hc : r.cycle? p with
      | some e =>
        rw [resolveId_of_cycle depth hst hc]
        exact ⟨.refl r, e, rfl, .inr hc⟩
      | none =>
        have hfresh := cycle?_eq_none_iff.mp hc
        rw [resolveId_of_fresh depth hst hfresh]
        refine Eval.meets_bind ((linking_advances hr hst ih).imp (fun _ _ h => h)
          (fun _ _ h => h.elim) id) ?_
        rintro result s ⟨hs, hunres, hlast⟩
        have hdone := advances_endLinking hst hfresh hs hlast
        cases result with
        | ok links => exact ⟨hdone, links, standing?_endLinking hunres⟩
        | error e => exact ⟨hdone, e, rfl, .inl (standing?_endLinking hunres)⟩

/-! ## Operations -/

/-- However the computation ends, it was a sequence of changes. -/
def Advancing {α : Type} (x : Eval Registry α) (r : Registry) : Prop :=
  (x r).Meets (fun _ => Advances r) (fun _ => Advances r) True

namespace Advancing

variable {α β : Type} {x : Eval Registry α}

theorem pure (a : α) : Advancing (pure a) r := .refl r

theorem get : Advancing Eval.get r := .refl r

theorem ask (question : Registry → Except Fault α) : Advancing (.ask question) r :=
  Eval.meets_ask (fun _ _ => .refl r) fun _ _ => .refl r

theorem bind {f : α → Eval Registry β} (hx : Advancing x r)
    (hf : ∀ a s, Advances r s → Advancing (f a) s) : Advancing (x >>= f) r := by
  refine Eval.meets_bind hx fun a s hs => ?_
  exact (hf a s hs).imp (fun _ _ h => hs.trans h) (fun _ _ h => hs.trans h) id

theorem of_computing {Q : α → Registry → Prop} (h : Computing x r Q) : Advancing x r :=
  Outcome.Meets.imp h (fun _ _ h => .of_computes h.1) (fun _ _ h => .of_computes h.1) id

theorem of_change {f : Registry → Registry} (h : Change r (f r))
    (hres : (f r).resolving = r.resolving) (heval : (f r).evaluating = r.evaluating)
    (hst : ∀ id, (f r).standing? id = r.standing? id) : Advancing (.modify f) r :=
  Advances.of_change h hres heval hst

end Advancing

theorem lookup_advancing (name : QualifiedName) (hr : r.Indexed) : Advancing (lookup name) r :=
  .of_computing (lookup_computing name hr)

/-- A number that was not issued is turned down before anything is changed. -/
theorem resolveId_advancing (depth : Nat) (p : ClassId) (hr : r.Indexed) :
    Advancing (resolveId depth p) r := by
  by_cases hp : r.Issued p
  · exact (resolveId_advances depth p r hr hp).imp (fun _ _ h => h.1) (fun _ _ h => h.1) id
  · cases depth with
    | zero => exact trivial
    | succ depth =>
      unfold Advancing
      rw [resolveId_of_unissued depth hp]
      exact .refl r

theorem resolve_advancing (depth : Nat) (name : QualifiedName) (hr : r.Indexed) :
    Advancing (resolve depth name) r :=
  (lookup_advancing name hr).bind fun p _ hs =>
    (resolveId_advancing depth p (hs.indexed hr)).bind fun _ _ _ => .pure p

theorem register_advancing (d : ClassDecl) : Advancing (register d) r := by
  unfold Advancing register
  split
  · exact .refl r
  · rename_i hc
    have hfree : r.contains d.name = false := by simpa using hc
    exact .of_computes (.of_loads (.single (.registered hfree)))

theorem declare_advancing (depth : Nat) (d : ClassDecl) (hr : r.Indexed) :
    Advancing (declare depth d) r :=
  (register_advancing d).bind fun p _ hs =>
    (resolveId_advancing depth p (hs.indexed hr)).bind fun _ _ _ => .pure p

theorem resolveFrom_advancing {resolve : ClassId → Eval Registry Unit}
    (hresolve : ∀ id r, Indexed r → Advancing (resolve id) r) (depth : Nat) :
    ∀ position r, Indexed r → Advancing (resolveFrom resolve depth position) r := by
  induction depth with
  | zero => intro position r _; exact trivial
  | succ depth ih =>
    intro position r hr
    refine Advancing.get.bind fun q s hs => ?_
    have hs' := hs.indexed hr
    split
    · have hattempt : Advancing (resolve (.ofIndex position)).attempt s :=
        Eval.meets_attempt (hresolve _ s hs') (fun _ _ h => h) (fun _ _ h => h) fun _ _ h => h
      refine hattempt.bind fun result t ht => ?_
      refine (ih (position + 1) t (ht.indexed hs')).bind fun rest u _ => ?_
      cases result <;> exact .pure _
    · exact .pure []

/-- Reading a constant computes values and does nothing else. -/
theorem constant_computes (depth : Nat) (id : ClassId) (name : String) (hr : r.Indexed) :
    (constant depth id name r).Meets (fun _ => Computes r) (fun _ => Computes r) True := by
  refine Eval.meets_bind (Eval.meets_ask
    (Q := fun found s => r = s ∧ r.registration? id = some found) ?_ fun _ _ => .refl r) ?_
  · exact fun found hf => ⟨rfl, registration_eq_ok_iff.mp hf⟩
  rintro found _ ⟨rfl, hf⟩
  have hfetch : (fetch depth id .self name r).Meets (fun _ => Computes r)
      (fun _ => Computes r) True :=
    Outcome.Meets.imp
      (fetchWith_computing (force_computes depth) .self name r hr (issued_iff.mpr ⟨found, hf⟩))
      (fun _ _ h => h.1) (fun _ _ h => h.1) fun h => h
  cases found.standing with
  | failed e => exact Computes.refl r
  | unresolved => exact hfetch
  | resolved links => exact hfetch

theorem constant_advancing (depth : Nat) (id : ClassId) (name : String) (hr : r.Indexed) :
    Advancing (constant depth id name) r :=
  (constant_computes depth id name hr).imp (fun _ _ h => .of_computes h)
    (fun _ _ h => .of_computes h) fun h => h

/-! ## Static values -/

/-- The static values of a resolved class are there once they have been asked
for. -/
theorem statics_meets (id : ClassId) (r : Registry) :
    (statics id r).Meets
      (fun table s => Advances r s ∧
        ∃ found, s.registration? id = some found ∧ found.statics = some table)
      (fun _ s => Advances r s) True := by
  refine Eval.meets_bind (Eval.meets_ask (Q := fun l s => r = s ∧ r.Resolved id l) ?_
    fun _ _ => .refl r) ?_
  · exact fun l hl => ⟨rfl, links_eq_ok_iff.mp hl⟩
  rintro links _ ⟨rfl, hl⟩
  refine Eval.meets_bind (Eval.meets_ask
    (Q := fun found s => r = s ∧ r.registration? id = some found) ?_ fun _ _ => .refl r) ?_
  · exact fun found hf => ⟨rfl, registration_eq_ok_iff.mp hf⟩
  rintro found _ ⟨rfl, hf⟩
  cases hs : found.statics with
  | some table => exact ⟨.refl r, found, hf, hs⟩
  | none =>
    refine Eval.meets_bind
      (Eval.meets_modify (Q := fun _ s => r.setStatics id (.ofDecl found.decl) = s) rfl) ?_
    rintro _ _ rfl
    refine ⟨.of_change (.seeded hl hf hs) rfl rfl (standing?_setStatics id · _ r),
      { found with statics := some (.ofDecl found.decl) }, ?_, rfl⟩
    rw [setStatics, registration?_updateAt, if_pos rfl, hf]
    rfl

/-- Reading static values and then writing others in their place. -/
theorem statics_bind_advancing {α : Type} (f : StaticTable → StaticTable)
    (answer : StaticTable → α) (id : ClassId) (r : Registry) :
    Advancing (do
      let table ← statics id
      .modify (setStatics id (f table))
      pure (answer table) : Eval Registry α) r := by
  refine Eval.meets_bind (statics_meets id r) ?_
  rintro table s ⟨hs, found, hfound, htable⟩
  have hwrite : Advancing (.modify (setStatics id (f table))) s :=
    .of_change (.assigned hfound htable (f table)) rfl rfl (standing?_setStatics id · _ s)
  refine Outcome.Meets.imp (hwrite.bind fun _ u _ => .pure (answer table))
    (fun _ _ h => hs.trans h) (fun _ _ h => hs.trans h) fun h => h

theorem statics_advancing (id : ClassId) (r : Registry) : Advancing (statics id) r :=
  (statics_meets id r).imp (fun _ _ h => h.1) (fun _ _ h => h) fun h => h

theorem staticOwner_advancing (name : String) (depth : Nat) :
    ∀ id r, Advancing (staticOwner name depth id) r := by
  induction depth with
  | zero => intro id r; exact trivial
  | succ depth ih =>
    intro id r
    refine (Advancing.ask _).bind fun links s _ => (Advancing.ask _).bind fun d t _ => ?_
    split
    · exact .pure _
    · split
      · exact ih _ t
      · exact .pure _

theorem staticProperty_advancing (depth : Nat) (id : ClassId) (name : String) (r : Registry) :
    Advancing (staticProperty depth id name) r := by
  refine (staticOwner_advancing name depth id r).bind fun owner s _ => ?_
  cases owner with
  | none => exact .pure _
  | some owner => exact (statics_advancing owner s).bind fun _ _ _ => .pure _

theorem setStaticProperty_advancing (depth : Nat) (id : ClassId) (name : String) (value : Value)
    (r : Registry) : Advancing (setStaticProperty depth id name value) r := by
  refine (staticOwner_advancing name depth id r).bind fun owner s _ => ?_
  cases owner with
  | none => exact .pure _
  | some owner => exact statics_bind_advancing (·.replace name value) (·.get? name) owner s

/-- Every operation is a sequence of changes, whether it succeeds or fails. -/
theorem perform_advances (depth : Nat) (op : Operation) (hr : r.Indexed) :
    Advancing (perform depth op) r := by
  cases op with
  | register d => exact (register_advancing d).bind fun _ _ _ => .pure _
  | declare d => exact (declare_advancing depth d hr).bind fun _ _ _ => .pure _
  | setAutoloader loader =>
    exact (Advancing.of_change (.hooked (some loader)) rfl rfl fun _ => rfl).bind
      fun _ _ _ => .pure _
  | clearAutoloader =>
    exact (Advancing.of_change (.hooked none) rfl rfl fun _ => rfl).bind fun _ _ _ => .pure _
  | find name => exact Advancing.get.bind fun _ _ _ => .pure _
  | contains name => exact Advancing.get.bind fun _ _ _ => .pure _
  | lookup name => exact (lookup_advancing name hr).bind fun _ _ _ => .pure _
  | resolve name => exact (resolve_advancing depth name hr).bind fun _ _ _ => .pure _
  | resolveId id => exact (resolveId_advancing depth id hr).bind fun _ _ _ => .pure _
  | resolveAll =>
    exact (resolveFrom_advancing (fun id _ h => resolveId_advancing depth id h) depth 0 r hr).bind
      fun _ _ _ => .pure _
  | isResolved id => exact (Advancing.ask _).bind fun _ _ _ => .pure _
  | resolutionError id => exact (Advancing.ask _).bind fun _ _ _ => .pure _
  | links id => exact (Advancing.ask _).bind fun _ _ _ => .pure _
  | decl id => exact Advancing.get.bind fun _ _ _ => .pure _
  | classes => exact Advancing.get.bind fun _ _ _ => .pure _
  | size => exact Advancing.get.bind fun _ _ _ => .pure _
  | config => exact Advancing.get.bind fun _ _ _ => .pure _
  | text => exact Advancing.get.bind fun _ _ _ => .pure _
  | isInstanceOf id candidate => exact (Advancing.ask _).bind fun _ _ _ => .pure _
  | findMethod id name => exact (Advancing.ask _).bind fun _ _ _ => .pure _
  | constructor id => exact (Advancing.ask _).bind fun _ _ _ => .pure _
  | sameMethod a m b n => exact (Advancing.ask _).bind fun _ _ _ => .pure _
  | constant id name => exact (constant_advancing depth id name hr).bind fun _ _ _ => .pure _
  | statics id => exact (statics_advancing id r).bind fun _ _ _ => .pure _
  | setStatic id name value =>
    exact (statics_bind_advancing (·.put name value) (·.get? name) id r).bind fun _ _ _ => .pure _
  | replaceStatics id table =>
    exact (statics_bind_advancing (fun _ => table) (fun before => before) id r).bind
      fun _ _ _ => .pure _
  | staticOwner id name => exact (staticOwner_advancing name depth id r).bind fun _ _ _ => .pure _
  | staticProperty id name =>
    exact (staticProperty_advancing depth id name r).bind fun _ _ _ => .pure _
  | setStaticProperty id name value =>
    exact (setStaticProperty_advancing depth id name value r).bind fun _ _ _ => .pure _

/-! ## Runs -/

/-- A sequence of operations, each of which ends with a value or a failure, leads
from one registry to another. -/
inductive Run : Registry → List Operation → Registry → Prop where
  | nil (r : Registry) : Run r [] r
  | cons {r s t : Registry} {op : Operation} {ops : List Operation} (depth : Nat)
      (first : (perform depth op r).state? = some s) (rest : Run s ops t) : Run r (op :: ops) t

/-- The registry that a sequence of operations leads to, one bound on nesting
given for all of them. -/
def performAll (depth : Nat) : List Operation → Registry → Option Registry
  | [], r => some r
  | op :: ops, r => (perform depth op r).state?.bind (performAll depth ops)

theorem Run.of_performAll {depth : Nat} {ops : List Operation}
    (h : performAll depth ops r = some s) : Run r ops s := by
  induction ops generalizing r with
  | nil =>
    cases h
    exact .nil _
  | cons op ops ih =>
    obtain ⟨t, ht, hs⟩ := Option.bind_eq_some_iff.mp h
    exact .cons depth ht (ih hs)

theorem Run.advances {ops : List Operation} (h : Run r ops s) (hr : r.Indexed) :
    Advances r s := by
  induction h with
  | nil r => exact .refl r
  | cons depth first rest ih =>
    have hs := Outcome.Meets.of_state? (perform_advances depth _ hr) first
    exact hs.trans (ih (hs.indexed hr))

theorem indexed_new (config : Config) : (new config).Indexed := by
  intro name id h
  cases h

/-- In every state of every run from an empty registry, names are bound to
classes, and between operations nothing is in progress. -/
theorem Run.idle {config : Config} {ops : List Operation} (h : Run (new config) ops r) :
    r.Indexed ∧ r.resolving = [] ∧ r.evaluating = [] :=
  have hadv := h.advances (indexed_new config)
  ⟨hadv.indexed (indexed_new config), hadv.resolving, hadv.evaluating⟩

/-- A state that a registry gets into, also in the middle of an operation. -/
def Reachable (r : Registry) : Prop :=
  ∃ config, Relation.ReflTransGen Change (new config) r

theorem Run.reachable {config : Config} {ops : List Operation} (h : Run (new config) ops r) :
    r.Reachable :=
  ⟨config, (h.advances (indexed_new config)).steps⟩

theorem Reachable.changes (hr : r.Reachable) (h : Relation.ReflTransGen Change r s) :
    s.Reachable := by
  obtain ⟨config, hsteps⟩ := hr
  exact ⟨config, hsteps.trans h⟩

theorem Reachable.of_loads (hr : r.Reachable) (h : Relation.ReflTransGen Load r s) :
    s.Reachable := by
  obtain ⟨config, hsteps⟩ := hr
  refine ⟨config, hsteps.trans (Relation.ReflTransGen.mono (fun _ _ hload => ?_) _ _ h)⟩
  exact .compute (.load hload)

theorem Reachable.indexed (hr : r.Reachable) : r.Indexed := by
  obtain ⟨config, hsteps⟩ := hr
  induction hsteps with
  | refl => exact indexed_new config
  | tail _ hstep ih => exact hstep.indexed ih

/-- What a registry comes to later, at the end of a run of operations or after some of
the single changes that the operations consist of, so also in the middle of one. -/
inductive Becomes (r s : Registry) : Prop where
  | run {ops : List Operation} (h : Run r ops s)
  | changes (h : Relation.ReflTransGen Change r s)

theorem Becomes.steps (h : r.Becomes s) (hr : r.Indexed) : Relation.ReflTransGen Change r s := by
  cases h with
  | run h => exact (h.advances hr).steps
  | changes h => exact h

/-- Nothing but classes of a list has been registered, and nothing else has been
done. -/
structure Registered (decls : List ClassDecl) (r : Registry) : Prop where
  hookless : r.autoloader = none
  registration : ∀ c found, r.registration? c = some found →
    found.decl ∈ decls ∧ found.standing = .unresolved

theorem Registered.register {decls : List ClassDecl} {d : ClassDecl} (h : r.Registered decls)
    (hd : d ∈ decls) (depth : Nat) :
    (perform depth (.register d) r).Meets (fun _ => Registered decls)
      (fun _ => Registered decls) True := by
  refine Eval.meets_bind (Q := fun _ => Registered decls) ?_ fun id s hs => hs
  unfold Registry.register
  split
  · exact h
  · refine ⟨h.hookless, fun c found hf => ?_⟩
    rcases registration?_of_append hf with hold | rfl
    · exact h.registration c found hold
    · exact ⟨hd, rfl⟩

theorem Run.registered {config : Config} {decls : List ClassDecl}
    (h : Run (new config) (decls.map .register) r) : r.Registered decls := by
  suffices ∀ (todo : List ClassDecl) s, (∀ d ∈ todo, d ∈ decls) → s.Registered decls →
      Run s (todo.map .register) r → r.Registered decls from
    this decls (new config) (fun _ hd => hd) ⟨rfl, fun c found hf => by cases hf⟩ h
  intro todo
  induction todo with
  | nil =>
    intro s _ hs hrun
    cases hrun
    exact hs
  | cons d rest ih =>
    intro s hsub hs hrun
    cases hrun with
    | cons depth first hrest =>
      have hnext := Outcome.Meets.of_state? (hs.register (hsub d List.mem_cons_self) depth) first
      exact ih _ (fun x hx => hsub x (List.mem_cons_of_mem d hx)) hnext hrest

theorem Registered.standing? {decls : List ClassDecl} (h : r.Registered decls) {st : Standing}
    (hst : r.standing? id = some st) : st = .unresolved := by
  obtain ⟨found, hf, rfl⟩ := Option.map_eq_some_iff.mp hst
  exact (h.registration id found hf).2

theorem Registered.decl? {decls : List ClassDecl} (h : r.Registered decls) {d : ClassDecl}
    (hd : r.decl? id = some d) : d ∈ decls := by
  obtain ⟨found, hf, rfl⟩ := Option.map_eq_some_iff.mp hd
  exact (h.registration id found hf).1

theorem Registered.lazy? {decls : List ClassDecl} (h : r.Registered decls) {site : LazySite}
    {l : Lazy} (hl : r.lazy? site = some l) : ∃ d ∈ decls, d.lazy? site.member = some l := by
  obtain ⟨d, hd, hd'⟩ := Option.bind_eq_some_iff.mp hl
  exact ⟨d, h.decl? hd, hd'⟩

end Registry
end Lineage
