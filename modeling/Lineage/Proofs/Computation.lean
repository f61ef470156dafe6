/-
What looking up names and computing values do to a registry.

`Load` and `Compute` list every single change with the condition under which it
is made.  The theorem of this file is `force_computes`: whatever the hook and
the deferred sources do, computing a value is a sequence of such changes, and
the values in progress afterwards are those in progress before.
-/
import Lineage.Proofs.Outcome
import Lineage.Proofs.State

namespace Lineage
namespace Registry

/-! ## Single changes -/

/-- A change made by looking up a name. -/
inductive Load : Registry → Registry → Prop where
  | requested {r : Registry} {loader : Autoloader} {name : QualifiedName}
      (hook : r.autoloader = some loader) (unbound : r.idOf? name = none) :
      Load r ({ r with autoloader := some (loader.ask name).2 }.record (.requested name))
  | registered {r : Registry} {d : ClassDecl} (free : r.contains d.name = false) :
      Load r (r.append d)

/-- A change made by computing a value. -/
inductive Compute : Registry → Registry → Prop where
  | load {r s : Registry} (h : Load r s) : Compute r s
  | noted {r : Registry} (label : String) : Compute r (r.note label)
  | began {r : Registry} {site : LazySite} {source : Initializer}
      (pending : r.lazy? site = some (.pending source))
      (usable : ∀ e, r.standing? site.owner ≠ some (.failed e))
      (fresh : site ∉ r.evaluating) : Compute r (r.beginEvaluation site)
  | ended {r : Registry} {site : LazySite} {rest : List LazySite}
      (innermost : r.evaluating = site :: rest) (result : Except Error Value) :
      Compute r (r.endEvaluation site result)

variable {r s t : Registry}

theorem Load.grows (h : Load r s) : r.Extends s := by
  cases h with
  | requested hook unbound => exact .of_eq rfl rfl rfl
  | registered free => exact extends_append free

theorem Load.indexed (h : Load r s) (hr : r.Indexed) : s.Indexed := by
  cases h with
  | requested hook unbound => exact hr
  | @registered d free =>
    intro name id hn
    rw [idOf?_append] at hn
    split at hn
    · cases hn
      refine issued_ofIndex ?_
      rw [size_append]
      exact Nat.lt_succ_self r.size
    · exact (extends_append free).issued (hr name id hn)

theorem endEvaluation_eq (site : LazySite) (result : Except Error Value) (r : Registry) :
    ∃ q : Registry, q.config = r.config ∧ q.registrations = r.registrations ∧
      q.index = r.index ∧ q.resolving = r.resolving ∧
      q.evaluating = r.evaluating.erase site ∧
      r.endEvaluation site result =
        (match result with | .ok v => q.settle site v | .error _ => q) := by
  refine ⟨{ r with evaluating := r.evaluating.erase site }.record (.ended site result),
    rfl, rfl, rfl, rfl, rfl, ?_⟩
  cases result <;> rfl

theorem extends_endEvaluation (site : LazySite) (result : Except Error Value) (r : Registry) :
    r.Extends (r.endEvaluation site result) := by
  obtain ⟨q, hc, hr, hi, -, -, he⟩ := endEvaluation_eq site result r
  have hq : r.Extends q := .of_eq hc hr hi
  rw [he]
  cases result with
  | ok v => exact hq.trans (extends_settle site v q)
  | error e => exact hq

theorem Compute.grows (h : Compute r s) : r.Extends s := by
  cases h with
  | load h => exact h.grows
  | noted label => exact .of_eq rfl rfl rfl
  | began pending usable fresh => exact .of_eq rfl rfl rfl
  | ended innermost result => exact extends_endEvaluation _ result r

theorem Compute.resolving (h : Compute r s) : s.resolving = r.resolving := by
  cases h with
  | load h => cases h <;> rfl
  | noted label => rfl
  | began pending usable fresh => rfl
  | @ended site rest innermost result => cases result <;> rfl

/-- Computing a value leaves every class as resolved as it was. -/
theorem Compute.standing? (h : Compute r s) {id : ClassId} (hi : r.Issued id) :
    s.standing? id = r.standing? id := by
  cases h with
  | load h =>
    cases h with
    | requested hook unbound => rfl
    | registered free => exact standing?_append hi
  | noted label => rfl
  | began pending usable fresh => rfl
  | @ended site rest innermost result =>
    obtain ⟨q, -, hr, -, -, -, he⟩ := endEvaluation_eq site result r
    rw [he]
    cases result with
    | ok v => rw [standing?_settle, standing?_congr hr]
    | error e => exact standing?_congr hr id

theorem Compute.indexed (h : Compute r s) (hr : r.Indexed) : s.Indexed := by
  cases h with
  | load h => exact h.indexed hr
  | noted label => exact hr
  | began pending usable fresh => exact hr
  | @ended site rest innermost result =>
    intro name id hn
    have hx := (Compute.ended innermost result).grows
    refine hx.issued (hr name id ?_)
    cases result <;> exact hn

/-! ## Sequences of changes -/

/-- Values have been computed, and none is left in progress that was not in
progress before. -/
structure Computes (r s : Registry) : Prop where
  steps : Relation.ReflTransGen Compute r s
  evaluating : s.evaluating = r.evaluating

namespace Computes

theorem refl (r : Registry) : Computes r r := ⟨.refl, rfl⟩

theorem trans (h : Computes r s) (h' : Computes s t) : Computes r t :=
  ⟨h.steps.trans h'.steps, h'.evaluating.trans h.evaluating⟩

theorem of_loads (h : Relation.ReflTransGen Load r s) : Computes r s := by
  induction h with
  | refl => exact .refl r
  | tail _ hstep ih =>
    refine ⟨ih.steps.tail (.load hstep), ?_⟩
    cases hstep <;> exact ih.evaluating

theorem grows (h : Computes r s) : r.Extends s := by
  have hs := h.steps
  clear h
  induction hs with
  | refl => exact .refl _
  | tail _ hstep ih => exact ih.trans hstep.grows

theorem resolving (h : Computes r s) : s.resolving = r.resolving := by
  have hs := h.steps
  clear h
  induction hs with
  | refl => rfl
  | tail _ hstep ih => rw [hstep.resolving, ih]

theorem standing? (h : Computes r s) {id : ClassId} (hi : r.Issued id) :
    s.standing? id = r.standing? id := by
  have hs := h.steps
  clear h
  suffices s.Issued id ∧ s.standing? id = r.standing? id from this.2
  induction hs with
  | refl => exact ⟨hi, rfl⟩
  | tail _ hstep ih => exact ⟨hstep.grows.issued ih.1, by rw [hstep.standing? ih.1, ih.2]⟩

theorem indexed (h : Computes r s) (hr : r.Indexed) : s.Indexed := by
  have hs := h.steps
  clear h
  induction hs with
  | refl => exact hr
  | tail _ hstep ih => exact hstep.indexed ih

end Computes

/-- The computation only looks up names and computes values, and fails only with
an error. -/
def Computing {α : Type} (x : Eval Registry α) (r : Registry) (Q : α → Registry → Prop) : Prop :=
  (x r).Meets (fun a s => Computes r s ∧ Q a s) (fun f s => Computes r s ∧ ∃ e, f = .raised e) True

namespace Computing

variable {α β : Type} {x : Eval Registry α} {Q Q' : α → Registry → Prop}

theorem pure {a : α} (h : Q a r) : Computing (pure a) r Q := ⟨.refl r, h⟩

theorem raise (e : Error) : Computing (Eval.raise e : Eval Registry α) r Q := ⟨.refl r, e, rfl⟩

theorem bind {f : α → Eval Registry β} {R : β → Registry → Prop} (hx : Computing x r Q)
    (hf : ∀ a s, Computes r s → Q a s → Computing (f a) s R) : Computing (x >>= f) r R := by
  refine Eval.meets_bind hx fun a s ⟨hs, hq⟩ => ?_
  refine (hf a s hs hq).imp ?_ ?_ id
  · exact fun b t ⟨ht, hr⟩ => ⟨hs.trans ht, hr⟩
  · exact fun f t ⟨ht, he⟩ => ⟨hs.trans ht, he⟩

theorem imp (h : Computing x r Q) (hq : ∀ a s, Computes r s → Q a s → Q' a s) :
    Computing x r Q' :=
  Outcome.Meets.imp h (fun a s ⟨hs, ha⟩ => ⟨hs, hq a s hs ha⟩) (fun _ _ h => h) id

theorem attempt_meets (h : Computing x r Q) :
    (x.attempt r).Meets (fun _ s => Computes r s) (fun _ _ => False) True := by
  refine Eval.meets_attempt h (fun a t ht => ht.1) (fun e t ht => ht.1) ?_
  rintro id t ⟨-, e, he⟩
  cases he

theorem attempt (h : Computing x r Q) : Computing x.attempt r fun _ _ => True :=
  h.attempt_meets.imp (fun _ _ hs => ⟨hs, trivial⟩) (fun _ _ hf => hf.elim) id

theorem ofExcept (result : Except Error α) :
    Computing (Eval.ofExcept result : Eval Registry α) r fun _ _ => True := by
  cases result with
  | ok a => exact ⟨.refl r, trivial⟩
  | error e => exact ⟨.refl r, e, rfl⟩

theorem decl {id : ClassId} (hi : r.Issued id) :
    Computing (Eval.ask (·.decl id)) r fun d s => s.decl? id = some d := by
  refine Eval.meets_ask (fun d hd => ⟨.refl r, decl_eq_ok_iff.mp hd⟩) fun f hf => ?_
  exact absurd hf (decl_eq_error hi f)

end Computing

/-! ## Looking up names -/

theorem loads_autoload {name : QualifiedName} (h : r.idOf? name = none) :
    Relation.ReflTransGen Load r (r.autoload name) := by
  unfold autoload
  split
  · exact .refl
  · rename_i loader hl
    have hq := Relation.ReflTransGen.single (Load.requested hl h)
    dsimp only
    split
    · rename_i d _
      unfold registerIfFree
      split
      · exact hq
      · rename_i hc
        exact hq.tail (.registered (by simpa using hc))
    · exact hq

theorem lookup_meets (name : QualifiedName) (r : Registry) :
    (lookup name r).Meets
      (fun id s => Relation.ReflTransGen Load r s ∧ s.idOf? name = some id)
      (fun f s => Relation.ReflTransGen Load r s ∧ s.idOf? name = none ∧
        f = .raised (.classNotFound name.text))
      False := by
  unfold lookup
  split
  · rename_i id h
    exact ⟨.refl, h⟩
  · rename_i h
    dsimp only
    split
    · rename_i id h'
      exact ⟨loads_autoload h, h'⟩
    · rename_i h'
      exact ⟨loads_autoload h, h', rfl⟩

theorem lookup_computing (name : QualifiedName) (hr : r.Indexed) :
    Computing (lookup name) r fun id s => s.Issued id := by
  refine (lookup_meets name r).imp ?_ ?_ False.elim
  · intro id s ⟨hs, hn⟩
    exact ⟨.of_loads hs, (Computes.of_loads hs).indexed hr name id hn⟩
  · intro f s ⟨hs, _, hf⟩
    exact ⟨.of_loads hs, _, hf⟩

/-! ## Finding the class that declares a constant -/

theorem searchReferences_computing
    {search : ClassId → List ClassId → Eval Registry (Option ClassId × List ClassId)}
    (hsearch : ∀ id visited r, r.Indexed → r.Issued id →
      Computing (search id visited) r fun found s => ∀ owner ∈ found.1, s.Issued owner)
    (names : List QualifiedName) (visited : List ClassId) (r : Registry) (hr : r.Indexed) :
    Computing (searchReferences search names visited) r
      fun found s => ∀ owner ∈ found.1, s.Issued owner := by
  induction names generalizing visited r with
  | nil => exact .pure (by simp)
  | cons name rest ih =>
    refine (lookup_computing name hr).bind fun id s hs hid => ?_
    refine (hsearch id visited s (hs.indexed hr) hid).bind fun found t ht hfound => ?_
    obtain ⟨owner?, visited'⟩ := found
    cases owner? with
    | some owner => exact .pure hfound
    | none => exact ih visited' t (ht.indexed (hs.indexed hr))

theorem searchConstant_computing (name : String) (depth : Nat) :
    ∀ id visited r, Indexed r → r.Issued id →
      Computing (searchConstant name depth id visited) r
        fun found s => ∀ owner ∈ found.1, s.Issued owner := by
  induction depth with
  | zero => intro id visited r _ _; exact trivial
  | succ depth ih =>
    intro id visited r hr hid
    unfold searchConstant
    split
    · exact .pure (by simp)
    · refine (Computing.decl hid).bind fun d s hs _ => ?_
      split
      · exact .pure (by simpa using hs.grows.issued hid)
      · exact searchReferences_computing ih d.references (id :: visited) s (hs.indexed hr)

theorem target_computing {current : ClassId} (hc : r.Issued current) (hr : r.Indexed)
    (qualifier : Qualifier) : Computing (target current qualifier) r fun id s => s.Issued id := by
  cases qualifier with
  | self => exact .pure hc
  | static => exact .pure hc
  | parent =>
    refine (Computing.decl hc).bind fun d s hs _ => ?_
    cases d.parent with
    | none => exact .raise _
    | some name => exact lookup_computing name (hs.indexed hr)
  | named name => exact lookup_computing name hr

/-! ## Computing values -/

theorem fetchWith_computing {force : LazySite → Eval Registry Value} {depth : Nat}
    (hforce : ∀ site r, Indexed r → r.Issued site.owner →
      Computing (force site) r fun _ s => s.Computed site)
    {current : ClassId} (qualifier : Qualifier) (name : String) (r : Registry) (hr : r.Indexed)
    (hc : r.Issued current) :
    Computing (fetchWith force depth current qualifier name) r fun _ _ => True := by
  refine (target_computing hc hr qualifier).bind fun id s hs hid => ?_
  have hs' := hs.indexed hr
  refine (searchConstant_computing name depth id [] s hs' hid).bind fun found t ht hfound => ?_
  obtain ⟨owner?, visited⟩ := found
  cases owner? with
  | some owner =>
    exact (hforce _ t (ht.indexed hs') (hfound owner rfl)).imp fun _ _ _ _ => trivial
  | none => exact (Computing.decl (ht.grows.issued hid)).bind fun d u _ _ => .raise _

/-- A program only computes if its fetches do. -/
theorem Program.evaluate_computing {scope : Scope Registry} {current : ClassId}
    (hnote : scope.note = note)
    (hfetch : ∀ qualifier name r, Indexed r → r.Issued current →
      Computing (scope.fetch qualifier name) r fun _ _ => True)
    (p : Program) (r : Registry) (hr : r.Indexed) (hc : r.Issued current) :
    Computing (p.evaluate scope) r fun _ _ => True := by
  induction p generalizing r with
  | done result => exact .ofExcept result
  | fetch qualifier name next ih =>
    refine (hfetch qualifier name r hr hc).attempt.bind fun answer s hs _ => ?_
    exact ih answer s (hs.indexed hr) (hs.grows.issued hc)
  | note label next ih =>
    have hs : Computes r (r.note label) := ⟨.single (.noted label), rfl⟩
    refine Computing.bind (Q := fun _ s => s = r.note label) ?_ ?_
    · rw [hnote]
      exact ⟨hs, rfl⟩
    · rintro _ s - rfl
      exact ih (r.note label) (hs.indexed hr) (hs.grows.issued hc)

theorem Initializer.evaluate_eq {σ : Type} (scope : Scope σ) (source : Initializer) (s : σ) :
    source.evaluate scope s = source.toProgram.evaluate scope s := by
  cases source with
  | expr e => exact (Program.evaluate_ofExpr scope e s).symm
  | program p => rfl

/-- After an evaluation the site is no longer in progress, and if there is a
value it is stored. -/
theorem computed_endEvaluation {site : LazySite} (v : Value) :
    (r.endEvaluation site (.ok v)).Computed site := by
  intro source hp
  obtain ⟨q, -, hr, -, -, -, he⟩ := endEvaluation_eq site (.ok v) r
  rw [he, lazy?_settle, if_pos rfl] at hp
  cases hl : q.lazy? site with
  | none => rw [hl] at hp; cases hp
  | some l => rw [hl] at hp; cases l <;> cases hp

theorem evaluateSite_computing {scope : Scope Registry} {site : LazySite} {d : ClassDecl}
    {source : Initializer} (hnote : scope.note = note)
    (hfetch : ∀ qualifier name r, Indexed r → r.Issued site.owner →
      Computing (scope.fetch qualifier name) r fun _ _ => True)
    (hr : r.Indexed) (hp : r.lazy? site = some (.pending source)) (hi : r.Issued site.owner)
    (hf : ∀ e, r.standing? site.owner ≠ some (.failed e)) :
    Computing (evaluateSite scope site d source) r fun _ s => s.Computed site := by
  refine Eval.meets_bind (Eval.meets_get (Q := fun a s => r = a ∧ r = s) ⟨rfl, rfl⟩) ?_
  rintro _ _ ⟨rfl, rfl⟩
  split
  · exact Computing.raise _
  · rename_i hn
    have hn : site ∉ r.evaluating := by simpa using hn
    have hb : Compute r (r.beginEvaluation site) := .began hp hf hn
    refine Eval.meets_bind (Eval.meets_modify (Q := fun _ s => r.beginEvaluation site = s) rfl) ?_
    rintro _ _ rfl
    have hev : Computing (source.evaluate scope) (r.beginEvaluation site) fun _ _ => True := by
      unfold Computing
      rw [Initializer.evaluate_eq]
      exact Program.evaluate_computing hnote hfetch _ _ (hb.indexed hr) (hb.grows.issued hi)
    refine Eval.meets_bind (hev.attempt_meets.imp (fun _ _ h => h) (fun _ _ h => h.elim) id) ?_
    intro result s hs
    have he : s.evaluating = site :: r.evaluating := hs.evaluating
    have hdone : Computes r (s.endEvaluation site result) := by
      refine ⟨(Relation.ReflTransGen.head hb hs.steps).tail (.ended he result), ?_⟩
      obtain ⟨q, -, -, -, -, hq, hqe⟩ := endEvaluation_eq site result s
      rw [hqe]
      rw [he, List.erase_cons_head] at hq
      cases result <;> exact hq
    refine Eval.meets_bind
      (Eval.meets_modify (Q := fun _ t => s.endEvaluation site result = t) rfl) ?_
    rintro _ _ rfl
    cases result with
    | ok v => exact ⟨hdone, computed_endEvaluation v⟩
    | error e => exact ⟨hdone, e, rfl⟩

theorem force_of_failed {site : LazySite} {e : Error} (depth : Nat)
    (h : r.standing? site.owner = some (.failed e)) :
    force (depth + 1) site r = .failure (.raised e) r := by
  obtain ⟨found, hf, hst⟩ := Option.map_eq_some_iff.mp h
  show (Eval.ask (·.registration site.owner) >>= _) r = _
  rw [registration_bind hf, hst]
  rfl

theorem force_of_usable {site : LazySite} {d : ClassDecl} (depth : Nat)
    (hd : r.decl? site.owner = some d) (h : ∀ e, r.standing? site.owner ≠ some (.failed e)) :
    force (depth + 1) site r =
      (match d.lazy? site.member with
        | none => pure .null
        | some (.settled value) => pure value
        | some (.pending source) =>
          evaluateSite { fetch := fetchWith (force depth) depth site.owner, note := note }
            site d source : Eval Registry Value) r := by
  obtain ⟨found, hf, rfl⟩ := Option.map_eq_some_iff.mp hd
  show (Eval.ask (·.registration site.owner) >>= _) r = _
  rw [registration_bind hf]
  cases hst : found.standing with
  | unresolved => rfl
  | resolved links => rfl
  | failed e => exact absurd (by rw [standing?, hf, Option.map_some, hst]) (h e)

theorem force_of_computed {site : LazySite} (depth : Nat) (hi : r.Issued site.owner)
    (hu : ∀ e, r.standing? site.owner ≠ some (.failed e)) (hc : r.Computed site) :
    ∃ v, force (depth + 1) site r = .value v r := by
  obtain ⟨d, hd⟩ := issued_iff_decl?.mp hi
  rw [force_of_usable depth hd hu]
  cases hm : d.lazy? site.member with
  | none => exact ⟨.null, rfl⟩
  | some l =>
    cases l with
    | settled v => exact ⟨v, rfl⟩
    | pending source =>
      refine absurd ?_ (hc source)
      rw [lazy?, hd]
      exact hm

/-- Computing a value changes nothing but what `Compute` lists, and the value is
there afterwards. -/
theorem force_computes (depth : Nat) :
    ∀ site r, Indexed r → r.Issued site.owner →
      Computing (force depth site) r fun _ s => s.Computed site := by
  induction depth with
  | zero => intro site r _ _; exact trivial
  | succ depth ih =>
    intro site r hr hi
    obtain ⟨d, hd⟩ := issued_iff_decl?.mp hi
    have hl : r.lazy? site = d.lazy? site.member := by rw [lazy?, hd]; rfl
    unfold Computing
    by_cases hf : ∃ e, r.standing? site.owner = some (.failed e)
    · obtain ⟨e, he⟩ := hf
      rw [force_of_failed depth he]
      exact ⟨.refl r, e, rfl⟩
    · have hu : ∀ e, r.standing? site.owner ≠ some (.failed e) := fun e he => hf ⟨e, he⟩
      rw [force_of_usable depth hd hu]
      cases hm : d.lazy? site.member with
      | none => exact Computing.pure fun source hp => by rw [hl, hm] at hp; cases hp
      | some l =>
        cases l with
        | settled v => exact Computing.pure fun source hp => by rw [hl, hm] at hp; cases hp
        | pending source =>
          refine evaluateSite_computing rfl ?_ hr (by rw [hl, hm]) hi hu
          exact fun qualifier name s hs hc => fetchWith_computing ih qualifier name s hs hc

end Registry
end Lineage
