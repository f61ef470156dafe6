/-
Operations that take nothing on trust.

The operations go on whatever the registry is like in between, and some of their steps
take it that a class is there: the report of a cycle names the classes on the stack, and
a class is changed in its place.  `performGuarded` does the same and makes sure.  A class
is looked up before it is named or changed, and a value is asked for and stored only if
its class declares it.  Whenever something is put on the stack, set in progress or taken
off again, and before and after each lookup, registration, resolution, evaluation and
fetch, the registry has to be as demanded.  Otherwise everything ends at once, in a way
that no expression can catch.

The theorem of this file is `performGuarded_eq`: if every reachable registry is as
demanded, guarded operations are the operations.  So what is proved of reachable
registries is true of the registry at each of these moments of every operation.
-/
import Lineage.Proofs.Balance
import Lineage.Proofs.FailedClass
import Lineage.Proofs.Nesting

namespace Lineage
namespace Registry

variable {α β : Type} {r s : Registry} {c id : ClassId} {site : LazySite}

/-! ## Sites that are there -/

/-- The class at the site declares a constant or a property for it. -/
def HasSite (r : Registry) (site : LazySite) : Prop :=
  ∃ d, r.decl? site.owner = some d ∧ site.member ∈ d.lazyMembers

instance (r : Registry) (site : LazySite) : Decidable (r.HasSite site) :=
  decidable_of_iff ((r.decl? site.owner).any fun d => site.member ∈ d.lazyMembers) (by
    simp [HasSite, Option.any_eq_true])

theorem HasSite.mono (hs : r.Extends s) (h : r.HasSite site) : s.HasSite site := by
  obtain ⟨d, hd, hm⟩ := h
  obtain ⟨d', hd', hset⟩ := hs.declared hd
  exact ⟨d', hd', hset.alike.lazyMembers ▸ hm⟩

theorem HasSite.issued (h : r.HasSite site) : r.Issued site.owner := by
  obtain ⟨d, hd, -⟩ := h
  exact .of_decl? hd

theorem HasSite.of_lazy? {l : Lazy} (h : r.lazy? site = some l) : r.HasSite site := by
  obtain ⟨d, hd, hm⟩ := Option.bind_eq_some_iff.mp h
  exact ⟨d, hd, ClassDecl.mem_lazyMembers hm⟩

theorem DeclaresConstant.hasSite {name : String} (h : r.DeclaresConstant c name) :
    r.HasSite ⟨c, .constant name⟩ := by
  obtain ⟨l, hl⟩ := h.exists_lazy
  exact .of_lazy? hl

/-- A search ends at a constant that is there. -/
theorem locate_hasSite (hr : r.Indexed) (hc : r.Issued c) (depth : Nat) (q : Qualifier)
    (name : String) :
    Computing (locate depth c q name) r fun site s => s.HasSite site := by
  refine (target_computing hc hr q).bind fun p s hs hp => ?_
  have hsearch : Computing (searchConstant name depth p []) s
      fun found t => ∀ owner ∈ found.1, t.DeclaresConstant owner name := by
    refine Outcome.Meets.imp (searchConstant_searching name depth p [] s (hs.indexed hr) hp)
      (fun found t ⟨ht, hfound⟩ => ⟨.of_loads ht, fun owner howner => ?_⟩)
      (fun f t ⟨ht, _, _, hf⟩ => ⟨.of_loads ht, _, hf⟩) id
    obtain ⟨owner?, visited⟩ := found
    cases howner
    exact hfound.2
  refine hsearch.bind fun found t ht hfound => ?_
  obtain ⟨owner?, visited⟩ := found
  cases owner? with
  | some owner => exact .pure (hfound owner rfl).hasSite
  | none => exact (Computing.decl (ht.grows.issued hp)).bind fun d u _ _ => .raise _

/-! ## Names that are there -/

/-- The name of a class that has to be there. -/
def nameHeld (r : Registry) (id : ClassId) : Except Fault String :=
  (r.decl id).map fun d => d.name.text

/-- The error of a class that is being linked already, where all classes that it names
have to be there. -/
def cycleHeld? (r : Registry) (id : ClassId) : Except Fault (Option Error) :=
  if r.resolving.contains id then do
    let inner := (r.resolving.takeWhile (· != id)).reverse
    let name ← r.nameHeld id
    let chain ← (id :: inner ++ [id]).mapM r.nameHeld
    pure (some (.inheritanceCycle name chain))
  else pure none

theorem nameHeld_eq (h : r.Issued id) : r.nameHeld id = .ok (r.nameText id) := by
  obtain ⟨d, hd⟩ := issued_iff_decl?.mp h
  rw [nameHeld, decl_eq_ok_iff.mpr hd, nameText_eq hd]
  rfl

theorem mapM_nameHeld {classes : List ClassId} (h : ∀ c ∈ classes, r.Issued c) :
    classes.mapM r.nameHeld = .ok (classes.map r.nameText) := by
  induction classes with
  | nil => rfl
  | cons c rest ih =>
    rw [List.mapM_cons, nameHeld_eq (h c List.mem_cons_self),
      ih fun x hx => h x (List.mem_cons_of_mem c hx)]
    rfl

/-- The report of a cycle names classes on the stack only. -/
theorem cycleHeld?_eq (h : ∀ c ∈ r.resolving, r.Issued c) (id : ClassId) :
    r.cycleHeld? id = .ok (r.cycle? id) := by
  unfold cycleHeld? cycle?
  split
  · rename_i hmem
    have hid : r.Issued id := h id (by simpa using hmem)
    have hchain : ∀ c ∈ id :: (r.resolving.takeWhile (· != id)).reverse ++ [id], r.Issued c := by
      intro c hc
      simp only [List.cons_append, List.mem_cons, List.mem_append, List.mem_reverse,
        List.not_mem_nil, or_false] at hc
      rcases hc with rfl | hc | rfl
      · exact hid
      · exact h c ((List.takeWhile_sublist _).mem hc)
      · exact hid
    dsimp only
    rw [nameHeld_eq hid, mapM_nameHeld hchain]
    rfl
  · rfl

/-! ## Guarded operations -/

section Guarded

variable (P : Registry → Prop) [DecidablePred P]

/-- Stop unless the registry is as demanded. -/
def demand : Eval Registry Unit :=
  .ask fun r => if P r then .ok () else .error (.unissued (.ofIndex r.size))

/-- A computation before and after which the registry has to be as demanded, however the
computation ends. -/
def between (x : Eval Registry α) : Eval Registry α := do
  demand P
  let result ← x.attempt
  demand P
  .ofExcept result

/-- A change that has to do with one class, which has to be there. -/
def changeAt (id : ClassId) (f : Registry → Registry) : Eval Registry Unit := do
  let _ ← .ask (·.registration id)
  .modify f
  demand P

def evaluateGuarded (scope : Scope Registry) (site : LazySite) (owner : ClassDecl)
    (source : Initializer) : Eval Registry Value := do
  let r ← .get
  if r.evaluating.contains site then
    .raise (.circularConstant owner.name.text (site.member.label owner))
  else
    changeAt P site.owner (beginEvaluation site)
    let result ← (source.evaluate scope).attempt
    demand (·.HasSite site)
    changeAt P site.owner (endEvaluation site result)
    .ofExcept result

def forceGuarded : Nat → LazySite → Eval Registry Value
  | 0 => fun _ => .tooDeep
  | depth + 1 => fun site => between P do
    demand (·.HasSite site)
    let scope : Scope Registry :=
      { fetch := fun q name => between P (fetchWith (forceGuarded depth) depth site.owner q name)
        note := note }
    readOr (evaluateGuarded P scope site) site

def fetchGuarded (depth : Nat) (current : ClassId) (q : Qualifier) (name : String) :
    Eval Registry Value :=
  between P (fetchWith (forceGuarded P depth) depth current q name)

def scopeGuarded (depth : Nat) (current : ClassId) : Scope Registry :=
  { fetch := fetchGuarded P depth current, note := note }

def resolveGuarded : Nat → ClassId → Eval Registry Unit
  | 0, _ => .tooDeep
  | depth + 1, id => between P do
    let found ← .ask (·.registration id)
    match found.standing with
    | .resolved _ => pure ()
    | .failed e => .raise e
    | .unresolved => do
      match ← .ask (·.cycleHeld? id) with
      | some e => .raise e
      | none => do
        changeAt P id (beginLinking id)
        let result ← (between P (link (resolveGuarded depth) (forceGuarded P depth) id)).attempt
        changeAt P id (endLinking id result)
        .ofExcept (result.map fun _ => ())

def constantGuarded (depth : Nat) (id : ClassId) (name : String) : Eval Registry Value := do
  let found ← .ask (·.registration id)
  match found.standing with
  | .failed e => .raise e
  | _ => fetchGuarded P depth id .self name

def staticsGuarded (id : ClassId) : Eval Registry StaticTable := do
  let _ ← .ask (·.links id)
  let found ← .ask (·.registration id)
  match found.statics with
  | some table => pure table
  | none =>
    let table := StaticTable.ofDecl found.decl
    changeAt P id (setStatics id table)
    pure table

/-- Read static values, and write others in their place. -/
def assignGuarded (id : ClassId) (f : StaticTable → StaticTable) (answer : StaticTable → α) :
    Eval Registry α := do
  let table ← staticsGuarded P id
  changeAt P id (setStatics id (f table))
  pure (answer table)

def performGuarded (depth : Nat) (op : Operation) : Eval Registry Answer :=
  between P <| match op with
    | .declare d => do
      let id ← between P (register d)
      resolveGuarded P depth id
      return .id id
    | .resolve name => do
      let id ← between P (lookup name)
      resolveGuarded P depth id
      return .id id
    | .resolveId id => do
      resolveGuarded P depth id
      return .nothing
    | .resolveAll => return .failures (← resolveFrom (resolveGuarded P depth) depth 0)
    | .constant id name => return .value (← constantGuarded P depth id name)
    | .statics id => return .statics (← staticsGuarded P id)
    | .setStatic id name value =>
      return .value? (← assignGuarded P id (·.put name value) (·.get? name))
    | .replaceStatics id table =>
      return .statics (← assignGuarded P id (fun _ => table) fun before => before)
    | .staticProperty id name => do
      match ← staticOwner name depth id with
      | some owner => do
        let table ← staticsGuarded P owner
        return .value? (table.get? name)
      | none => return .value? none
    | .setStaticProperty id name value => do
      match ← staticOwner name depth id with
      | some owner =>
        return .value? (← assignGuarded P owner (·.replace name value) (·.get? name))
      | none => return .value? none
    | op => perform depth op

end Guarded

/-! ## Demands that are met -/

section Demands

variable {P : Registry → Prop} [DecidablePred P]

theorem demand_bind (h : P r) (f : Unit → Eval Registry α) : (demand P >>= f) r = f () r := by
  rw [Eval.bind_apply, demand, Eval.ask, if_pos h]

theorem changeAt_bind {f : Registry → Registry} (hi : r.Issued id) (h : P (f r))
    (g : Unit → Eval Registry α) : (changeAt P id f >>= g) r = g () (f r) := by
  obtain ⟨found, hf⟩ := issued_iff.mp hi
  unfold changeAt
  rw [Eval.bind_assoc_apply, registration_bind hf, Eval.bind_assoc_apply]
  exact demand_bind h g

/-- Where both demands are met, what stands between them is all that happens. -/
theorem between_eq {x y : Eval Registry α} (hxy : x r = y r) (h : P r)
    (hy : (y r).Meets (fun _ => P) (fun _ => P) True) : between P x r = y r := by
  unfold between
  rw [demand_bind h]
  refine (Eval.attempt_bind_congr hxy _).trans ?_
  rw [Eval.bind_apply, Eval.attempt]
  cases hrun : y r with
  | value a s =>
    rw [hrun] at hy
    exact demand_bind hy _
  | failure fault s =>
    rw [hrun] at hy
    cases fault with
    | raised e => exact demand_bind hy _
    | unissued id => rfl
  | tooDeep => rfl

end Demands

/-! ## Two ways to link -/

theorem reject_advancing (className target : String) (violation : Option Violation)
    (r : Registry) : Advancing (reject className target violation) r :=
  (reject_meets className target violation r True).imp (fun _ _ h => h.1 ▸ .refl r)
    (fun _ _ h => h.1 ▸ .refl r) id

theorem inheritOne_advancing {resolve : ClassId → Eval Registry Unit}
    (hresolve : ∀ p r, Indexed r → Advancing (resolve p) r) (d : ClassDecl)
    (ref : Role × QualifiedName) (hr : r.Indexed) : Advancing (inheritOne resolve d ref) r := by
  refine (lookup_advancing ref.2 hr).bind fun p s hs => ?_
  refine (hresolve p s (hs.indexed hr)).bind fun _ t _ => (Advancing.ask _).bind fun base u _ => ?_
  exact (reject_advancing _ _ _ u).bind fun _ v _ => (Advancing.ask _).bind fun _ _ _ => .pure _

/-- Two ways to resolve are the same to what takes over the ancestors, if they are wherever
it comes to. -/
theorem inheritAll_congr {resolve resolve' : ClassId → Eval Registry Unit} {d : ClassDecl}
    (hresolve : ∀ p r, Indexed r → Advancing (resolve p) r)
    (h : ∀ p s, Reachable s → resolve' p s = resolve p s) (refs : List (Role × QualifiedName)) :
    ∀ links r, Reachable r →
      inheritAll resolve' d refs links r = inheritAll resolve d refs links r := by
  induction refs with
  | nil => exact fun _ _ _ => rfl
  | cons ref rest ih =>
    intro links r hr
    have hone : inheritOne resolve' d ref r = inheritOne resolve d ref r :=
      Eval.bind_congr (lookup_advancing ref.2 hr.indexed) fun p s hs =>
        Eval.bind_congr_left (h p s (hr.changes hs.steps)) _
    refine (Eval.bind_congr_left hone _).trans ?_
    refine Eval.bind_congr (inheritOne_advancing hresolve d ref hr.indexed) fun found s hs => ?_
    exact ih _ s (hr.changes hs.steps)

/-- Linking asks for values that are there, and comes to reachable registries only. -/
theorem link_congr {depth : Nat} {resolve : ClassId → Eval Registry Unit}
    {force' : LazySite → Eval Registry Value} (hr : r.Reachable) (hi : r.Issued id)
    (hresolve : ∀ p s, Reachable s → resolve p s = resolveId depth p s)
    (hforce : ∀ site s, Reachable s → s.HasSite site → force' site s = force depth site s) :
    link resolve force' id r = link (resolveId depth) (force depth) id r := by
  obtain ⟨d, hd⟩ := issued_iff_decl?.mp hi
  have hvalues : ∀ s, Reachable s → r.Extends s →
      forceAll force' id d s = forceAll (force depth) id d s := by
    intro s hs hext
    refine Eval.forEach_congr (I := fun s => Reachable s ∧ r.Extends s) (E := fun _ _ => True)
      (D := True) ?_ ?_ ⟨hs, hext⟩
    · rintro m hm s ⟨hs, hext⟩
      exact Eval.bind_congr_left (hforce _ s hs (HasSite.mono hext ⟨d, hd, hm⟩)) _
    · rintro m - s ⟨hs, hext⟩
      refine Eval.meets_bind (Outcome.Meets.imp
        (force_computes depth ⟨id, m⟩ s hs.indexed (hext.issued hi)) (fun _ _ h => h)
        (fun _ _ _ => trivial) fun h => h) fun _ t ⟨ht, _⟩ => ?_
      exact ⟨hs.changes (Advances.of_computes ht).steps, hext.trans ht.grows⟩
  rw [link_eq, link_eq, decl_bind hd, decl_bind hd]
  refine (Eval.bind_congr_left (inheritAll_congr (fun p _ hs => resolveId_advancing depth p hs)
    hresolve d.inheritances _ r hr) _).trans ?_
  refine Eval.bind_congr (inheritAll_meets
    (linkSteps_advances hr.indexed (resolveId_advances depth)) { ancestors := [id] }
    d.inheritances [] r rfl (.refl r) (.of_decl? hd) (by simp)) ?_
  rintro links s ⟨hs, hext, -⟩
  refine Eval.bind_congr (declareMethods_meets d links s True d.methods.names_nodup
    d.methods.entries [] rfl (by simp)) ?_
  rintro links _ ⟨rfl, -⟩
  exact Eval.bind_congr_left (hvalues _ (hr.changes hs.steps) hext) _

/-! ## Guarded operations are the operations -/

section Reachable

variable {P : Registry → Prop} [DecidablePred P] (hP : ∀ s, Reachable s → P s)

include hP

/-- A computation that only makes changes needs no demand. -/
theorem between_eq_of_advancing {x y : Eval Registry α} (hr : r.Reachable) (hxy : x r = y r)
    (hy : Advancing y r) : between P x r = y r :=
  between_eq hxy (hP r hr) (Outcome.Meets.imp hy (fun _ s hs => hP s (hr.changes hs.steps))
    (fun _ s hs => hP s (hr.changes hs.steps)) id)

theorem changeAt_bind_of_change {f : Registry → Registry} (hr : r.Reachable) (hi : r.Issued id)
    (h : Change r (f r)) (g : Unit → Eval Registry α) :
    (changeAt P id f >>= g) r = g () (f r) :=
  changeAt_bind hi (hP _ (hr.changes (.single h))) g

theorem fetchGuarded_eq {depth : Nat}
    (hforce : ∀ site s, Reachable s → s.HasSite site →
      forceGuarded P depth site s = force depth site s)
    (hr : r.Reachable) (hc : r.Issued c) (q : Qualifier) (name : String) :
    fetchGuarded P depth c q name r = fetch depth c q name r := by
  refine between_eq_of_advancing hP hr ?_
    (.of_computing (fetchWith_computing (force_computes depth) q name r hr.indexed hc))
  exact fetchWith_congr (locate_hasSite hr.indexed hc depth q name) fun site t ⟨ht, hsite⟩ =>
    hforce site t (hr.changes (Advances.of_computes ht).steps) hsite

/-- The evaluation of a source comes to reachable registries only. -/
theorem source_guarded {depth : Nat} (source : Initializer)
    (hforce : ∀ site s, Reachable s → s.HasSite site →
      forceGuarded P depth site s = force depth site s)
    (hr : r.Reachable) (hc : r.Issued c) :
    source.evaluate (scopeGuarded P depth c) r = source.evaluate (scopeOf depth c) r := by
  have hfetch : ∀ q name s, Reachable s ∧ s.Issued c →
      (scopeGuarded P depth c).fetch q name s = (scopeOf depth c).fetch q name s :=
    fun q name s ⟨hs, hi⟩ => fetchGuarded_eq hP hforce hs hi q name
  rw [Initializer.evaluate_eq, Initializer.evaluate_eq]
  refine Program.evaluate_congr hfetch (fun q name s ⟨hs, hi⟩ => ?_) rfl
    (fun label s ⟨hs, hi⟩ => ?_) _ ⟨hr, hc⟩
  · refine Outcome.Meets.imp (fetchWith_computing (force_computes depth) q name s hs.indexed hi)
      ?_ ?_ fun h => h
    · exact fun _ t ⟨ht, _⟩ => ⟨hs.changes (Advances.of_computes ht).steps, ht.grows.issued hi⟩
    · exact fun f t ⟨ht, _⟩ e _ =>
        ⟨hs.changes (Advances.of_computes ht).steps, ht.grows.issued hi⟩
  · exact ⟨hs.changes (.single (.compute (.noted label))), hi⟩

theorem evaluateGuarded_eq {depth : Nat} {d : ClassDecl} {source : Initializer}
    (hforce : ∀ site s, Reachable s → s.HasSite site →
      forceGuarded P depth site s = force depth site s)
    (hr : r.Reachable) (hpending : r.lazy? site = some (.pending source))
    (husable : ∀ e, r.standing? site.owner ≠ some (.failed e)) :
    evaluateGuarded P (scopeGuarded P depth site.owner) site d source r =
      evaluateSite (scopeOf depth site.owner) site d source r := by
  have hsite : r.HasSite site := .of_lazy? hpending
  by_cases hprogress : site ∈ r.evaluating
  · rw [evaluateSite_of_circular hprogress, evaluateGuarded, Eval.bind_apply, Eval.get_apply]
    dsimp only
    rw [if_pos (by simpa using hprogress)]
    rfl
  rw [evaluateSite_of_fresh hprogress, evaluateGuarded, Eval.bind_apply, Eval.get_apply]
  dsimp only
  rw [if_neg (by simpa using hprogress)]
  have hbegan : Change r (r.beginEvaluation site) := .compute (.began hpending husable hprogress)
  have hbegin := hr.changes (.single hbegan)
  rw [changeAt_bind_of_change hP hr hsite.issued hbegan]
  have hsource := source_guarded hP source hforce hbegin hsite.issued
  refine (Eval.attempt_bind_congr hsource _).trans ?_
  have hevaluate : Computing (source.evaluate (scopeOf depth site.owner)) (r.beginEvaluation site)
      fun _ _ => True := by
    unfold Computing
    rw [Initializer.evaluate_eq]
    exact Program.evaluate_computing rfl
      (fun q name s hs hi => fetchWith_computing (force_computes depth) q name s hs hi) _ _
      hbegin.indexed hsite.issued
  refine Eval.bind_congr hevaluate.attempt_meets fun result s hs => ?_
  have hlast : Change s (s.endEvaluation site result) := .compute (.ended hs.evaluating result)
  have hs' := hbegin.changes (Advances.of_computes hs).steps
  have hthere : s.HasSite site := HasSite.mono (hbegan.grows.trans hs.grows) hsite
  rw [demand_bind hthere, changeAt_bind_of_change hP hs' hthere.issued hlast]
  rfl

theorem forceGuarded_eq (depth : Nat) :
    ∀ site r, Reachable r → r.HasSite site → forceGuarded P depth site r = force depth site r := by
  induction depth with
  | zero => exact fun _ _ _ _ => rfl
  | succ depth ih =>
    intro site r hr hsite
    refine between_eq_of_advancing hP hr ?_
      (.of_computing (force_computes (depth + 1) site r hr.indexed hsite.issued))
    rw [demand_bind hsite, force_eq_readOr]
    refine readOr_congr fun d source husable hd hpending => ?_
    refine evaluateGuarded_eq hP ih hr ?_ husable
    rw [lazy?, hd]
    exact hpending

theorem link_guarded {depth : Nat}
    (hresolve : ∀ p s, Reachable s → resolveGuarded P depth p s = resolveId depth p s)
    (hr : r.Reachable) (hi : r.Issued id) :
    between P (link (resolveGuarded P depth) (forceGuarded P depth) id) r =
      link (resolveId depth) (force depth) id r := by
  refine between_eq_of_advancing hP hr (link_congr hr hi hresolve (forceGuarded_eq hP depth)) ?_
  obtain ⟨d, hd⟩ := issued_iff_decl?.mp hi
  exact (link_meets (linkSteps_advances hr.indexed (resolveId_advances depth)) (.refl _) hd).imp
    (fun _ _ h => h.1) (fun _ _ h => h.1) fun h => h

theorem resolveGuarded_eq (depth : Nat) :
    ∀ p r, Reachable r → resolveGuarded P depth p r = resolveId depth p r := by
  induction depth with
  | zero => exact fun _ _ _ => rfl
  | succ depth ih =>
    intro p r hr
    refine between_eq_of_advancing hP hr ?_ (resolveId_advancing (depth + 1) p hr.indexed)
    by_cases hp : r.Issued p
    · obtain ⟨found, hf⟩ := issued_iff.mp hp
      have hst : r.standing? p = some found.standing := by rw [standing?, hf]; rfl
      rw [registration_bind hf]
      cases hstanding : found.standing with
      | resolved links =>
        rw [hstanding] at hst
        rw [resolveId_of_resolved depth hst]
        rfl
      | failed e =>
        rw [hstanding] at hst
        rw [resolveId_of_failed depth hst]
        rfl
      | unresolved =>
        rw [hstanding] at hst
        dsimp only
        rw [Eval.bind_apply, Eval.ask, cycleHeld?_eq hr.nested.linked]
        cases hc : r.cycle? p with
        | some e =>
          rw [resolveId_of_cycle depth hst hc]
          rfl
        | none =>
          have hfresh := cycle?_eq_none_iff.mp hc
          have hbegan : Change r (r.beginLinking p) := .beganLinking hst hfresh
          have hbegin := hr.changes (.single hbegan)
          rw [resolveId_of_fresh depth hst hfresh]
          dsimp only
          rw [changeAt_bind_of_change hP hr hp hbegan]
          have hlink := link_guarded hP ih hbegin hp
          refine (Eval.attempt_bind_congr hlink _).trans ?_
          refine Eval.bind_congr (linking_advances hr.indexed hst (resolveId_advances depth)) ?_
          rintro result s ⟨hs, -, hlast⟩
          rw [changeAt_bind_of_change hP (hbegin.changes hs.steps) (hs.grows.issued hp) hlast]
          rfl
    · rw [resolveId_of_unissued depth hp, Eval.bind_apply, Eval.ask, registration,
        registration?_eq_none hp]

theorem resolveFrom_guarded (depth n : Nat) :
    ∀ position r, Reachable r → resolveFrom (resolveGuarded P depth) n position r =
      resolveFrom (resolveId depth) n position r := by
  induction n with
  | zero => exact fun _ _ _ => rfl
  | succ n ih =>
    intro position r hr
    unfold resolveFrom
    rw [Eval.bind_apply, Eval.bind_apply, Eval.get_apply]
    dsimp only
    split
    · refine (Eval.attempt_bind_congr (resolveGuarded_eq hP depth _ r hr) _).trans ?_
      have hattempt : Advancing (resolveId depth (.ofIndex position)).attempt r :=
        Eval.meets_attempt (resolveId_advancing depth _ hr.indexed) (fun _ _ h => h)
          (fun _ _ h => h) fun _ _ h => h
      refine Eval.bind_congr hattempt fun result s hs => ?_
      exact Eval.bind_congr_left (ih (position + 1) s (hr.changes hs.steps)) _
    · rfl

theorem constantGuarded_eq (depth : Nat) (c : ClassId) (name : String) (hr : r.Reachable) :
    constantGuarded P depth c name r = constant depth c name r := by
  refine Eval.bind_congr (Eval.meets_ask (E := fun _ _ => True) (D := True)
    (Q := fun found s => r = s ∧ r.registration? c = some found)
    (fun found hf => ⟨rfl, registration_eq_ok_iff.mp hf⟩) fun _ _ => trivial) ?_
  rintro found _ ⟨rfl, hf⟩
  have hfetch := fetchGuarded_eq hP (forceGuarded_eq hP depth) hr (issued_iff.mpr ⟨found, hf⟩)
    .self name
  cases found.standing with
  | failed e => rfl
  | unresolved => exact hfetch
  | resolved links => exact hfetch

theorem staticsGuarded_eq (c : ClassId) (hr : r.Reachable) :
    staticsGuarded P c r = statics c r := by
  refine Eval.bind_congr (Eval.meets_ask (E := fun _ _ => True) (D := True)
    (Q := fun links s => r = s ∧ r.Resolved c links)
    (fun _ hl => ⟨rfl, links_eq_ok_iff.mp hl⟩) fun _ _ => trivial) ?_
  rintro links _ ⟨rfl, hl⟩
  refine Eval.bind_congr (Eval.meets_ask (E := fun _ _ => True) (D := True)
    (Q := fun found s => r = s ∧ r.registration? c = some found)
    (fun found hf => ⟨rfl, registration_eq_ok_iff.mp hf⟩) fun _ _ => trivial) ?_
  rintro found _ ⟨rfl, hf⟩
  cases hs : found.statics with
  | some table => rfl
  | none => exact changeAt_bind_of_change hP hr (.of_standing? hl) (.seeded hl hf hs) _

theorem assignGuarded_eq (c : ClassId) (f : StaticTable → StaticTable) (answer : StaticTable → α)
    (hr : r.Reachable) :
    assignGuarded P c f answer r =
      (do
        let table ← statics c
        .modify (setStatics c (f table))
        pure (answer table) : Eval Registry α) r := by
  refine (Eval.bind_congr_left (staticsGuarded_eq hP c hr) _).trans ?_
  refine Eval.bind_congr (statics_meets c r) ?_
  rintro table s ⟨hs, found, hf, htable⟩
  exact changeAt_bind_of_change hP (hr.changes hs.steps) (issued_iff.mpr ⟨found, hf⟩)
    (.assigned hf htable (f table)) _

/-- If every reachable registry is as demanded, nothing is ever stopped. -/
theorem performGuarded_eq (depth : Nat) (op : Operation) (hr : r.Reachable) :
    performGuarded P depth op r = perform depth op r := by
  have hnumbered : ∀ {x : Eval Registry ClassId}, Advancing x r →
      (do
        let id ← between P x
        resolveGuarded P depth id
        return .id id : Eval Registry Answer) r =
      (do
        let id ← x
        resolveId depth id
        return .id id : Eval Registry Answer) r := by
    intro x hx
    refine (Eval.bind_congr_left (between_eq_of_advancing hP hr rfl hx) _).trans ?_
    exact Eval.bind_congr hx fun id s hs =>
      Eval.bind_congr_left (resolveGuarded_eq hP depth id s (hr.changes hs.steps)) _
  refine between_eq_of_advancing hP hr ?_ (perform_advances depth op hr.indexed)
  cases op with
  | declare d =>
    refine (hnumbered (register_advancing d)).trans ?_
    simp only [perform, declare, bind_assoc, pure_bind]
  | resolve name =>
    refine (hnumbered (lookup_advancing name hr.indexed)).trans ?_
    simp only [perform, resolve, bind_assoc, pure_bind]
  | resolveId id => exact Eval.bind_congr_left (resolveGuarded_eq hP depth id r hr) _
  | resolveAll => exact Eval.bind_congr_left (resolveFrom_guarded hP depth depth 0 r hr) _
  | constant id name => exact Eval.bind_congr_left (constantGuarded_eq hP depth id name hr) _
  | statics id => exact Eval.bind_congr_left (staticsGuarded_eq hP id hr) _
  | setStatic id name value => exact Eval.bind_congr_left (assignGuarded_eq hP id _ _ hr) _
  | replaceStatics id table => exact Eval.bind_congr_left (assignGuarded_eq hP id _ _ hr) _
  | staticProperty id name =>
    simp only [perform, staticProperty, bind_assoc]
    refine Eval.bind_congr (staticOwner_advancing name depth id r) fun owner s hs => ?_
    cases owner with
    | none => rfl
    | some owner =>
      rw [Eval.bind_assoc_apply]
      exact Eval.bind_congr_left (staticsGuarded_eq hP owner (hr.changes hs.steps)) _
  | setStaticProperty id name value =>
    simp only [perform, setStaticProperty, bind_assoc]
    refine Eval.bind_congr (staticOwner_advancing name depth id r) fun owner s hs => ?_
    cases owner with
    | none => rfl
    | some owner =>
      exact Eval.bind_congr_left (assignGuarded_eq hP owner _ _ (hr.changes hs.steps)) _
  | _ => rfl

end Reachable

end Registry
end Lineage
