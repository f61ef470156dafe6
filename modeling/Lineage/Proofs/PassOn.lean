/-
What a computation keeps, and how it fails.

`PassesOn P F` says that a property of registries survives success, and that a failure is
as described, where the description may speak of the registry that is left behind.  The
recursions through lookups, values and classes are gone through once, here.
`ValuePassing` lists what they ask of the single changes and errors as long as nothing is
resolved, and `Passing` adds those of linking.

A property may survive failures as well; `Steady` is about those.  Or it may be lost for
good: an expression cannot catch the error of a fetch as the program of an embedding can,
and evaluation and linking tidy up after a failure and fail with the same error.
-/
import Lineage.Proofs.Locate

namespace Lineage
namespace Registry

variable {α β : Type} {P : Registry → Prop} {F : Fault → Registry → Prop} {id : ClassId}

/-- The property survives success, and a failure is as described. -/
def PassesOn (P : Registry → Prop) (F : Fault → Registry → Prop) (x : Eval Registry α) : Prop :=
  ∀ r, P r → (x r).Meets (fun _ => P) F True

namespace PassesOn

variable {x : Eval Registry α}

theorem pure (a : α) : PassesOn P F (pure a) := fun _ hr => hr

theorem get : PassesOn P F Eval.get := fun _ hr => hr

theorem modify {f : Registry → Registry} (h : ∀ r, P r → P (f r)) : PassesOn P F (.modify f) := h

theorem raise {e : Error} (h : ∀ r, P r → F (.raised e) r) :
    PassesOn P F (Eval.raise e : Eval Registry α) := h

theorem ask {question : Registry → Except Fault α}
    (h : ∀ r f, P r → question r = .error f → F f r) : PassesOn P F (.ask question) :=
  fun r hr => Eval.meets_ask (fun _ _ => hr) fun f hf => h r f hr hf

theorem ofExcept {result : Except Error α}
    (h : ∀ e, result = .error e → ∀ r, P r → F (.raised e) r) :
    PassesOn P F (.ofExcept result) := by
  cases result with
  | ok a => exact .pure a
  | error e => exact .raise (h e rfl)

theorem bind {f : α → Eval Registry β} (hx : PassesOn P F x) (hf : ∀ a, PassesOn P F (f a)) :
    PassesOn P F (x >>= f) :=
  fun r hr => Eval.meets_bind (hx r hr) fun a s hs => hf a s hs

theorem forEach {f : α → Eval Registry Unit} (hf : ∀ a, PassesOn P F (f a)) (list : List α) :
    PassesOn P F (.forEach f list) := by
  induction list with
  | nil => exact .pure ()
  | cons a rest ih => exact (hf a).bind fun _ => ih

/-- What follows an attempt has to deal with the error itself. -/
theorem attempt_bind {final : Except Error α → Eval Registry β} (hx : PassesOn P F x)
    (hok : ∀ a, PassesOn P F (final (.ok a)))
    (herror : ∀ e s, F (.raised e) s → (final (.error e) s).Meets (fun _ => P) F True) :
    PassesOn P F (x.attempt >>= final) := by
  intro r hr
  have hrun := hx r hr
  rw [Eval.bind_apply, Eval.attempt]
  cases hx' : x r with
  | value a s =>
    rw [hx'] at hrun
    exact hok a s hrun
  | failure f s =>
    rw [hx'] at hrun
    cases f with
    | raised e => exact herror e s hrun
    | unissued i => exact hrun
  | tooDeep => trivial

theorem registration_bind {f : Registration → Eval Registry α}
    (hunissued : ∀ i r, P r → F (.unissued i) r)
    (hf : ∀ r found, P r → r.registration? id = some found →
      (f found r).Meets (fun _ => P) F True) :
    PassesOn P F (.ask (·.registration id) >>= f) := by
  intro r hr
  rw [Eval.bind_apply, Eval.ask, Registry.registration]
  cases hfound : r.registration? id with
  | some found => exact hf r found hr hfound
  | none => exact hunissued _ r hr

theorem decl (hunissued : ∀ i r, P r → F (.unissued i) r) (id : ClassId) :
    PassesOn P F (.ask (·.decl id)) := by
  refine .ask fun r f hr hf => ?_
  unfold Registry.decl Registry.registration at hf
  split at hf <;> cases hf
  exact hunissued _ r hr

/-- A member is read as it stands, and only a value that is still to be computed
calls for a computation. -/
theorem read {l : Option Lazy} {compute : Initializer → Eval Registry Value}
    (h : ∀ source, l = some (.pending source) → PassesOn P F (compute source)) :
    PassesOn P F
      (match l with
      | none => Pure.pure .null
      | some (.settled value) => Pure.pure value
      | some (.pending source) => compute source) := by
  cases l with
  | none => exact .pure _
  | some l =>
    cases l with
    | settled v => exact .pure v
    | pending source => exact h source rfl

/-- An expression catches nothing. -/
theorem evaluate {scope : Scope Registry}
    (hfetch : ∀ qualifier name, PassesOn P F (scope.fetch qualifier name))
    (hfails : ∀ e r, P r → F (.raised e) r) (x : Expr) : PassesOn P F (x.evaluate scope) := by
  induction x with
  | literal value => exact .pure value
  | constant qualifier name => exact hfetch qualifier name
  | binary op left right ihl ihr =>
    exact ihl.bind fun a => ihr.bind fun b => .ofExcept fun e _ => hfails e
  | negate operand ih => exact ih.bind fun a => .ofExcept fun e _ => hfails e

end PassesOn

/-! ## Looking up names and computing values -/

/-- What looking up names and computing values do keeps the property, and what they do
after a failure keeps its description.  The failures that they have of their own are as
described, and so is what a source makes of its fetches. -/
structure ValuePassing (P : Registry → Prop) (F : Fault → Registry → Prop) : Prop where
  lookup : ∀ name, PassesOn P F (Registry.lookup name)
  unissued : ∀ i r, P r → F (.unissued i) r
  noParentScope : ∀ name r, P r → F (.raised (.noParentScope name)) r
  undefinedConstant : ∀ className name r, P r → F (.raised (.undefinedConstant className name)) r
  circularConstant : ∀ className name r, P r → F (.raised (.circularConstant className name)) r
  /-- Errors of failed classes are raised again. -/
  failed : ∀ r id e, P r → r.standing? id = some (.failed e) → F (.raised e) r
  source : ∀ r site source scope, P r → r.lazy? site = some (.pending source) →
    scope.note = Registry.note → (∀ qualifier name, PassesOn P F (scope.fetch qualifier name)) →
    PassesOn P F (source.evaluate scope)
  began : ∀ site r, P r → P (r.beginEvaluation site)
  computed : ∀ site v r, P r → P (r.endEvaluation site (.ok v))
  gaveUp : ∀ site e r, F (.raised e) r → F (.raised e) (r.endEvaluation site (.error e))

namespace ValuePassing

variable (h : ValuePassing P F)
include h

theorem decl (id : ClassId) : PassesOn P F (.ask (·.decl id)) :=
  .decl h.unissued id

theorem searchReferences
    {search : ClassId → List ClassId → Eval Registry (Option ClassId × List ClassId)}
    (hsearch : ∀ id visited, PassesOn P F (search id visited)) (names : List QualifiedName)
    (visited : List ClassId) : PassesOn P F (searchReferences search names visited) := by
  induction names generalizing visited with
  | nil => exact .pure _
  | cons name rest ih =>
    refine (h.lookup name).bind fun id => (hsearch id visited).bind fun ⟨found, visited⟩ => ?_
    cases found with
    | some owner => exact .pure _
    | none => exact ih visited

theorem searchConstant (name : String) (depth : Nat) :
    ∀ id visited, PassesOn P F (searchConstant name depth id visited) := by
  induction depth with
  | zero => exact fun _ _ _ _ => trivial
  | succ depth ih =>
    intro id visited
    unfold Registry.searchConstant
    split
    · exact .pure _
    · refine (h.decl id).bind fun d => ?_
      split
      · exact .pure _
      · exact h.searchReferences ih d.references (id :: visited)

theorem target (current : ClassId) (qualifier : Qualifier) :
    PassesOn P F (target current qualifier) := by
  cases qualifier with
  | self => exact .pure _
  | static => exact .pure _
  | parent =>
    refine (h.decl current).bind fun d => ?_
    cases d.parent with
    | none => exact .raise (h.noParentScope _)
    | some name => exact h.lookup name
  | named name => exact h.lookup name

theorem locate (depth : Nat) (current : ClassId) (qualifier : Qualifier) (name : String) :
    PassesOn P F (locate depth current qualifier name) := by
  refine (h.target current qualifier).bind fun id => ?_
  refine (h.searchConstant name depth id []).bind fun ⟨found, visited⟩ => ?_
  cases found with
  | some owner => exact .pure _
  | none => exact (h.decl id).bind fun d => .raise (h.undefinedConstant _ _)

theorem fetchWith {force : LazySite → Eval Registry Value}
    (hforce : ∀ site, PassesOn P F (force site)) (depth : Nat) (current : ClassId)
    (qualifier : Qualifier) (name : String) :
    PassesOn P F (fetchWith force depth current qualifier name) := by
  rw [fetchWith_eq]
  exact (h.locate depth current qualifier name).bind hforce

theorem evaluateSite {scope : Scope Registry} (site : LazySite) (d : ClassDecl)
    {source : Initializer} (hsource : PassesOn P F (source.evaluate scope)) :
    PassesOn P F (evaluateSite scope site d source) := by
  refine PassesOn.get.bind fun r => ?_
  split
  · exact .raise (h.circularConstant _ _)
  · refine (PassesOn.modify (h.began site)).bind fun _ => ?_
    refine hsource.attempt_bind (fun v => ?_) fun e s hF => h.gaveUp site e s hF
    exact (PassesOn.modify (h.computed site v)).bind fun _ => .pure v

theorem force (depth : Nat) : ∀ site, PassesOn P F (force depth site) := by
  induction depth with
  | zero => exact fun _ _ _ => trivial
  | succ depth ih =>
    intro site
    refine .registration_bind h.unissued fun r found hr hf => ?_
    have hcompute : ∀ source, found.decl.lazy? site.member = some (.pending source) →
        PassesOn P F (Registry.evaluateSite
          { fetch := Registry.fetchWith (Registry.force depth) depth site.owner,
            note := Registry.note } site found.decl source) := by
      intro source hm
      refine h.evaluateSite site found.decl (h.source r site source _ hr ?_ rfl ?_)
      · rw [lazy?, decl?, hf]
        exact hm
      · exact h.fetchWith ih depth site.owner
    have hread := PassesOn.read hcompute
    cases hst : found.standing with
    | failed e => exact h.failed r _ e hr (by rw [standing?, hf, ← hst]; rfl)
    | unresolved => exact hread r hr
    | resolved links => exact hread r hr

theorem forceAll (depth : Nat) (id : ClassId) (d : ClassDecl) :
    PassesOn P F (forceAll (Registry.force depth) id d) :=
  .forEach (fun m => (h.force depth ⟨id, m⟩).bind fun _ => .pure ()) d.lazyMembers

theorem constant (depth : Nat) (id : ClassId) (name : String) :
    PassesOn P F (constant depth id name) := by
  refine .registration_bind h.unissued fun r found hr hf => ?_
  have hfetch := h.fetchWith (h.force depth) depth id .self name r hr
  cases hst : found.standing with
  | failed e => exact h.failed r _ e hr (by rw [standing?, hf, ← hst]; rfl)
  | unresolved => exact hfetch
  | resolved links => exact hfetch

end ValuePassing

/-! ## Resolving classes -/

/-- What linking does keeps the property and the description too, and any failure is as
described. -/
structure Passing (P : Registry → Prop) (F : Fault → Registry → Prop) : Prop
    extends ValuePassing P F where
  fails : ∀ f r, P r → F f r
  beganLinking : ∀ id r, P r → P (r.beginLinking id)
  linked : ∀ id links r, P r → P (r.endLinking id (.ok links))
  refused : ∀ id e r, F (.raised e) r → F (.raised e) (r.endLinking id (.error e))

namespace Passing

variable (h : Passing P F)
include h

theorem raise (e : Error) : PassesOn P F (Eval.raise e : Eval Registry α) :=
  .raise (h.fails _)

theorem ask (question : Registry → Except Fault α) : PassesOn P F (.ask question) :=
  .ask fun r f hr _ => h.fails f r hr

theorem reject (className target : String) (violation : Option Violation) :
    PassesOn P F (reject className target violation) := by
  refine PassesOn.get.bind fun r => ?_
  cases violation with
  | none => exact .pure ()
  | some v =>
    dsimp only
    split
    · exact h.raise _
    · exact .pure ()

theorem inheritAll {resolve : ClassId → Eval Registry Unit}
    (hresolve : ∀ p, PassesOn P F (resolve p)) (d : ClassDecl)
    (refs : List (Role × QualifiedName)) (links : Links) :
    PassesOn P F (inheritAll resolve d refs links) := by
  induction refs generalizing links with
  | nil => exact .pure links
  | cons ref rest ih =>
    refine PassesOn.bind (PassesOn.bind (h.lookup ref.2) fun p => ?_) fun found => ih _
    refine (hresolve p).bind fun _ => (h.ask _).bind fun base => ?_
    exact (h.reject _ _ _).bind fun _ => (h.ask _).bind fun _ => .pure _

theorem declareMethods (d : ClassDecl) (entries : List (String × MethodDecl)) (links : Links) :
    PassesOn P F (declareMethods id d entries links) := by
  induction entries generalizing links with
  | nil => exact .pure links
  | cons entry rest ih =>
    unfold Registry.declareMethods
    cases links.methods.get? entry.1 with
    | none => exact ih _
    | some m => exact (h.reject _ _ _).bind fun _ => ih _

theorem link {resolve : ClassId → Eval Registry Unit}
    (hresolve : ∀ p, PassesOn P F (resolve p)) (depth : Nat) (id : ClassId) :
    PassesOn P F (link resolve (Registry.force depth) id) := by
  rw [link_eq]
  refine (h.ask _).bind fun d => (h.inheritAll hresolve d _ _).bind fun links => ?_
  refine (h.declareMethods d _ links).bind fun links => (h.forceAll depth id d).bind fun _ => ?_
  exact PassesOn.get.bind fun _ => .pure _

theorem resolveId (depth : Nat) : ∀ id, PassesOn P F (resolveId depth id) := by
  induction depth with
  | zero => exact fun _ _ _ => trivial
  | succ depth ih =>
    intro id
    refine (h.ask _).bind fun found => ?_
    cases found.standing with
    | resolved links => exact .pure ()
    | failed e => exact h.raise e
    | unresolved =>
      refine PassesOn.get.bind fun r => ?_
      cases r.cycle? id with
      | some e => exact h.raise e
      | none =>
        refine (PassesOn.modify (h.beganLinking id)).bind fun _ => ?_
        refine (h.link ih depth id).attempt_bind (fun links => ?_) fun e s hF =>
          h.refused id e s hF
        exact (PassesOn.modify (h.linked id links)).bind fun _ => .pure ()

end Passing
end Registry
end Lineage
