/-
What is being linked and what is in progress, before and after.

A class is put on the stack while it is linked, and a value is in progress while it is
evaluated.  There are many ways out of either, but each takes off what was put on:
`Balanced` says that a computation which returns, with a value or with an error, leaves
both as they were, whatever the registry was like.  The evaluation that finds its value
already in progress puts nothing on and takes nothing off.

Values in progress are kept in the registry, where a leak would show as a circle that is
not there.  `forceWithin` has no use for what is kept: it is handed the evaluations that
it is part of.  As everything is balanced the two are the same (`forceWithin_eq`),
so what went wrong earlier in an evaluation never counts as in progress later.  The
theorem of this file is `trackers_balanced`.
-/
import Lineage.Proofs.Change
import Lineage.Proofs.PassOn

namespace Lineage

/-- A program evaluates alike in two scopes if fetches do, in all states that the evaluation
gets into. -/
theorem Program.evaluate_congr {σ : Type} {scope scope' : Scope σ} {I : σ → Prop}
    (hfetch : ∀ q name s, I s → scope'.fetch q name s = scope.fetch q name s)
    (hkeep : ∀ q name s, I s → (scope.fetch q name s).Meets (fun _ => I)
      (fun f t => ∀ e, f = .raised e → I t) True)
    (hnote : scope'.note = scope.note) (hnoted : ∀ label s, I s → I (scope.note label s))
    (p : Program) {s : σ} (hs : I s) : p.evaluate scope' s = p.evaluate scope s := by
  induction p generalizing s with
  | done result => rfl
  | fetch q name next ih =>
    have hkept : ((scope.fetch q name).attempt s).Meets (fun _ => I) (fun _ _ => True) True :=
      Eval.meets_attempt (hkeep q name s hs) (fun _ _ h => h) (fun e _ h => h e rfl)
        fun _ _ _ => trivial
    refine (Eval.attempt_bind_congr (hfetch q name s hs) _).trans ?_
    exact Eval.bind_congr hkept fun answer t ht => ih answer ht
  | note label next ih =>
    show next.evaluate scope' (scope'.note label s) = _
    rw [hnote]
    exact ih (hnoted label s hs)

namespace Registry

variable {α β : Type} {x : Eval Registry α} {r s : Registry} {site : LazySite}

/-! ## Computations that leave the trackers alone -/

/-- The classes being linked and the values in progress. -/
def trackers (r : Registry) : List ClassId × List LazySite :=
  (r.resolving, r.evaluating)

/-- Whether the computation ends with a value or with an error, the trackers are what they
were.  At a number that was not issued it ends for good, and nothing is said. -/
def Balanced (x : Eval Registry α) : Prop :=
  ∀ r, (x r).Meets (fun _ s => s.trackers = r.trackers)
    (fun f s => ∀ e, f = .raised e → s.trackers = r.trackers) True

theorem balanced_iff :
    Balanced x ↔ ∀ before, PassesOn (fun r => r.trackers = before)
      (fun f r => ∀ e, f = .raised e → r.trackers = before) x := by
  refine ⟨?_, fun h r => h _ r rfl⟩
  rintro h _ r rfl
  exact h r

namespace Balanced

theorem pure (a : α) : Balanced (pure a) := fun _ => rfl

theorem get : Balanced Eval.get := fun _ => rfl

theorem raise (e : Error) : Balanced (Eval.raise e : Eval Registry α) := fun _ _ _ => rfl

theorem tooDeep : Balanced (Eval.tooDeep : Eval Registry α) := fun _ => trivial

theorem modify {f : Registry → Registry} (h : ∀ r, (f r).trackers = r.trackers) :
    Balanced (.modify f) := h

theorem ask (question : Registry → Except Fault α) : Balanced (.ask question) :=
  balanced_iff.mpr fun _ => .ask fun _ _ hr _ _ _ => hr

theorem ofExcept (result : Except Error α) : Balanced (.ofExcept result) :=
  balanced_iff.mpr fun _ => .ofExcept fun _ _ _ hr _ _ => hr

theorem bind {f : α → Eval Registry β} (hx : Balanced x) (hf : ∀ a, Balanced (f a)) :
    Balanced (x >>= f) :=
  balanced_iff.mpr fun before =>
    (balanced_iff.mp hx before).bind fun a => balanced_iff.mp (hf a) before

theorem forEach {f : α → Eval Registry Unit} (hf : ∀ a, Balanced (f a)) (list : List α) :
    Balanced (.forEach f list) :=
  balanced_iff.mpr fun before => .forEach (fun a => balanced_iff.mp (hf a) before) list

theorem attempt (hx : Balanced x) : Balanced x.attempt := fun r =>
  Eval.meets_attempt (hx r) (fun _ _ h => h) (fun e _ h => h e rfl) fun _ _ _ _ he => by cases he

/-- What is put on before an attempt and taken off after it leaves no trace, whether the
attempt succeeds or not. -/
theorem bracket {enter : Registry → Registry} {exit : Except Error α → Registry → Registry}
    {f : Except Error α → Eval Registry β} (hx : Balanced x) (hf : ∀ result, Balanced (f result))
    (h : ∀ result s, s.trackers = (enter r).trackers → (exit result s).trackers = r.trackers) :
    ((do
      .modify enter
      let result ← x.attempt
      .modify (exit result)
      f result : Eval Registry β) r).Meets (fun _ s => s.trackers = r.trackers)
        (fun f s => ∀ e, f = .raised e → s.trackers = r.trackers) True := by
  refine Eval.meets_bind (Eval.meets_modify (Q := fun _ s => enter r = s) rfl) ?_
  rintro _ _ rfl
  refine Eval.meets_bind (Eval.meets_attempt (R := fun _ s => s.trackers = (enter r).trackers)
    (hx (enter r)) (fun _ _ h => h) (fun e _ h => h e rfl) fun _ _ _ _ he => by cases he) ?_
  intro result s hs
  refine Eval.meets_bind
    (Eval.meets_modify (Q := fun _ t => t.trackers = r.trackers) (h result s hs)) ?_
  intro _ t ht
  rw [← ht]
  exact hf result t

end Balanced

/-! ## Looking up names and computing values -/

theorem trackers_autoload (name : QualifiedName) (r : Registry) :
    (r.autoload name).trackers = r.trackers := by
  unfold autoload
  split
  · rfl
  · dsimp only
    split
    · unfold registerIfFree
      split <;> rfl
    · rfl

theorem balanced_lookup (name : QualifiedName) : Balanced (lookup name) := by
  intro r
  unfold lookup
  split
  · rfl
  · dsimp only
    split
    · exact trackers_autoload name r
    · exact fun _ _ => trackers_autoload name r

theorem balanced_searchReferences
    {search : ClassId → List ClassId → Eval Registry (Option ClassId × List ClassId)}
    (hsearch : ∀ id visited, Balanced (search id visited)) (names : List QualifiedName)
    (visited : List ClassId) : Balanced (searchReferences search names visited) := by
  induction names generalizing visited with
  | nil => exact .pure _
  | cons name rest ih =>
    refine (balanced_lookup name).bind fun id => (hsearch id visited).bind fun found => ?_
    obtain ⟨owner?, between⟩ := found
    cases owner? with
    | some owner => exact .pure _
    | none => exact ih between

theorem balanced_searchConstant (name : String) (depth : Nat) :
    ∀ id visited, Balanced (searchConstant name depth id visited) := by
  induction depth with
  | zero => exact fun _ _ => .tooDeep
  | succ depth ih =>
    intro id visited
    unfold searchConstant
    split
    · exact .pure _
    · refine (Balanced.ask _).bind fun d => ?_
      split
      · exact .pure _
      · exact balanced_searchReferences ih d.references (id :: visited)

theorem balanced_target (current : ClassId) (q : Qualifier) : Balanced (target current q) := by
  cases q with
  | self => exact .pure _
  | static => exact .pure _
  | parent =>
    refine (Balanced.ask _).bind fun d => ?_
    cases d.parent with
    | none => exact .raise _
    | some name => exact balanced_lookup name
  | named name => exact balanced_lookup name

theorem balanced_locate (depth : Nat) (current : ClassId) (q : Qualifier) (name : String) :
    Balanced (locate depth current q name) := by
  refine (balanced_target current q).bind fun id => ?_
  refine (balanced_searchConstant name depth id []).bind fun found => ?_
  obtain ⟨owner?, visited⟩ := found
  cases owner? with
  | some owner => exact .pure _
  | none => exact (Balanced.ask _).bind fun d => .raise _

theorem balanced_fetchWith {force : LazySite → Eval Registry Value}
    (hforce : ∀ site, Balanced (force site)) (depth : Nat) (current : ClassId) (q : Qualifier)
    (name : String) : Balanced (fetchWith force depth current q name) := by
  rw [fetchWith_eq]
  exact (balanced_locate depth current q name).bind hforce

/-- A program goes on after a failed fetch as well as after any other. -/
theorem Program.balanced_evaluate {scope : Scope Registry}
    (hfetch : ∀ q name, Balanced (scope.fetch q name)) (hnote : scope.note = note) (p : Program) :
    Balanced (p.evaluate scope) := by
  induction p with
  | done result => exact .ofExcept result
  | fetch q name next ih => exact (hfetch q name).attempt.bind fun answer => ih answer
  | note label next ih =>
    refine (Balanced.modify fun r => ?_).bind fun _ => ih
    rw [hnote]
    rfl

theorem trackers_endEvaluation (site : LazySite) (result : Except Error Value) (r : Registry) :
    (r.endEvaluation site result).trackers = (r.resolving, r.evaluating.erase site) := by
  cases result <;> rfl

/-- The site that is taken off is the innermost one again. -/
theorem balanced_evaluateSite {scope : Scope Registry} {source : Initializer}
    (hsource : Balanced (source.evaluate scope)) (site : LazySite) (d : ClassDecl) :
    Balanced (evaluateSite scope site d source) := by
  intro r
  refine Eval.meets_bind (Eval.meets_get (Q := fun a s => r = a ∧ r = s) ⟨rfl, rfl⟩) ?_
  rintro _ _ ⟨rfl, rfl⟩
  split
  · exact Balanced.raise _ r
  · refine hsource.bracket (fun result => .ofExcept result) fun result s hs => ?_
    obtain ⟨hresolving, hevaluating⟩ := Prod.mk.inj hs
    rw [trackers_endEvaluation, hresolving, hevaluating]
    exact congrArg (Prod.mk r.resolving) (List.erase_cons_head site r.evaluating)

/-! ## The value at a site -/

/-- The value at a site, which the given computation yields if it is pending. -/
def readOr (evaluate : ClassDecl → Initializer → Eval Registry Value) (site : LazySite) :
    Eval Registry Value := do
  let owner ← .ask (·.registration site.owner)
  match owner.standing with
  | .failed e => .raise e
  | _ =>
    match owner.decl.lazy? site.member with
    | none => pure .null
    | some (.settled value) => pure value
    | some (.pending source) => evaluate owner.decl source

/-- The scope of sources that a class declares. -/
def scopeOf (depth : Nat) (current : ClassId) : Scope Registry :=
  { fetch := fetch depth current, note := note }

theorem force_eq_readOr (depth : Nat) (site : LazySite) :
    force (depth + 1) site = readOr (evaluateSite (scopeOf depth site.owner) site) site := rfl

theorem balanced_readOr {evaluate : ClassDecl → Initializer → Eval Registry Value}
    (h : ∀ d source, Balanced (evaluate d source)) (site : LazySite) :
    Balanced (readOr evaluate site) := by
  refine (Balanced.ask _).bind fun owner => ?_
  have hread : Balanced
      (match owner.decl.lazy? site.member with
      | none => pure .null
      | some (.settled value) => pure value
      | some (.pending source) => evaluate owner.decl source) :=
    balanced_iff.mpr fun before => .read fun source _ =>
      balanced_iff.mp (h owner.decl source) before
  cases owner.standing with
  | failed e => exact .raise e
  | unresolved => exact hread
  | resolved links => exact hread

theorem balanced_force (depth : Nat) : ∀ site, Balanced (force depth site) := by
  induction depth with
  | zero => exact fun _ => .tooDeep
  | succ depth ih =>
    intro site
    rw [force_eq_readOr]
    refine balanced_readOr (fun d source => balanced_evaluateSite ?_ site d) site
    intro r
    rw [Initializer.evaluate_eq]
    exact Program.balanced_evaluate (balanced_fetchWith ih depth site.owner) rfl _ r

theorem balanced_fetch (depth : Nat) (current : ClassId) (q : Qualifier) (name : String) :
    Balanced (fetch depth current q name) :=
  balanced_fetchWith (balanced_force depth) depth current q name

/-! ## Resolving classes -/

theorem balanced_reject (className target : String) (violation : Option Violation) :
    Balanced (reject className target violation) := by
  refine Balanced.get.bind fun r => ?_
  cases violation with
  | none => exact .pure ()
  | some v =>
    dsimp only
    split
    · exact .raise _
    · exact .pure ()

theorem balanced_inheritAll {resolve : ClassId → Eval Registry Unit}
    (hresolve : ∀ p, Balanced (resolve p)) (d : ClassDecl) (refs : List (Role × QualifiedName))
    (links : Links) : Balanced (inheritAll resolve d refs links) := by
  induction refs generalizing links with
  | nil => exact .pure links
  | cons ref rest ih =>
    refine Balanced.bind ((balanced_lookup ref.2).bind fun p => ?_) fun found => ih _
    refine (hresolve p).bind fun _ => (Balanced.ask _).bind fun base => ?_
    exact (balanced_reject _ _ _).bind fun _ => (Balanced.ask _).bind fun _ => .pure _

theorem balanced_declareMethods (id : ClassId) (d : ClassDecl)
    (entries : List (String × MethodDecl)) (links : Links) :
    Balanced (declareMethods id d entries links) := by
  induction entries generalizing links with
  | nil => exact .pure links
  | cons entry rest ih =>
    unfold declareMethods
    cases links.methods.get? entry.1 with
    | none => exact ih _
    | some m => exact (balanced_reject _ _ _).bind fun _ => ih _

theorem balanced_link {resolve : ClassId → Eval Registry Unit}
    {force : LazySite → Eval Registry Value} (hresolve : ∀ p, Balanced (resolve p))
    (hforce : ∀ site, Balanced (force site)) (id : ClassId) :
    Balanced (link resolve force id) := by
  rw [link_eq]
  refine (Balanced.ask _).bind fun d => ?_
  refine (balanced_inheritAll hresolve d d.inheritances _).bind fun links => ?_
  refine (balanced_declareMethods id d d.methods.entries links).bind fun links => ?_
  have hvalues : Balanced (forceAll force id d) :=
    .forEach (fun m => (hforce ⟨id, m⟩).bind fun _ => .pure ()) d.lazyMembers
  exact hvalues.bind fun _ => Balanced.get.bind fun _ => .pure _

theorem trackers_endLinking (id : ClassId) (result : Except Error Links) (r : Registry) :
    (r.endLinking id result).trackers = (r.resolving.tail, r.evaluating) := by
  rw [trackers, resolving_endLinking, evaluating_endLinking]

/-- The class that is taken off the stack is the one that was put on. -/
theorem balanced_resolveId (depth : Nat) : ∀ id, Balanced (resolveId depth id) := by
  induction depth with
  | zero => exact fun _ => .tooDeep
  | succ depth ih =>
    intro id
    refine (Balanced.ask _).bind fun found => ?_
    cases found.standing with
    | resolved links => exact .pure ()
    | failed e => exact .raise e
    | unresolved =>
      intro r
      refine Eval.meets_bind (Eval.meets_get (Q := fun a s => r = a ∧ r = s) ⟨rfl, rfl⟩) ?_
      rintro _ _ ⟨rfl, rfl⟩
      cases r.cycle? id with
      | some e => exact Balanced.raise e r
      | none =>
        refine (balanced_link ih (balanced_force depth) id).bracket
          (fun result => .ofExcept (result.map fun _ => ())) fun result s hs => ?_
        obtain ⟨hresolving, hevaluating⟩ := Prod.mk.inj hs
        rw [trackers_endLinking, hresolving, hevaluating]
        rfl

/-! ## Evaluations that a value is part of -/

/-- Evaluate the source of a site, where a list says what is in progress. -/
def evaluateWithin (around : List LazySite) (scope : Scope Registry) (site : LazySite)
    (owner : ClassDecl) (source : Initializer) : Eval Registry Value :=
  if around.contains site then
    .raise (.circularConstant owner.name.text (site.member.label owner))
  else do
    .modify (beginEvaluation site)
    let result ← (source.evaluate scope).attempt
    .modify (endEvaluation site result)
    .ofExcept result

/-- The value at a site, where each evaluation is handed those that it is part of, and
looks nowhere else for a circle. -/
def forceWithin : Nat → List LazySite → LazySite → Eval Registry Value
  | 0, _ => fun _ => .tooDeep
  | depth + 1, around => fun site =>
    let scope : Scope Registry :=
      { fetch := fetchWith (forceWithin depth (site :: around)) depth site.owner, note := note }
    readOr (evaluateWithin around scope site) site

/-- The scope of sources that a class declares, inside the given evaluations. -/
def scopeWithin (depth : Nat) (around : List LazySite) (current : ClassId) : Scope Registry :=
  { fetch := fetchWith (forceWithin depth around) depth current, note := note }

theorem forceWithin_succ (depth : Nat) (around : List LazySite) (site : LazySite) :
    forceWithin (depth + 1) around site =
      readOr (evaluateWithin around (scopeWithin depth (site :: around) site.owner) site) site :=
  rfl

/-- Only what evaluates a pending value can make a difference, and of a class that failed
no value is evaluated. -/
theorem readOr_congr {evaluate evaluate' : ClassDecl → Initializer → Eval Registry Value}
    (h : ∀ d source, (∀ e, r.standing? site.owner ≠ some (.failed e)) →
      r.decl? site.owner = some d → d.lazy? site.member = some (.pending source) →
      evaluate' d source r = evaluate d source r) :
    readOr evaluate' site r = readOr evaluate site r := by
  refine Eval.bind_congr (Eval.meets_ask (E := fun _ _ => True) (D := True)
    (Q := fun found s => r = s ∧ r.registration? site.owner = some found)
    (fun found hf => ⟨rfl, registration_eq_ok_iff.mp hf⟩) fun _ _ => trivial) ?_
  rintro found _ ⟨rfl, hf⟩
  have hd : r.decl? site.owner = some found.decl := by rw [decl?, hf]; rfl
  have hread : (∀ e, found.standing ≠ .failed e) →
      (match found.decl.lazy? site.member with
        | none => pure .null
        | some (.settled value) => pure value
        | some (.pending source) => evaluate' found.decl source : Eval Registry Value) r =
      (match found.decl.lazy? site.member with
        | none => pure .null
        | some (.settled value) => pure value
        | some (.pending source) => evaluate found.decl source : Eval Registry Value) r := by
    intro husable
    have husable : ∀ e, r.standing? site.owner ≠ some (.failed e) := fun e he => by
      rw [standing?, hf] at he
      exact husable e (Option.some.inj he)
    cases hm : found.decl.lazy? site.member with
    | none => rfl
    | some l =>
      cases l with
      | settled v => rfl
      | pending source => exact h found.decl source husable hd hm
  cases hst : found.standing with
  | failed e => rfl
  | unresolved => exact hread fun e he => by rw [hst] at he; cases he
  | resolved links => exact hread fun e he => by rw [hst] at he; cases he

/-- Two ways to take a value are the same to a fetch if they are wherever it finds one. -/
theorem fetchWith_congr {force force' : LazySite → Eval Registry Value} {depth : Nat}
    {current : ClassId} {q : Qualifier} {name : String} {Q : LazySite → Registry → Prop}
    {E : Fault → Registry → Prop} {D : Prop}
    (hlocate : (locate depth current q name r).Meets Q E D)
    (h : ∀ site s, Q site s → force' site s = force site s) :
    fetchWith force' depth current q name r = fetchWith force depth current q name r := by
  rw [fetchWith_eq, fetchWith_eq]
  exact Eval.bind_congr hlocate h

theorem evaluate_within {depth : Nat}
    (hforce : ∀ site r, forceWithin depth r.evaluating site r = force depth site r)
    (current : ClassId) (p : Program) (r : Registry) :
    p.evaluate (scopeWithin depth r.evaluating current) r =
      p.evaluate (scopeOf depth current) r := by
  refine Program.evaluate_congr (I := fun s : Registry => s.evaluating = r.evaluating)
    (fun q name s hs => ?_) (fun q name s hs => ?_) ?_ (fun _ _ hs => ?_) p rfl
  · refine fetchWith_congr (balanced_locate depth current q name s) fun site t ht => ?_
    rw [← hs, ← (Prod.mk.inj ht).2]
    exact hforce site t
  · refine (balanced_fetch depth current q name s).imp ?_ ?_ id
    · exact fun _ t ht => (Prod.mk.inj ht).2.trans hs
    · exact fun f t ht e he => (Prod.mk.inj (ht e he)).2.trans hs
  · rfl
  · exact hs

/-- The values in progress are those that the evaluation is part of. -/
theorem forceWithin_eq (depth : Nat) :
    ∀ site r, forceWithin depth r.evaluating site r = force depth site r := by
  induction depth with
  | zero => exact fun _ _ => rfl
  | succ depth ih =>
    intro site r
    rw [force_eq_readOr, forceWithin_succ]
    refine readOr_congr fun d source _ _ _ => ?_
    show _ = (if r.evaluating.contains site then _ else _ : Eval Registry Value) r
    unfold evaluateWithin
    split
    · rfl
    · refine Eval.attempt_bind_congr ?_ _
      rw [Initializer.evaluate_eq, Initializer.evaluate_eq]
      exact evaluate_within ih site.owner source.toProgram (r.beginEvaluation site)

/-! ## Balanced trackers -/

/-- Resolution, evaluation and fetches leave what is being linked and what is in progress
as it was, so that between operations there is nothing.  A circle is reported only inside
the evaluation that it leads back to: an evaluation that goes on after a failure does so
as part of the same evaluations as before, whatever failed. -/
theorem trackers_balanced :
    (∀ depth id, Balanced (resolveId depth id)) ∧ (∀ depth site, Balanced (force depth site)) ∧
      (∀ depth current q name, Balanced (fetch depth current q name)) ∧
      (∀ config ops r, Run (new config) ops r → r.resolving = [] ∧ r.evaluating = []) ∧
      (∀ depth site r, force depth site r = forceWithin depth r.evaluating site r) ∧
      ∀ depth current (first : Program) next r e s,
        first.evaluate (scopeOf depth current) r = .failure (.raised e) s →
          s.trackers = r.trackers ∧
          (first.andThen next).evaluate (scopeOf depth current) r =
            (next (.error e)).evaluate (scopeWithin depth r.evaluating current) s := by
  refine ⟨balanced_resolveId, balanced_force, balanced_fetch, fun _ _ _ h => h.idle.2,
    fun depth site r => (forceWithin_eq depth site r).symm, ?_⟩
  intro depth current first next r e s hfailed
  have hbalanced : Balanced (first.evaluate (scopeOf depth current)) :=
    Program.balanced_evaluate (balanced_fetch depth current) rfl first
  have hs : s.trackers = r.trackers := by
    have hrun := hbalanced r
    rw [hfailed] at hrun
    exact hrun e rfl
  refine ⟨hs, ?_⟩
  rw [Program.evaluate_andThen, Eval.bind_apply, Eval.attempt, hfailed, ← (Prod.mk.inj hs).2]
  exact (evaluate_within (forceWithin_eq depth) current (next (.error e)) s).symm

/-- `Y` cannot be computed, as a class is missing.  `X` asks for it twice, and the second
failure is the same as the first one. -/
theorem trackers_balanced_second_try :
    let first : Program := .fetch .self "Y" .done
    let decl : ClassDecl :=
      .addConstant { name := "X", value := .pending (.program (first.orElse first)) }
        (.addConstant { name := "Y", value := .pending (.expr (.constant (.named ⟨"M"⟩) "Z")) }
          { name := ⟨"A"⟩ })
    let site : LazySite := ⟨⟨0⟩, .constant "X"⟩
    ∃ r s, Run (new {}) [.register decl] r ∧ r.evaluating = [] ∧
      first.evaluate (scopeOf 3 ⟨0⟩) (r.beginEvaluation site) =
        .failure (.raised (.classNotFound "M")) s ∧
      s.trackers = ([], [site]) ∧
      (first.orElse first).evaluate (scopeOf 3 ⟨0⟩) (r.beginEvaluation site) =
        first.evaluate (scopeWithin 3 [site] ⟨0⟩) s ∧
      (force 4 site r).answer? = some (.error (.raised (.classNotFound "M"))) := by
  intro first decl site
  let r : Registry := (new {}).append decl
  have hregistered : performAll 1 [.register decl] (new {}) = some r := rfl
  have hrun : Run (new {}) [.register decl] r := .of_performAll hregistered
  obtain ⟨-, -, -, hidle, -, hgoesOn⟩ := trackers_balanced
  have hfirst : (first.evaluate (scopeOf 3 ⟨0⟩) (r.beginEvaluation site)).answer? =
      some (.error (.raised (.classNotFound "M"))) := by
    dsimp only [first, r, decl, site]
    rfl
  have hsecond : (force 4 site r).answer? = some (.error (.raised (.classNotFound "M"))) := by
    dsimp only [first, r, decl, site]
    rfl
  obtain ⟨s, hfailed⟩ := Outcome.answer?_eq_error_iff.mp hfirst
  obtain ⟨hs, hgoesOn⟩ := hgoesOn 3 ⟨0⟩ first _ _ _ s hfailed
  exact ⟨r, s, hrun, (hidle _ _ _ hrun).2, hfailed, hs, hgoesOn, hsecond⟩

end Registry
end Lineage
