/-
How often a value is computed.

`Life` says what can happen to a value that starts pending: attempts to compute
it that fail, one after the other, and at most one that succeeds, the last.
The theorem of this file is `Reachable.computed_once`.  Whatever sources do, also
with the failure of a fetch, no evaluation of a value goes on inside another
evaluation of it, so a stored value is the result of the last evaluation, and no
fetch ever gives another.
-/
import Lineage.Proofs.FailedClass
import Lineage.Proofs.Nesting

namespace Lineage

/-- The event is the beginning or the end of an evaluation of the site. -/
def Event.concerns (site : LazySite) : Event → Bool
  | .began other => other == site
  | .ended other _ => other == site
  | .requested _ => false
  | .noted _ => false

namespace Registry

variable {r s t : Registry} {site : LazySite} {source : Initializer}

/-- The evaluations of a site that have begun and ended, latest first. -/
def history (r : Registry) (site : LazySite) : List Event :=
  r.events.filter (Event.concerns site)

/-- Evaluations of a site, one after the other, that end with these errors,
latest first. -/
def failedTrials (site : LazySite) (errors : List Error) : List Event :=
  errors.flatMap fun e => [.ended site (.error e), .began site]

/-- How far the value with a source has come.  It is pending, also after any
number of failed evaluations and during one, and is settled by the evaluation
that succeeds, after which there is none. -/
inductive Life (source : Initializer) (site : LazySite) (r : Registry) : Prop where
  | waiting (errors : List Error) (history : r.history site = failedTrials site errors)
      (stored : r.lazy? site = some (.pending source)) (idle : site ∉ r.evaluating)
  | underway (errors : List Error)
      (history : r.history site = .began site :: failedTrials site errors)
      (stored : r.lazy? site = some (.pending source)) (busy : site ∈ r.evaluating)
  | settled (errors : List Error) (v : Value)
      (history : r.history site =
        .ended site (.ok v) :: .began site :: failedTrials site errors)
      (stored : r.lazy? site = some (.settled v)) (idle : site ∉ r.evaluating)

/-! ## What each change does to the history of a site -/

theorem history_record (r : Registry) (event : Event) (site : LazySite) :
    (r.record event).history site =
      if event.concerns site then event :: r.history site else r.history site := by
  simp only [history, record, List.filter_cons]

theorem history_beginEvaluation (r : Registry) (other site : LazySite) :
    (r.beginEvaluation other).history site =
      if other = site then .began other :: r.history site else r.history site := by
  refine (history_record _ (.began other) site).trans ?_
  simp [Event.concerns, history]

theorem events_endEvaluation (site : LazySite) (result : Except Error Value) (r : Registry) :
    (r.endEvaluation site result).events = .ended site result :: r.events := by
  cases result <;> rfl

theorem history_endEvaluation (r : Registry) (other site : LazySite)
    (result : Except Error Value) :
    (r.endEvaluation other result).history site =
      if other = site then .ended other result :: r.history site else r.history site := by
  rw [history, events_endEvaluation]
  simp [Event.concerns, history, List.filter_cons]

/-- Nothing has been done with a site, and a value that was there is still there
as it was. -/
structure Undisturbed (site : LazySite) (r s : Registry) : Prop where
  history : s.history site = r.history site
  stored : ∀ l, r.lazy? site = some l → s.lazy? site = some l
  evaluating : site ∈ s.evaluating ↔ site ∈ r.evaluating

theorem Undisturbed.of_eq (hev : s.events = r.events) (hd : s.decl? site.owner = r.decl? site.owner)
    (he : s.evaluating = r.evaluating) : Undisturbed site r s where
  history := by rw [Registry.history, hev, Registry.history]
  stored l hl := by rw [lazy?, hd]; exact hl
  evaluating := by rw [he]

theorem Load.undisturbed (h : Load r s) (site : LazySite) : Undisturbed site r s := by
  cases h with
  | requested hook unbound =>
    refine ⟨?_, fun l hl => hl, Iff.rfl⟩
    rw [history_record]
    rfl
  | @registered d free =>
    refine ⟨rfl, fun l hl => ?_, Iff.rfl⟩
    obtain ⟨d', hd', -⟩ := Option.bind_eq_some_iff.mp hl
    rw [lazy?, decl?_append (.of_decl? hd')]
    exact hl

/-- Nothing but the beginning and the end of its own evaluation touches a site. -/
theorem Compute.at_site (h : Compute r s) (hn : r.Nested) (site : LazySite) :
    Undisturbed site r s ∨
      (∃ source, r.lazy? site = some (.pending source) ∧ site ∉ r.evaluating ∧
        s = r.beginEvaluation site) ∨
      (∃ result, site ∈ r.evaluating ∧ site ∉ s.evaluating ∧
        s = r.endEvaluation site result) := by
  cases h with
  | load h => exact .inl (h.undisturbed site)
  | noted label =>
    left
    refine ⟨?_, fun l hl => hl, Iff.rfl⟩
    rw [note, history_record]
    rfl
  | @began other source pending usable fresh =>
    by_cases heq : other = site
    · subst heq
      exact .inr (.inl ⟨source, pending, fresh, rfl⟩)
    · left
      refine ⟨by rw [history_beginEvaluation, if_neg heq], fun l hl => hl, ?_⟩
      show site ∈ other :: r.evaluating ↔ _
      simp [Ne.symm heq]
  | @ended other rest innermost result =>
    by_cases heq : other = site
    · subst heq
      refine .inr (.inr ⟨result, by simp [innermost], ?_, rfl⟩)
      rw [evaluating_endEvaluation]
      exact hn.evaluating.not_mem_erase
    · left
      refine ⟨by rw [history_endEvaluation, if_neg heq], fun l hl => ?_, ?_⟩
      · rw [lazy?_endEvaluation]
        cases result with
        | ok v => exact (if_neg (Ne.symm heq)).trans hl
        | error e => exact hl
      · rw [evaluating_endEvaluation, List.mem_erase_of_ne (Ne.symm heq)]

theorem Change.at_site (h : Change r s) (hn : r.Nested) (site : LazySite) :
    Undisturbed site r s ∨
      (∃ source, r.lazy? site = some (.pending source) ∧ site ∉ r.evaluating ∧
        s = r.beginEvaluation site) ∨
      (∃ result, site ∈ r.evaluating ∧ site ∉ s.evaluating ∧
        s = r.endEvaluation site result) := by
  cases h with
  | compute h => exact h.at_site hn site
  | hooked loader => exact .inl (.of_eq rfl rfl rfl)
  | beganLinking unresolved fresh => exact .inl (.of_eq rfl rfl rfl)
  | linked innermost unresolved assembled =>
    exact .inl (.of_eq rfl (decl?_endLinking _ _ _ r) rfl)
  | refused innermost unresolved cause =>
    exact .inl (.of_eq rfl (decl?_endLinking _ _ _ r) rfl)
  | seeded resolved registered untouched => exact .inl (.of_eq rfl (decl?_setStatics _ _ _ r) rfl)
  | assigned registered touched table' => exact .inl (.of_eq rfl (decl?_setStatics _ _ _ r) rfl)

/-! ## The life of a value -/

theorem Life.of_undisturbed (h : Life source site r) (hs : Undisturbed site r s) :
    Life source site s := by
  cases h with
  | waiting errors history stored idle =>
    exact .waiting errors (hs.history.trans history) (hs.stored _ stored)
      fun hmem => idle (hs.evaluating.mp hmem)
  | underway errors history stored busy =>
    exact .underway errors (hs.history.trans history) (hs.stored _ stored)
      (hs.evaluating.mpr busy)
  | settled errors v history stored idle =>
    exact .settled errors v (hs.history.trans history) (hs.stored _ stored)
      fun hmem => idle (hs.evaluating.mp hmem)

/-- An evaluation begins only where none is in progress, -/
theorem Life.beginEvaluation (h : Life source site r) {other : Initializer}
    (hp : r.lazy? site = some (.pending other)) (hfresh : site ∉ r.evaluating) :
    Life source site (r.beginEvaluation site) := by
  cases h with
  | waiting errors history stored idle =>
    refine .underway errors ?_ stored List.mem_cons_self
    rw [history_beginEvaluation, if_pos rfl, history]
  | underway errors history stored busy => exact absurd busy hfresh
  | settled errors v history stored idle =>
    rw [stored] at hp
    cases hp

/-- and as long as it is in progress nothing else settles the value. -/
theorem Life.endEvaluation (h : Life source site r) (result : Except Error Value)
    (hbusy : site ∈ r.evaluating) (hidle : site ∉ (r.endEvaluation site result).evaluating) :
    Life source site (r.endEvaluation site result) := by
  cases h with
  | waiting errors history stored idle => exact absurd hbusy idle
  | settled errors v history stored idle => exact absurd hbusy idle
  | underway errors history stored busy =>
    cases result with
    | ok v =>
      refine .settled errors v ?_ ?_ hidle
      · rw [history_endEvaluation, if_pos rfl, history]
      · rw [lazy?_endEvaluation]
        simp [stored]
    | error e =>
      refine .waiting (e :: errors) ?_ ?_ hidle
      · rw [history_endEvaluation, if_pos rfl, history]
        rfl
      · rw [lazy?_endEvaluation]
        exact stored

theorem Life.change (h : Life source site r) (hn : r.Nested) (hs : Change r s) :
    Life source site s := by
  rcases hs.at_site hn site with hquiet | ⟨other, hp, hfresh, rfl⟩ | ⟨result, hbusy, hidle, rfl⟩
  · exact h.of_undisturbed hquiet
  · exact h.beginEvaluation hp hfresh
  · exact h.endEvaluation result hbusy hidle

theorem Life.changes (h : Life source site r) (hr : r.Reachable)
    (hs : Relation.ReflTransGen Change r s) : Life source site s := by
  induction hs with
  | refl => exact h
  | tail hsteps hstep ih => exact ih.change (hr.changes hsteps).nested hstep

/-- A site that does not exist yet, or was declared with its value, has no
history; every other one is in some stage. -/
theorem Reachable.recorded (hr : r.Reachable) (site : LazySite) :
    (r.history site = [] ∧ site ∉ r.evaluating ∧
        ∀ source, r.lazy? site ≠ some (.pending source)) ∨
      ∃ source, Life source site r := by
  obtain ⟨config, hsteps⟩ := hr
  induction hsteps with
  | refl => exact .inl ⟨rfl, nofun, nofun⟩
  | @tail r s hsteps hstep ih =>
    have hn : r.Nested := Reachable.nested ⟨config, hsteps⟩
    rcases ih with ⟨hnone, hidle, hready⟩ | ⟨source, hlife⟩
    · rcases hstep.at_site hn site with hquiet | ⟨source, hp, -, -⟩ | ⟨result, hbusy, -, -⟩
      · have hnone' : s.history site = [] := hquiet.history.trans hnone
        have hidle' : site ∉ s.evaluating := fun hmem => hidle (hquiet.evaluating.mp hmem)
        by_cases hp : ∃ source, s.lazy? site = some (.pending source)
        · obtain ⟨source, hp⟩ := hp
          exact .inr ⟨source, .waiting [] hnone' hp hidle'⟩
        · exact .inl ⟨hnone', hidle', fun source h => hp ⟨source, h⟩⟩
      · exact absurd hp (hready source)
      · exact absurd hbusy hidle
    · exact .inr ⟨source, hlife.change hn hstep⟩

theorem Reachable.life (hr : r.Reachable) (hp : r.lazy? site = some (.pending source)) :
    Life source site r := by
  rcases hr.recorded site with ⟨-, -, hready⟩ | ⟨other, hlife⟩
  · exact absurd hp (hready source)
  · have hsame : other = source := by
      cases hlife with
      | waiting errors history stored idle =>
        rw [stored] at hp
        cases hp
        rfl
      | underway errors history stored busy =>
        rw [stored] at hp
        cases hp
        rfl
      | settled errors v history stored idle =>
        rw [stored] at hp
        cases hp
    exact hsame ▸ hlife

/-! ## Computing and reading the value -/

/-- An evaluation that has been started ends with what is given to the caller. -/
theorem evaluateSite_records (scope : Scope Registry) (site : LazySite) (d : ClassDecl)
    (source : Initializer) (r : Registry) :
    (evaluateSite scope site d source r).Meets
      (fun v t => ∃ m : Registry, t = m.endEvaluation site (.ok v))
      (fun f t => t = r ∨ (∃ (m : Registry) (e : Error), t = m.endEvaluation site (.error e)) ∨
        ∃ id, f = .unissued id) True := by
  refine Eval.meets_bind (Eval.meets_get (Q := fun a s => r = a ∧ r = s) ⟨rfl, rfl⟩) ?_
  rintro _ _ ⟨rfl, rfl⟩
  split
  · exact .inl rfl
  · refine Eval.meets_bind (Eval.meets_modify (Q := fun _ _ => True) trivial) fun _ s _ => ?_
    refine Eval.meets_bind (Q := fun _ _ => True) ?_ fun result m _ => ?_
    · unfold Eval.attempt
      cases source.evaluate scope s with
      | value v m => exact trivial
      | failure f m =>
        cases f with
        | raised e => exact trivial
        | unissued id => exact .inr (.inr ⟨id, rfl⟩)
      | tooDeep => exact trivial
    · refine Eval.meets_bind
        (Eval.meets_modify (Q := fun _ t => t = m.endEvaluation site result) rfl) ?_
      rintro _ _ rfl
      cases result with
      | ok v => exact ⟨m, rfl⟩
      | error e => exact .inr (.inl ⟨m, e, rfl⟩)

theorem force_records (depth : Nat) (hp : r.lazy? site = some (.pending source)) :
    (force depth site r).Meets
      (fun v t => ∃ m : Registry, t = m.endEvaluation site (.ok v))
      (fun f t => t = r ∨ (∃ (m : Registry) (e : Error), t = m.endEvaluation site (.error e)) ∨
        ∃ id, f = .unissued id) True := by
  cases depth with
  | zero => exact trivial
  | succ depth =>
    obtain ⟨d, hd, hm⟩ := Option.bind_eq_some_iff.mp hp
    by_cases hf : ∃ e, r.standing? site.owner = some (.failed e)
    · obtain ⟨e, he⟩ := hf
      rw [force_of_failed depth he]
      exact .inl rfl
    · rw [force_of_usable depth hd fun e he => hf ⟨e, he⟩, hm]
      exact evaluateSite_records _ site d source r

/-- A settled value is read without evaluating anything. -/
theorem fetch_of_settled {v : Value} {depth : Nat} {current : ClassId} {qualifier : Qualifier}
    {name : String} (hfound : locate depth current qualifier name r = .value site s)
    (hv : s.lazy? site = some (.settled v)) :
    fetch depth current qualifier name r = .value v s ∨
      ∃ e, s.standing? site.owner = some (.failed e) ∧
        fetch depth current qualifier name r = .failure (.raised e) s := by
  have hforce : fetch depth current qualifier name r = force depth site s := by
    rw [fetch, fetchWith_eq, Eval.bind_apply, hfound]
  obtain ⟨depth, rfl⟩ : ∃ n, depth = n + 1 := by
    cases depth with
    | zero =>
      obtain ⟨id, t, -, hsearch⟩ := Eval.bind_eq_value_iff.mp hfound
      cases hsearch
    | succ depth => exact ⟨depth, rfl⟩
  obtain ⟨d, hd, -⟩ := Option.bind_eq_some_iff.mp hv
  obtain ⟨st, hst⟩ := (Issued.of_decl? hd).standing?
  rw [hforce]
  cases st with
  | failed e => exact .inr ⟨e, hst, force_of_failed depth hst⟩
  | unresolved => exact .inl (force_of_settled depth hst nofun hv)
  | resolved links => exact .inl (force_of_settled depth hst nofun hv)

theorem locate_computing {current : ClassId} (hr : r.Indexed) (hc : r.Issued current)
    (depth : Nat) (qualifier : Qualifier) (name : String) :
    Computing (locate depth current qualifier name) r fun _ _ => True := by
  refine (target_computing hc hr qualifier).bind fun id s hs hid => ?_
  refine (searchConstant_computing name depth id [] s (hs.indexed hr) hid).bind
    fun found t ht _ => ?_
  obtain ⟨owner?, visited⟩ := found
  cases owner? with
  | some owner => exact .pure trivial
  | none => exact (Computing.decl (ht.grows.issued hid)).bind fun d u _ _ => .raise _

theorem changes_of_computes (h : Computes r s) : Relation.ReflTransGen Change r s :=
  (Advances.of_computes h).steps

/-- Nothing is done any more with a value that is settled. -/
theorem Life.history_of_settled {v : Value} (h : Life source site r) (hr : r.Reachable)
    (hv : r.lazy? site = some (.settled v)) (hs : Relation.ReflTransGen Change r s) :
    s.history site = r.history site := by
  induction hs with
  | refl => rfl
  | @tail s t hsteps hstep ih =>
    have hv' := (Extends.of_changes hsteps).settled hv
    rcases hstep.at_site (hr.changes hsteps).nested site with
      hquiet | ⟨other, hp, -, -⟩ | ⟨result, hbusy, -, -⟩
    · exact hquiet.history.trans ih
    · rw [hv'] at hp
      cases hp
    · cases h.changes hr hsteps with
      | waiting errors history stored idle => exact absurd hbusy idle
      | underway errors history stored busy =>
        rw [hv'] at stored
        cases stored
      | settled errors v history stored idle => exact absurd hbusy idle

/-- The last thing done with the value tells what is stored. -/
theorem Life.lazy?_of_ended (h : Life source site r) {result : Except Error Value}
    {earlier : List Event} (hlast : r.history site = .ended site result :: earlier) :
    r.lazy? site = some (match result with
      | .ok v => .settled v
      | .error _ => .pending source) := by
  cases h with
  | waiting errors history stored idle =>
    rw [hlast] at history
    cases errors with
    | nil => cases history
    | cons e errors =>
      cases history
      exact stored
  | underway errors history stored busy =>
    rw [hlast] at history
    cases history
  | settled errors v history stored idle =>
    rw [hlast] at history
    cases history
    exact stored

theorem Life.force_value (h : Life source site r) (hr : r.Reachable) {depth : Nat} {v : Value}
    (hp : r.lazy? site = some (.pending source)) (hforce : force depth site r = .value v s) :
    s.lazy? site = some (.settled v) ∧
      ∃ earlier, s.history site = .ended site (.ok v) :: earlier := by
  obtain ⟨m, rfl⟩ : ∃ m : Registry, s = m.endEvaluation site (.ok v) := by
    have hends := force_records depth hp
    rw [hforce] at hends
    exact hends
  have hcomputes := force_computes depth site r hr.indexed (.of_lazy? hp)
  unfold Computing at hcomputes
  rw [hforce] at hcomputes
  have hlast : (m.endEvaluation site (.ok v)).history site =
      .ended site (.ok v) :: m.history site := by
    rw [history_endEvaluation, if_pos rfl]
  exact ⟨(h.changes hr (changes_of_computes hcomputes.1)).lazy?_of_ended hlast, _, hlast⟩

theorem Life.force_failure (h : Life source site r) (hr : r.Reachable) {depth : Nat} {f : Fault}
    (hp : r.lazy? site = some (.pending source)) (hforce : force depth site r = .failure f s) :
    s.lazy? site = some (.pending source) := by
  have hends := force_records depth hp
  rw [hforce] at hends
  have hcomputes := force_computes depth site r hr.indexed (.of_lazy? hp)
  unfold Computing at hcomputes
  rw [hforce] at hcomputes
  obtain ⟨hcomputes, e, rfl⟩ := hcomputes
  rcases hends with rfl | ⟨m, e, rfl⟩ | ⟨id, hid⟩
  · exact hp
  · have hlast : (m.endEvaluation site (.error e)).history site =
        .ended site (.error e) :: m.history site := by
      rw [history_endEvaluation, if_pos rfl]
    exact (h.changes hr (changes_of_computes hcomputes)).lazy?_of_ended hlast
  · cases hid

/-- A value that starts pending is computed at most once, and the stored value is
the one that was computed.  From any state `r` of a run in which it is pending,
which may be in the middle of an operation, through any operations to any later
state `s`:

* its evaluations so far failed one after the other, and at most the last one gave
  a value, which is stored; until then its source is there as it was;
* asking for it gives a value only by storing it, as the last thing done with it,
  and leaves it pending if there is a failure;
* a value that is stored stays, nothing is done with it any more, and every fetch
  that finds it gives it, or the error of its class if that has failed. -/
theorem Reachable.computed_once (hr : r.Reachable)
    (hp : r.lazy? site = some (.pending source)) (hs : r.Becomes s) :
    Life source site s ∧
      (∀ depth v t, s.lazy? site = some (.pending source) → force depth site s = .value v t →
        t.lazy? site = some (.settled v) ∧
          ∃ earlier, t.history site = .ended site (.ok v) :: earlier) ∧
      (∀ depth f t, s.lazy? site = some (.pending source) → force depth site s = .failure f t →
        t.lazy? site = some (.pending source)) ∧
      ∀ v, s.lazy? site = some (.settled v) → ∀ t, s.Becomes t →
        t.history site = s.history site ∧ t.lazy? site = some (.settled v) ∧
          ∀ depth current qualifier name u, t.Issued current →
            locate depth current qualifier name t = .value site u →
            fetch depth current qualifier name t = .value v u ∨
              ∃ e, u.standing? site.owner = some (.failed e) ∧
                fetch depth current qualifier name t = .failure (.raised e) u := by
  have hsteps := hs.steps hr.indexed
  have hlife : Life source site s := (hr.life hp).changes hr hsteps
  have hreach := hr.changes hsteps
  refine ⟨hlife, fun depth v t hpending => hlife.force_value hreach hpending,
    fun depth f t hpending => hlife.force_failure hreach hpending, fun v hv t hlater => ?_⟩
  have ht := hlater.steps hreach.indexed
  refine ⟨hlife.history_of_settled hreach hv ht, (Extends.of_changes ht).settled hv, ?_⟩
  intro depth current qualifier name u hc hfound
  have hlocated := locate_computing (hreach.changes ht).indexed hc depth qualifier name
  unfold Computing at hlocated
  rw [hfound] at hlocated
  exact fetch_of_settled hfound (hlocated.1.grows.settled ((Extends.of_changes ht).settled hv))

/-- Each of two constants is fetched from the other, and `X` has a fallback.  Asked
for `X`, the evaluation of `Y` fails inside that of `X`; asked for `Y` afterwards, it
gives the value of `X`. -/
theorem Reachable.computed_once_after_failure :
    let fallback : Program := .orElse (.fetch .self "Y" .done) (.done (.ok (.int 1)))
    let decl : ClassDecl :=
      .addConstant { name := "X", value := .pending (.program fallback) }
        (.addConstant { name := "Y", value := .pending (.expr (.constant .self "X")) }
          { name := ⟨"A"⟩ })
    let site : LazySite := ⟨⟨0⟩, .constant "Y"⟩
    ∃ r s, Run (new {}) [.register decl] r ∧
      Run r [.constant ⟨0⟩ "X", .constant ⟨0⟩ "Y"] s ∧
      r.lazy? site = some (.pending (.expr (.constant .self "X"))) ∧
      s.history site = .ended site (.ok (.int 1)) :: .began site ::
        failedTrials site [.circularConstant "A" "X"] ∧
      s.lazy? site = some (.settled (.int 1)) ∧
      ∃ t, locate 4 ⟨0⟩ .self "Y" s = .value site t ∧
        fetch 4 ⟨0⟩ .self "Y" s = .value (.int 1) t := by
  intro fallback decl site
  have hresults : (performAll 9 [.register decl] (new {})).bind (fun r =>
      (performAll 9 [.constant ⟨0⟩ "X", .constant ⟨0⟩ "Y"] r).map fun s =>
        (r.lazy? site, s.history site, s.lazy? site, (locate 4 ⟨0⟩ .self "Y" s).answer?,
          (fetch 4 ⟨0⟩ .self "Y" s).answer?)) =
      some (some (.pending (.expr (.constant .self "X"))),
        .ended site (.ok (.int 1)) :: .began site ::
          failedTrials site [.circularConstant "A" "X"],
        some (.settled (.int 1)), some (.ok site), some (.ok (.int 1))) := rfl
  obtain ⟨r, hr, hresults⟩ := Option.bind_eq_some_iff.mp hresults
  obtain ⟨s, hs, hresults⟩ := Option.map_eq_some_iff.mp hresults
  simp only [Prod.mk.injEq] at hresults
  obtain ⟨hpending, hhistory, hsettled, hfound, hread⟩ := hresults
  have hr : Run (new {}) [.register decl] r := .of_performAll hr
  have hs : Run r [.constant ⟨0⟩ "X", .constant ⟨0⟩ "Y"] s := .of_performAll hs
  obtain ⟨-, -, -, hstays⟩ := Reachable.computed_once hr.reachable hpending (.run hs)
  obtain ⟨-, -, hfetch⟩ := hstays (.int 1) hsettled s (.run (.nil s))
  refine ⟨r, s, hr, hs, hpending, hhistory, hsettled, ?_⟩
  have hissued : s.Issued ⟨0⟩ := .of_lazy? hsettled
  cases hlocated : locate 4 ⟨0⟩ .self "Y" s with
  | value other t =>
    rw [hlocated] at hfound
    obtain rfl : other = site := Except.ok.inj (Option.some.inj hfound)
    refine ⟨t, rfl, ?_⟩
    rcases hfetch 4 ⟨0⟩ .self "Y" t hissued hlocated with hvalue | ⟨e, -, hfailed⟩
    · exact hvalue
    · rw [hfailed] at hread
      cases hread
  | failure f t =>
    rw [hlocated] at hfound
    cases hfound
  | tooDeep =>
    rw [hlocated] at hfound
    cases hfound

end Registry
end Lineage
