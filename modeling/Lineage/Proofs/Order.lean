/-
Runs of resolutions in any order.

`Run.tracks` carries the invariant of resolution through every run that only
resolves.  Since what is settled is derived from the first registry, and
derivations are unique, two such runs agree wherever both have settled a class:
`Run.order_irrelevant`.
-/
import Lineage.Proofs.Resolution

namespace Lineage

/-- The operations that resolve and do nothing else. -/
def Operation.isResolution : Operation → Bool
  | .resolve _ => true
  | .resolveId _ => true
  | .resolveAll => true
  | _ => false

namespace Registry

variable {w r s : Registry} {c : ClassId}

/-! ## One run -/

/-- Between operations nothing is being linked. -/
structure Rests (w r : Registry) : Prop where
  tracks : Tracks w r
  resolving : r.resolving = []

theorem Fresh.rests (hw : w.Fresh) : Rests w w := ⟨hw.tracks, hw.resolving⟩

/-- Whichever way the computation ends, it leaves a registry at rest. -/
def Resting {α : Type} (w : Registry) (x : Eval Registry α) (r : Registry) : Prop :=
  (x r).Meets (fun _ => Rests w) (fun _ => Rests w) True

theorem Resting.bind {α β : Type} {x : Eval Registry α} {f : α → Eval Registry β}
    (hx : Resting w x r) (hf : ∀ a s, Rests w s → Resting w (f a) s) : Resting w (x >>= f) r :=
  Eval.meets_bind hx hf

section Fresh

variable (hw : w.Fresh)
include hw

theorem resolveId_resting (depth : Nat) (id : ClassId) (h : Rests w r) :
    Resting w (resolveId depth id) r := by
  by_cases hid : w.Issued id
  · refine (resolveId_tracks hw depth id r h.tracks hid ?_).imp ?_ ?_ fun _ => trivial
    · rw [h.resolving]
      intro outer hout
      cases hout
    · exact fun _ s hs => ⟨hs.1, hs.2.1.trans h.resolving⟩
    · exact fun f s hs => ⟨hs.1, hs.2.1.trans h.resolving⟩
  · cases depth with
    | zero => trivial
    | succ depth =>
      unfold Resting
      rw [resolveId_of_unissued depth fun hi => hid (h.tracks.within.issued_iff.mp hi)]
      exact h

theorem resolve_resting (depth : Nat) (name : QualifiedName) (h : Rests w r) :
    Resting w (resolve depth name) r := by
  refine Resting.bind (x := lookup name) ?_ fun id s hs => ?_
  · unfold Resting
    rw [h.tracks.within.lookup]
    cases w.idOf? name with
    | none => exact h
    | some id => exact h
  · exact (resolveId_resting hw depth id hs).bind fun _ t ht => ht

theorem resolveFrom_resting (bound depth : Nat) (position : Nat) (h : Rests w r) :
    Resting w (resolveFrom (resolveId bound) depth position) r := by
  induction depth generalizing position r with
  | zero => trivial
  | succ depth ih =>
    have hget : Resting w (Eval.get : Eval Registry Registry) r := h
    refine hget.bind fun q s hs => ?_
    split
    · have hattempt : Resting w (resolveId bound (.ofIndex position)).attempt s :=
        Eval.meets_attempt (resolveId_resting hw bound _ hs) (fun _ _ h => h) (fun _ _ h => h)
          fun _ _ h => h
      refine hattempt.bind fun result t ht => ?_
      refine (ih (position + 1) ht).bind fun failures u hu => ?_
      cases result <;> exact hu
    · exact hs

theorem perform_resting {op : Operation} (hop : op.isResolution = true) (depth : Nat)
    (h : Rests w r) : Resting w (perform depth op) r := by
  cases op with
  | resolve name => exact (resolve_resting hw depth name h).bind fun _ s hs => hs
  | resolveId id => exact (resolveId_resting hw depth id h).bind fun _ s hs => hs
  | resolveAll => exact (resolveFrom_resting hw depth depth 0 h).bind fun _ s hs => hs
  | _ => cases hop

/-- After any resolutions, all that is settled is derived from the registry that
they started from. -/
theorem Run.rests {ops : List Operation} (h : Run r ops s)
    (hops : ∀ op ∈ ops, op.isResolution = true) (hr : Rests w r) : Rests w s := by
  induction h with
  | nil r => exact hr
  | cons depth first rest ih =>
    have hs :=
      Outcome.Meets.of_state? (perform_resting hw (hops _ List.mem_cons_self) depth hr) first
    exact ih (fun op hop => hops op (List.mem_cons_of_mem _ hop)) hs

end Fresh

/-! ## Two runs -/

/-- A class is resolved or has failed. -/
def isSettled (r : Registry) (c : ClassId) : Bool :=
  match r.standing? c with
  | some (.resolved _) => true
  | some (.failed _) => true
  | _ => false

theorem isSettled_iff :
    r.isSettled c = true ↔
      (∃ links, r.Resolved c links) ∨ ∃ e, r.standing? c = some (.failed e) := by
  unfold isSettled Resolved
  cases r.standing? c with
  | none => simp
  | some st => cases st <;> simp

/-- A class has come to the same end in both registries: it has the same links
and, with nothing missing, the same values; or it has failed with the same error,
up to the class at which a cycle is entered. -/
inductive SameEnd (r s : Registry) (c : ClassId) : Prop where
  | resolved {links : Links} {d : ClassDecl} (left : r.Resolved c links)
      (right : s.Resolved c links) (declLeft : r.decl? c = some d) (declRight : s.decl? c = some d)
      (computed : ∀ member source, d.lazy? member ≠ some (.pending source))
  | failed {e e' : Error} (left : r.standing? c = some (.failed e))
      (right : s.standing? c = some (.failed e')) (alike : e.Alike e')

theorem Rests.sameEnd (hw : w.Fresh) (h : Rests w r) (h' : Rests w s) (hc : r.isSettled c = true)
    (hc' : s.isSettled c = true) : SameEnd r s c := by
  rw [isSettled_iff] at hc hc'
  rcases hc with ⟨links, hl⟩ | ⟨e, he⟩
  · obtain ⟨d, hd, hyields⟩ := h.tracks.resolved c links hl
    rcases hc' with ⟨links', hl'⟩ | ⟨e', he'⟩
    · obtain ⟨d', hd', hyields'⟩ := h'.tracks.resolved c links' hl'
      obtain ⟨rfl, rfl⟩ := hyields.unique hw hyields'
      exact .resolved hl hl' hd hd' (h.tracks.computed hl hd)
    · exact absurd (h'.tracks.failed c e' he') (hyields.not_fails hw)
  · have hfails := h.tracks.failed c e he
    rcases hc' with ⟨links', hl'⟩ | ⟨e', he'⟩
    · obtain ⟨d', hd', hyields'⟩ := h'.tracks.resolved c links' hl'
      exact absurd hfails (hyields'.not_fails hw)
    · exact .failed he he' (hfails.alike hw (h'.tracks.failed c e' he'))

/-- The order of resolution does not matter.  Take a registry without a hook in
which nothing is resolved and every pending value has a local source.  Whatever
two runs resolve in it, a class that both have settled has come to the same end. -/
theorem Run.order_irrelevant {config : Config} {setup ops ops' : List Operation}
    (hstart : Run (new config) setup w) (hhook : w.autoloader = none)
    (hunresolved : ∀ c st, w.standing? c = some st → st = .unresolved)
    (hlocal : ∀ site source, w.lazy? site = some (.pending source) → source.isLocal = true)
    (h : Run w ops r) (hops : ∀ op ∈ ops, op.isResolution = true)
    (h' : Run w ops' s) (hops' : ∀ op ∈ ops', op.isResolution = true)
    (hc : r.isSettled c = true) (hc' : s.isSettled c = true) : SameEnd r s c := by
  obtain ⟨hindexed, hresolving, hevaluating⟩ := hstart.idle
  have hw : w.Fresh := ⟨hindexed, hhook, hunresolved, hresolving, hevaluating, hlocal⟩
  exact (h.rests hw hops hw.rests).sameEnd hw (h'.rests hw hops' hw.rests) hc hc'

/-- A cycle entered at either of its classes, and a value that needs itself. -/
theorem Run.order_irrelevant_in_a_cycle :
    let decls : List ClassDecl :=
      [{ name := ⟨"A"⟩, parent := some ⟨"B"⟩ }, { name := ⟨"B"⟩, parent := some ⟨"A"⟩ },
        .addConstant { name := "X", value := .pending (.expr (.constant .self "X")) }
          { name := ⟨"C"⟩ }]
    ∃ w r s, Run (new {}) (decls.map .register) w ∧ Run w [.resolveId ⟨0⟩, .resolveId ⟨2⟩] r ∧
      Run w [.resolveId ⟨1⟩, .resolveAll] s ∧ SameEnd r s ⟨0⟩ ∧ SameEnd r s ⟨2⟩ := by
  intro decls
  have hrun : ((performAll 9 (decls.map .register) (new {})).bind fun w =>
      (performAll 9 [.resolveId ⟨0⟩, .resolveId ⟨2⟩] w).bind fun r =>
        (performAll 9 [.resolveId ⟨1⟩, .resolveAll] w).map fun s =>
          (r.isSettled ⟨0⟩ && r.isSettled ⟨2⟩) && (s.isSettled ⟨0⟩ && s.isSettled ⟨2⟩)) =
      some true := rfl
  obtain ⟨w, hw, hrest⟩ := Option.bind_eq_some_iff.mp hrun
  obtain ⟨r, hr, hrest⟩ := Option.bind_eq_some_iff.mp hrest
  obtain ⟨s, hs, hsettled⟩ := Option.map_eq_some_iff.mp hrest
  rw [Bool.and_eq_true, Bool.and_eq_true, Bool.and_eq_true] at hsettled
  obtain ⟨⟨hr0, hr2⟩, hs0, hs2⟩ := hsettled
  have hsetup : Run (new {}) (decls.map .register) w := .of_performAll hw
  have hregistered : w.Registered decls := hsetup.registered
  have hdecls : ∀ d ∈ decls, d.everyValue Lazy.isLocal = true := by decide
  have hlocal : ∀ site source, w.lazy? site = some (.pending source) → source.isLocal = true := by
    intro site source hl
    obtain ⟨d, hd, hd'⟩ := hregistered.lazy? hl
    exact ClassDecl.everyValue_iff.mp (hdecls d hd) _ _ hd'
  have hend : ∀ c, r.isSettled c = true → s.isSettled c = true → SameEnd r s c := fun c =>
    Run.order_irrelevant hsetup hregistered.hookless (fun _ _ => hregistered.standing?) hlocal
      (.of_performAll hr) (by decide) (.of_performAll hs) (by decide)
  exact ⟨w, r, s, hsetup, .of_performAll hr, .of_performAll hs, hend _ hr0 hs0, hend _ hr2 hs2⟩

end Registry
end Lineage
