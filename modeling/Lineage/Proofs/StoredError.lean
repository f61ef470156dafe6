/-
What resolution ends with, where all sources are expressions.

A class fails with an error of an expression, of a step of linking or of a cycle
(`Error.isOfResolution`).  That a name is taken is an error of registration alone: a hook
that supplies a class of a taken name supplies nothing.  And linking asks for the links of a
class only when the class has been resolved, so it never hears that it was not.
`Run.proper` says this of the failed classes in every state of a run.
-/
import Lineage.Proofs.Carry
import Lineage.Proofs.Supply

namespace Lineage

/-- Whether a class can fail with the error. -/
def Error.isOfResolution : Error → Bool
  | .duplicateClass _ => false
  | .notResolved _ => false
  | _ => true

theorem Error.isOfResolution_of_isOfExpression {e : Error} (h : e.isOfExpression = true) :
    e.isOfResolution = true := by
  cases e <;> first | rfl | cases h

theorem Error.isOfResolution_of_isOfLinking {e : Error} (h : e.isOfLinking = true) :
    e.isOfResolution = true := by
  cases e <;> first | rfl | cases h

namespace Registry

variable {r s : Registry} {p : ClassId} {e : Error}

theorem isOfResolution_of_cycle? (h : r.cycle? p = some e) : e.isOfResolution = true := by
  unfold cycle? at h
  split at h
  · cases h
    rfl
  · cases h

/-- Sources are expressions, and the classes that failed have done so with an error of
resolution. -/
structure Proper (r : Registry) : Prop where
  indexed : r.Indexed
  supplied : r.Supplied ClassDecl.Plain
  failed : ∀ c e, r.standing? c = some (.failed e) → e.isOfResolution = true

theorem keptSince_proper : KeptSince Proper where
  indexed h := h.indexed
  supplied h := h.supplied
  since h hadv hs :=
    ⟨hadv.indexed h.indexed, hs.supplied, fun c e hc => h.failed c e (hs.failed c e hc)⟩

/-- What is looked up and computed from here on raises errors of resolution only. -/
theorem Proper.steady (h : r.Proper) : Steady (Since r) fun e => e.isOfResolution = true :=
  steady_since h.failed fun _ he => Error.isOfResolution_of_isOfExpression he

theorem Proper.beginLinking (h : r.Proper) (id : ClassId) : (r.beginLinking id).Proper :=
  ⟨h.indexed, h.supplied.of_eq rfl fun _ => rfl, h.failed⟩

theorem Proper.endLinking (h : r.Proper) (hu : r.standing? p = some .unresolved)
    (result : Except Error Links) (he : ∀ e, result = .error e → e.isOfResolution = true) :
    (r.endLinking p result).Proper where
  indexed := by
    refine h.indexed.of_extends (extends_endLinking hu) ?_
    cases result <;> rfl
  supplied := (stable_supplied _).endedLinking p result r h.supplied
  failed c e hc := by
    by_cases hcp : c = p
    · subst hcp
      rw [standing?_endLinking hu] at hc
      cases result with
      | ok links => cases hc
      | error e' =>
        cases hc
        exact he _ rfl
    · rw [standing?_endLinking_of_ne hcp] at hc
      exact h.failed c e hc

theorem carries_proper : Carries (fun _ r s => r.Proper → s.Proper)
    (fun _ r f s => r.Proper → s.Proper ∧ ∀ e, f = .raised e → e.isOfResolution = true) where
  refl _ _ h := h
  trans h _ _ h' hr := h' (h hr)
  fail h _ _ h' hr := h' (h hr)
  linking h he hr :=
    ⟨h hr, fun _ hf => by cases hf; exact Error.isOfResolution_of_isOfLinking he⟩
  failed hfailed hr := ⟨hr, fun _ hf => by cases hf; exact hr.failed _ _ hfailed⟩
  cycle hc hr := ⟨hr, fun _ hf => by cases hf; exact isOfResolution_of_cycle? hc⟩
  lookup _ name r :=
    .of_imp fun hr => (keptSince_proper.meets hr (hr.steady.lookup name)
      (lookup_advancing name hr.indexed)).imp (fun _ _ h => h) (fun _ _ h => h.1) id
  values {id r} depth d hidx hi := by
    refine .of_imp fun hr => keptSince_proper.meets hr (hr.steady.forceAll depth id d) ?_
    exact (forceAll_meets depth d hidx hi).imp (fun _ _ h => .of_computes h.1)
      (fun _ _ h => .of_computes h.1) fun h => h
  linked links h hu hr := (h (hr.beginLinking _)).endLinking hu (.ok links) nofun
  refused h hu hr := by
    obtain ⟨hproper, he⟩ := h (hr.beginLinking _)
    exact ⟨hproper.endLinking hu (.error _) fun e' he' => by cases he'; exact he _ rfl,
      fun _ hf => by cases hf; exact he _ rfl⟩

/-! ## Operations -/

/-- Resolution ends with an error of resolution, if with any. -/
theorem resolveId_proper (depth : Nat) (p : ClassId) :
    Maintains Proper (fun e => e.isOfResolution = true) (resolveId depth p) := by
  intro r hr
  by_cases hp : r.Issued p
  · exact (carries_proper.resolveId depth p r hr.indexed hp).imp (fun _ _ h => h hr)
      (fun _ _ h => h hr) id
  · cases depth with
    | zero => exact trivial
    | succ depth =>
      rw [resolveId_of_unissued depth hp]
      exact ⟨hr, nofun⟩

theorem proper_new (config : Config) : (new config).Proper where
  indexed := indexed_new config
  supplied := ⟨nofun, nofun⟩
  failed := nofun

/-- In every state of every run whose sources are expressions, classes have failed with
errors of resolution. -/
theorem Run.proper {config : Config} {ops : List Operation} (h : Run (new config) ops r)
    (hops : ∀ op ∈ ops, op.Supplies ClassDecl.Plain) : r.Proper := by
  exact Maintains.run h (fun op hop depth => keptSince_proper.perform (hops op hop) fun id =>
    (resolveId_proper depth id).forget) (proper_new config)

end Registry
end Lineage
