/-
What resolving a class, fetching a constant and looking up a name leave alone.

Two recursions run through each other: the one along references resolves classes,
and the one along constants only looks up names and computes values.
`carries_frames` says that the first of them changes how far a class has come
only where references lead, although the second one goes anywhere and may register
classes on its way.  The theorem of this file is `Reachable.frame`.
-/
import Lineage.Proofs.Carry
import Lineage.Proofs.StaticCell
import Lineage.Proofs.Supply

namespace Lineage
namespace Registry

variable {r s t : Registry} {id c p : ClassId}

/-! ## Classes that do not move -/

/-- The class is as far as it was.  One that was not there may have been
registered, and is unresolved then. -/
def Unmoved (r s : Registry) (c : ClassId) : Prop :=
  s.standing? c = r.standing? c ∨
    (r.standing? c = none ∧ s.standing? c = some .unresolved)

theorem Unmoved.refl (r : Registry) (c : ClassId) : Unmoved r r c := .inl rfl

theorem Unmoved.trans (h : Unmoved r s c) (h' : Unmoved s t c) : Unmoved r t c := by
  rcases h with h | ⟨hnone, hnew⟩
  · rcases h' with h' | ⟨hnone', hnew'⟩
    · exact .inl (h'.trans h)
    · exact .inr ⟨h ▸ hnone', hnew'⟩
  · rcases h' with h' | ⟨hnone', -⟩
    · exact .inr ⟨hnone, h'.trans hnew⟩
    · rw [hnew] at hnone'
      cases hnone'

/-- Only looking up names and computing values moves no class. -/
theorem Compute.unmoved (h : Compute r s) (c : ClassId) : Unmoved r s c := by
  by_cases hi : r.Issued c
  · exact .inl (h.standing? hi)
  · have hnone : r.standing? c = none := by rw [Registry.standing?, registration?_eq_none hi]; rfl
    cases hs : s.standing? c with
    | none => exact .inl (hs.trans hnone.symm)
    | some st =>
      cases h with
      | load h =>
        cases h with
        | requested hook unbound =>
          rw [show r.standing? c = some st from hs] at hnone
          cases hnone
        | @registered d free =>
          by_cases hst : st = .unresolved
          · exact .inr ⟨hnone, hst ▸ hs⟩
          · rw [standing?_of_append hs hst] at hnone
            cases hnone
      | noted label =>
        rw [show r.standing? c = some st from hs] at hnone
        cases hnone
      | began pending usable fresh =>
        rw [show r.standing? c = some st from hs] at hnone
        cases hnone
      | @ended site rest innermost result =>
        rw [standing?_endEvaluation, hnone] at hs
        cases hs

theorem Computes.unmoved (h : Computes r s) (c : ClassId) : Unmoved r s c := by
  have hsteps := h.steps
  clear h
  induction hsteps with
  | refl => exact .refl r c
  | tail _ hstep ih => exact ih.trans (hstep.unmoved c)

/-! ## What linking moves -/

/-- No class has moved but those that the first class inherits from, and itself. -/
def Frames (id : ClassId) (r s : Registry) : Prop :=
  ∀ c, s.Reaches id c ∨ Unmoved r s c

theorem Frames.of_computes (h : Computes r s) : Frames id r s :=
  fun c => .inr (h.unmoved c)

/-- What a class refers to inherits from nothing that the class does not. -/
theorem Frames.trans (h : Frames id r s) (hs : s.Extends t) (hp : t.Reaches id p)
    (h' : Frames p s t) : Frames id r t := by
  intro c
  rcases h' c with hreach | hstill
  · exact .inl (hp.trans hreach)
  · rcases h c with hreach | hstill'
    · exact .inl (hreach.mono hs)
    · exact .inr (hstill'.trans hstill)

/-- The last step of linking a class moves this class only. -/
theorem Frames.endLinking (h : Frames p (r.beginLinking p) s) (result : Except Error Links)
    (hu : s.standing? p = some .unresolved) : Frames p r (s.endLinking p result) := by
  intro c
  by_cases hc : c = p
  · exact .inl (hc ▸ .refl)
  · rcases h c with hreach | hstill
    · exact .inl (hreach.mono (extends_endLinking hu))
    · right
      rw [Unmoved, standing?_endLinking_of_ne hc]
      exact hstill

/-- Nothing but the steps of linking moves a class, and what is linked on the way is
referred to. -/
theorem carries_frames : Carries Frames fun id r _ s => Frames id r s where
  refl _ r := .of_computes (.refl r)
  trans := Frames.trans
  fail := Frames.trans
  linking h _ := h
  failed _ := .of_computes (.refl _)
  cycle _ := .of_computes (.refl _)
  lookup _ name r := (lookup_meets name r).imp (fun _ _ h => .of_computes (.of_loads h.1))
    (fun _ _ h => .of_computes (.of_loads h.1)) False.elim
  values depth d hr hi := (forceAll_meets depth d hr hi).imp (fun _ _ h => .of_computes h.1)
    (fun _ _ h => .of_computes h.1) fun h => h
  linked links h hu := h.endLinking (.ok links) hu
  refused h hu := h.endLinking (.error _) hu

/-! ## What operations leave alone -/

/-- Only an unresolved class moves, or one that was not there. -/
theorem Extends.standing?_of_moved (h : r.Extends s) (hc : ¬ Unmoved r s c) :
    r.standing? c = some .unresolved ∨ r.standing? c = none := by
  cases hst : r.standing? c with
  | none => exact .inr rfl
  | some st =>
    cases st with
    | unresolved => exact .inl rfl
    | resolved links => exact absurd (.inl ((h.resolved hst).trans hst.symm)) hc
    | failed e => exact absurd (.inl ((h.failed hst).trans hst.symm)) hc

theorem perform_resolveId_frames (hr : r.Indexed) {depth : Nat}
    (h : (perform depth (.resolveId id) r).state? = some s) : Frames id r s := by
  suffices (perform depth (.resolveId id) r).Meets (fun _ => Frames id r) (fun _ => Frames id r)
      True from this.of_state? h
  refine Eval.meets_bind (Q := fun _ => Frames id r) ?_ fun _ _ hs => hs
  by_cases hi : r.Issued id
  · exact carries_frames.resolveId depth id r hr hi
  · cases depth with
    | zero => exact trivial
    | succ depth =>
      rw [resolveId_of_unissued depth hi]
      exact Frames.of_computes (.refl r)

theorem perform_constant_computes (hr : r.Indexed) {depth : Nat} {name : String}
    (h : (perform depth (.constant id name) r).state? = some s) : Computes r s := by
  suffices (perform depth (.constant id name) r).Meets (fun _ => Computes r)
      (fun _ => Computes r) True from this.of_state? h
  exact Eval.meets_bind (constant_computes depth id name hr) fun _ _ hs => hs

theorem perform_lookup_computes {depth : Nat} {name : QualifiedName}
    (h : (perform depth (.lookup name) r).state? = some s) : Computes r s := by
  suffices (perform depth (.lookup name) r).Meets (fun _ => Computes r) (fun _ => Computes r)
      True from this.of_state? h
  exact Eval.meets_bind ((lookup_meets name r).imp (fun _ _ hs => .of_loads hs.1)
    (fun _ _ hs => .of_loads hs.1) False.elim) fun _ _ hs => hs

/-- An operation that registers nothing itself and is none on static values creates
and changes no storage. -/
theorem perform_table? {op : Operation} (hdecl : op.declaration? = none) (hhook : op.hook? = none)
    (hstatic : op.isStatic = false) {depth : Nat} (h : (perform depth op r).state? = some s) :
    s.table? = r.table? := by
  have hop : Brings (fun q => q.table? = r.table?) op := by
    refine ⟨fun d hd => ?_, fun loader hl => ?_, fun hst => ?_⟩
    · rw [hdecl] at hd
      cases hd
    · rw [hhook] at hl
      cases hl
    · rw [hstatic] at hst
      cases hst
  suffices (perform depth op r).Meets (fun _ q => q.table? = r.table?)
      (fun _ q => q.table? = r.table?) True from
    this.of_state? (P := fun q => q.table? = r.table?) h
  exact ((stable_storages (· = r.table?)).perform hop depth r rfl).imp (fun _ _ hs => hs)
    (fun _ _ hs => hs.1) id

/-- In every state that a registry gets into, and with any hook: resolving a class
moves only classes that were unresolved or were not there, and that the class
inherits from through references as they are bound afterwards; one that is only
mentioned in an expression, or loaded for it, stays as it is.  Reading a constant
and looking up a name move no class, and none of the three touches a storage. -/
theorem Reachable.frame (hr : r.Reachable) (depth : Nat) :
    (∀ id s, (perform depth (.resolveId id) r).state? = some s →
      (∀ c, Unmoved r s c ∨
        (r.standing? c = some .unresolved ∨ r.standing? c = none) ∧ s.Reaches id c) ∧
      s.table? = r.table?) ∧
    (∀ id name s, (perform depth (.constant id name) r).state? = some s →
      (∀ c, Unmoved r s c) ∧ s.table? = r.table?) ∧
    (∀ name s, (perform depth (.lookup name) r).state? = some s →
      (∀ c, Unmoved r s c) ∧ s.table? = r.table?) := by
  refine ⟨fun id s h => ⟨fun c => ?_, perform_table? rfl rfl rfl h⟩,
    fun id name s h => ⟨?_, perform_table? rfl rfl rfl h⟩,
    fun name s h => ⟨?_, perform_table? rfl rfl rfl h⟩⟩
  · have hext : r.Extends s :=
      (Outcome.Meets.of_state? (perform_advances depth _ hr.indexed) h).grows
    by_cases hc : Unmoved r s c
    · exact .inl hc
    · refine .inr ⟨hext.standing?_of_moved hc, ?_⟩
      exact (perform_resolveId_frames hr.indexed h c).resolve_right hc
  · exact (perform_constant_computes hr.indexed h).unmoved
  · exact (perform_lookup_computes h).unmoved

/-- `A` inherits from `B` and mentions `C`, which is there, and `D`, which the hook
supplies.  Resolving `A` resolves `A` and `B` only. -/
theorem Reachable.frame_beside_mentioned_classes :
    let mentionC : Lazy := .pending (.expr (.constant (.named ⟨"C"⟩) "X"))
    let mentionD : Lazy := .pending (.expr (.constant (.named ⟨"D"⟩) "X"))
    let decls : List ClassDecl :=
      [.addConstant { name := "K", value := mentionC }
          (.addConstant { name := "L", value := mentionD }
            { name := ⟨"A"⟩, parent := some ⟨"B"⟩ }),
        { name := ⟨"B"⟩ },
        .addConstant { name := "X", value := .settled (.int 1) } { name := ⟨"C"⟩ }]
    let hook : Autoloader :=
      { reply := fun _ name =>
          some (.addConstant { name := "X", value := .settled (.int 2) } { name := name }) }
    let resolved (q : Registry) (c : ClassId) : Option Bool :=
      (q.registration? c).map Registration.isResolved
    ∃ r s, Run (new {}) (decls.map .register ++ [.setAutoloader hook]) r ∧
      (perform 9 (.resolveId ⟨0⟩) r).state? = some s ∧
      [⟨0⟩, ⟨1⟩, ⟨2⟩, ⟨3⟩].map (resolved s) = [some true, some true, some false, some false] ∧
      s.Reaches ⟨0⟩ ⟨1⟩ ∧ s.table? = r.table? := by
  intro mentionC mentionD decls hook resolved
  have hresults : (performAll 9 (decls.map .register ++ [.setAutoloader hook]) (new {})).bind
      (fun r => ((perform 9 (.resolveId ⟨0⟩) r).state?).map fun s =>
        ((r.standing? ⟨1⟩).map fun
            | .unresolved => true
            | _ => false,
          (s.standing? ⟨1⟩).map fun
            | .unresolved => true
            | _ => false,
          [⟨0⟩, ⟨1⟩, ⟨2⟩, ⟨3⟩].map (resolved s))) =
      some (some true, some false, [some true, some true, some false, some false]) := by
    dsimp only [decls, mentionC, mentionD, hook, resolved]
    rfl
  obtain ⟨r, hr, hresults⟩ := Option.bind_eq_some_iff.mp hresults
  obtain ⟨s, hs, hresults⟩ := Option.map_eq_some_iff.mp hresults
  rw [Prod.mk.injEq, Prod.mk.injEq] at hresults
  obtain ⟨hbefore, hafter, hall⟩ := hresults
  have hrun : Run (new {}) (decls.map .register ++ [.setAutoloader hook]) r := .of_performAll hr
  obtain ⟨hframe, htable⟩ := (Reachable.frame hrun.reachable 9).1 ⟨0⟩ s hs
  refine ⟨r, s, hrun, hs, hall, ?_, htable⟩
  rcases hframe ⟨1⟩ with (hsame | ⟨hnone, -⟩) | ⟨-, hreaches⟩
  · rw [hsame, hbefore] at hafter
    cases hafter
  · rw [hnone] at hbefore
    cases hbefore
  · exact hreaches

end Registry
end Lineage
