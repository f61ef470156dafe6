/-
The bound on nesting.

Resolution and evaluation are given a number that bounds how deep they nest.  The
theorem of this file, `perform_refines`, says that the number does not show in
any result: an operation that ends with one bound ends in the same way, and in the
same state, with every larger one.  `perform_eq_or_eq` compares any two bounds.
-/
import Lineage.Proofs.Steady

namespace Lineage
namespace Eval

variable {σ α β : Type}

/-- Wherever the first computation ends, the second one ends in the same way. -/
def Refines (x y : Eval σ α) : Prop := ∀ s, x s = .tooDeep ∨ x s = y s

namespace Refines

variable {x y : Eval σ α}

theorem refl (x : Eval σ α) : x.Refines x := fun _ => .inr rfl

theorem tooDeep (y : Eval σ α) : Eval.tooDeep.Refines y := fun _ => .inl rfl

theorem trans {z : Eval σ α} (h : x.Refines y) (h' : y.Refines z) : x.Refines z := by
  intro s
  rcases h s with hspent | heq
  · exact .inl hspent
  · rw [heq]
    exact h' s

theorem bind {f g : α → Eval σ β} (hx : x.Refines y) (hf : ∀ a, (f a).Refines (g a)) :
    (x >>= f).Refines (y >>= g) := by
  intro s
  rw [bind_apply, bind_apply]
  rcases hx s with hspent | heq
  · rw [hspent]
    exact .inl rfl
  · rw [← heq]
    cases x s with
    | value a t => exact hf a t
    | failure f t => exact .inr rfl
    | tooDeep => exact .inl rfl

theorem attempt (hx : x.Refines y) : x.attempt.Refines y.attempt := by
  intro s
  unfold Eval.attempt
  rcases hx s with hspent | heq
  · rw [hspent]
    exact .inl rfl
  · rw [heq]
    exact .inr rfl

theorem forEach {f g : α → Eval σ Unit} (hf : ∀ a, (f a).Refines (g a)) (list : List α) :
    (Eval.forEach f list).Refines (Eval.forEach g list) := by
  induction list with
  | nil => exact refl _
  | cons a rest ih => exact (hf a).bind fun _ => ih

/-- What only goes on after a computation shows no more than the computation. -/
theorem andThen {f : α → Eval σ β} (hx : x.Refines y) : (x >>= f).Refines (y >>= f) :=
  hx.bind fun _ => refl _

/-- A member is read as it stands, or its value is computed. -/
theorem read {compute compute' : Initializer → Eval σ Value} (l : Option Lazy)
    (h : ∀ source, (compute source).Refines (compute' source)) :
    Eval.Refines
      (match l with
      | none => Pure.pure .null
      | some (.settled value) => Pure.pure value
      | some (.pending source) => compute source)
      (match l with
      | none => Pure.pure .null
      | some (.settled value) => Pure.pure value
      | some (.pending source) => compute' source) := by
  cases l with
  | none => exact refl _
  | some l =>
    cases l with
    | settled v => exact refl _
    | pending source => exact h source

end Refines

/-- The computation never meets the bound on nesting. -/
def Prompt (x : Eval σ α) : Prop := ∀ s, x s ≠ .tooDeep

namespace Prompt

theorem pure (a : α) : Prompt (pure a : Eval σ α) := fun _ h => by cases h

theorem get : Prompt (Eval.get : Eval σ σ) := fun _ h => by cases h

theorem modify (f : σ → σ) : Prompt (Eval.modify f) := fun _ h => by cases h

theorem ask (question : σ → Except Fault α) : Prompt (Eval.ask question) := by
  intro s h
  unfold Eval.ask at h
  cases hq : question s with
  | ok a =>
    rw [hq] at h
    cases h
  | error f =>
    rw [hq] at h
    cases h

theorem bind {x : Eval σ α} {f : α → Eval σ β} (hx : x.Prompt) (hf : ∀ a, (f a).Prompt) :
    (x >>= f).Prompt := by
  intro s h
  rcases bind_eq_tooDeep_iff.mp h with h | ⟨a, t, -, h⟩
  · exact hx s h
  · exact hf a t h

/-- If what comes after it never meets the bound, it was spent before. -/
theorem spent {x : Eval σ α} {f : α → Eval σ β} {s : σ} (hf : ∀ a, (f a).Prompt)
    (h : (x >>= f) s = .tooDeep) : x s = .tooDeep := by
  rcases bind_eq_tooDeep_iff.mp h with h | ⟨a, t, -, h⟩
  · exact h
  · exact absurd h (hf a t)

end Prompt

end Eval

namespace Registry

open Eval (Refines)

/-! ## Evaluation -/

theorem searchReferences_refines
    {search search' : ClassId → List ClassId → Eval Registry (Option ClassId × List ClassId)}
    (hsearch : ∀ id visited, Refines (search id visited) (search' id visited))
    (names : List QualifiedName) (visited : List ClassId) :
    Refines (searchReferences search names visited) (searchReferences search' names visited) := by
  induction names generalizing visited with
  | nil => exact .refl _
  | cons name rest ih =>
    refine (Refines.refl _).bind fun id => (hsearch id visited).bind fun ⟨found, between⟩ => ?_
    cases found with
    | some owner => exact .refl _
    | none => exact ih between

theorem searchConstant_refines (name : String) (depth : Nat) :
    ∀ id visited, Refines (searchConstant name depth id visited)
      (searchConstant name (depth + 1) id visited) := by
  induction depth with
  | zero => exact fun _ _ => .tooDeep _
  | succ depth ih =>
    intro id visited
    unfold searchConstant
    split
    · exact .refl _
    · refine (Refines.refl _).bind fun d => ?_
      split
      · exact .refl _
      · exact searchReferences_refines ih _ _

theorem fetchWith_refines {force force' : LazySite → Eval Registry Value}
    (hforce : ∀ site, Refines (force site) (force' site)) (depth : Nat) (current : ClassId)
    (qualifier : Qualifier) (name : String) :
    Refines (fetchWith force depth current qualifier name)
      (fetchWith force' (depth + 1) current qualifier name) := by
  refine (Refines.refl _).bind fun id => ?_
  refine (searchConstant_refines name depth id []).bind fun ⟨found, _⟩ => ?_
  cases found with
  | some owner => exact hforce _
  | none => exact .refl _

theorem evaluate_refines {σ : Type} {scope scope' : Scope σ} (hnote : scope.note = scope'.note)
    (hfetch : ∀ qualifier name, Refines (scope.fetch qualifier name) (scope'.fetch qualifier name))
    (p : Program) : Refines (p.evaluate scope) (p.evaluate scope') := by
  induction p with
  | done result => exact .refl _
  | fetch qualifier name next ih => exact (hfetch qualifier name).attempt.bind ih
  | note label next ih =>
    unfold Program.evaluate
    rw [hnote]
    exact (Refines.refl _).bind fun _ => ih

theorem evaluateSite_refines {scope scope' : Scope Registry} (hnote : scope.note = scope'.note)
    (hfetch : ∀ qualifier name, Refines (scope.fetch qualifier name) (scope'.fetch qualifier name))
    (site : LazySite) (d : ClassDecl) (source : Initializer) :
    Refines (evaluateSite scope site d source) (evaluateSite scope' site d source) := by
  have hsource : Refines (source.evaluate scope) (source.evaluate scope') := by
    intro s
    rw [Initializer.evaluate_eq, Initializer.evaluate_eq]
    exact evaluate_refines hnote hfetch source.toProgram s
  refine (Refines.refl _).bind fun r => ?_
  split
  · exact .refl _
  · exact (Refines.refl _).bind fun _ => hsource.attempt.andThen

theorem force_refines (depth : Nat) :
    ∀ site, Refines (force depth site) (force (depth + 1) site) := by
  induction depth with
  | zero => exact fun _ => .tooDeep _
  | succ depth ih =>
    intro site
    refine (Refines.refl _).bind fun owner => ?_
    have hcompute : ∀ source, Refines
        (evaluateSite { fetch := fetchWith (force depth) depth site.owner, note := note }
          site owner.decl source)
        (evaluateSite
          { fetch := fetchWith (force (depth + 1)) (depth + 1) site.owner, note := note }
          site owner.decl source) := by
      intro source
      refine evaluateSite_refines ?_ ?_ site owner.decl source
      · rfl
      · exact fetchWith_refines ih depth site.owner
    have hread := Refines.read (owner.decl.lazy? site.member) hcompute
    cases owner.standing with
    | failed e => exact .refl _
    | unresolved => exact hread
    | resolved links => exact hread

theorem constant_refines (depth : Nat) (id : ClassId) (name : String) :
    Refines (constant depth id name) (constant (depth + 1) id name) := by
  refine (Refines.refl _).bind fun found => ?_
  have hfetch := fetchWith_refines (force_refines depth) depth id .self name
  cases found.standing with
  | failed e => exact .refl _
  | unresolved => exact hfetch
  | resolved links => exact hfetch

/-! ## Resolution -/

theorem inheritAll_refines {resolve resolve' : ClassId → Eval Registry Unit}
    (hresolve : ∀ p, Refines (resolve p) (resolve' p)) (d : ClassDecl)
    (refs : List (Role × QualifiedName)) (links : Links) :
    Refines (inheritAll resolve d refs links) (inheritAll resolve' d refs links) := by
  induction refs generalizing links with
  | nil => exact .refl _
  | cons ref rest ih =>
    have hone : Refines (inheritOne resolve d ref) (inheritOne resolve' d ref) :=
      (Refines.refl _).bind fun p => (hresolve p).andThen
    exact hone.bind fun found => ih _

theorem link_refines {resolve resolve' : ClassId → Eval Registry Unit}
    {force force' : LazySite → Eval Registry Value}
    (hresolve : ∀ p, Refines (resolve p) (resolve' p))
    (hforce : ∀ site, Refines (force site) (force' site)) (id : ClassId) :
    Refines (link resolve force id) (link resolve' force' id) := by
  rw [link_eq, link_eq]
  refine (Refines.refl _).bind fun d => ?_
  refine (inheritAll_refines hresolve d _ _).bind fun links => ?_
  refine (Refines.refl _).bind fun links => ?_
  exact (Refines.forEach (fun m => (hforce ⟨id, m⟩).andThen) d.lazyMembers).andThen

theorem resolveId_refines (depth : Nat) :
    ∀ id, Refines (resolveId depth id) (resolveId (depth + 1) id) := by
  induction depth with
  | zero => exact fun _ => .tooDeep _
  | succ depth ih =>
    intro id
    refine (Refines.refl _).bind fun found => ?_
    cases found.standing with
    | resolved links => exact .refl _
    | failed e => exact .refl _
    | unresolved =>
      refine (Refines.refl _).bind fun r => ?_
      cases r.cycle? id with
      | some e => exact .refl _
      | none =>
        refine (Refines.refl _).bind fun _ => ?_
        exact (link_refines ih (force_refines depth) id).attempt.andThen

/-- Here the bound says also how many classes are gone through. -/
theorem resolveFrom_refines {resolve resolve' : ClassId → Eval Registry Unit}
    (hresolve : ∀ p, Refines (resolve p) (resolve' p)) (depth : Nat) :
    ∀ position, Refines (resolveFrom resolve depth position)
      (resolveFrom resolve' (depth + 1) position) := by
  induction depth with
  | zero => exact fun _ => .tooDeep _
  | succ depth ih =>
    intro position
    refine (Refines.refl _).bind fun r => ?_
    split
    · refine (hresolve _).attempt.bind fun result => ?_
      exact (ih (position + 1)).andThen
    · exact .refl _

/-! ## Static values -/

theorem staticOwner_refines (name : String) (depth : Nat) :
    ∀ id, Refines (staticOwner name depth id) (staticOwner name (depth + 1) id) := by
  induction depth with
  | zero => exact fun _ => .tooDeep _
  | succ depth ih =>
    intro id
    refine (Refines.refl _).bind fun links => (Refines.refl _).bind fun d => ?_
    split
    · exact .refl _
    · cases links.parent with
      | some parent => exact ih parent
      | none => exact .refl _

/-! ## Operations -/

theorem perform_refines_succ (depth : Nat) (op : Operation) :
    Refines (perform depth op) (perform (depth + 1) op) := by
  have hresolve := resolveId_refines depth
  cases op with
  | declare d =>
    exact ((Refines.refl _).bind fun id => (hresolve id).andThen).andThen
  | resolve name => exact ((Refines.refl _).bind fun id => (hresolve id).andThen).andThen
  | resolveId id => exact (hresolve id).andThen
  | resolveAll => exact (resolveFrom_refines hresolve depth 0).andThen
  | constant id name => exact (constant_refines depth id name).andThen
  | staticOwner id name => exact (staticOwner_refines name depth id).andThen
  | staticProperty id name => exact (staticOwner_refines name depth id).andThen.andThen
  | setStaticProperty id name value => exact (staticOwner_refines name depth id).andThen.andThen
  | _ => exact .refl _

/-- An operation that ends with one bound ends in the same way with a larger one. -/
theorem perform_refines {depth depth' : Nat} (h : depth ≤ depth') (op : Operation) :
    Refines (perform depth op) (perform depth' op) := by
  induction h with
  | refl => exact .refl _
  | step _ ih => exact ih.trans (perform_refines_succ _ op)

/-- With any two bounds an operation ends in the same way, unless one of them is
too small. -/
theorem perform_eq_or_eq {depth' : Nat} (depth : Nat) {op : Operation} {r : Registry}
    (hends : perform depth' op r ≠ .tooDeep) :
    perform depth op r = .tooDeep ∨ perform depth op r = perform depth' op r := by
  rcases Nat.le_total depth depth' with h | h
  · exact perform_refines h op r
  · exact .inr ((perform_refines h op r).resolve_left hends).symm

end Registry
end Lineage
