/-
Postconditions of computations.

`Outcome.Meets` says what holds when a computation ends with a value, what holds
when it ends with a failure, and what is known if the bound on nesting was spent.
The rules below go through a computation from its first step to its last.
-/
import Lineage.Outcome

namespace Lineage

namespace Outcome

variable {σ α : Type}

/-- The outcome ends in a state and with a result as described.  `spent` is what
follows if the bound on nesting was too small. -/
def Meets (o : Outcome σ α) (onValue : α → σ → Prop) (onFailure : Fault → σ → Prop)
    (spent : Prop) : Prop :=
  match o with
  | .value a s => onValue a s
  | .failure f s => onFailure f s
  | .tooDeep => spent

theorem Meets.imp {o : Outcome σ α} {Q Q' : α → σ → Prop} {E E' : Fault → σ → Prop}
    {D D' : Prop} (h : o.Meets Q E D) (hQ : ∀ a s, Q a s → Q' a s)
    (hE : ∀ f s, E f s → E' f s) (hD : D → D') : o.Meets Q' E' D' := by
  cases o with
  | value a s => exact hQ a s h
  | failure f s => exact hE f s h
  | tooDeep => exact hD h

theorem Meets.and {o : Outcome σ α} {Q Q' : α → σ → Prop} {E E' : Fault → σ → Prop}
    {D D' : Prop} (h : o.Meets Q E D) (h' : o.Meets Q' E' D') :
    o.Meets (fun a s => Q a s ∧ Q' a s) (fun f s => E f s ∧ E' f s) (D ∧ D') := by
  cases o with
  | value a s => exact ⟨h, h'⟩
  | failure f s => exact ⟨h, h'⟩
  | tooDeep => exact ⟨h, h'⟩

/-- What holds under a condition may be told together with the condition. -/
theorem Meets.of_imp {o : Outcome σ α} {p : Prop} {Q : α → σ → Prop} {E : Fault → σ → Prop}
    (h : p → o.Meets Q E True) :
    o.Meets (fun a s => p → Q a s) (fun f s => p → E f s) True := by
  cases o with
  | value a s => exact h
  | failure f s => exact h
  | tooDeep => trivial

/-- The state that a computation leaves behind, if it ends. -/
def state? : Outcome σ α → Option σ
  | .value _ s => some s
  | .failure _ s => some s
  | .tooDeep => none

/-- What a computation ends with, if it ends, without the state. -/
def answer? : Outcome σ α → Option (Except Fault α)
  | .value a _ => some (.ok a)
  | .failure f _ => some (.error f)
  | .tooDeep => none

theorem answer?_eq_ok_iff {o : Outcome σ α} {a : α} :
    o.answer? = some (.ok a) ↔ ∃ s, o = .value a s := by
  cases o <;> simp [answer?]

theorem answer?_eq_error_iff {o : Outcome σ α} {f : Fault} :
    o.answer? = some (.error f) ↔ ∃ s, o = .failure f s := by
  cases o <;> simp [answer?]

/-- Whether a computation ends with a value. -/
def isValue : Outcome σ α → Bool
  | .value _ _ => true
  | _ => false

theorem isValue_iff {o : Outcome σ α} : o.isValue = true ↔ ∃ a s, o = .value a s := by
  cases o <;> simp [isValue]

/-- What holds of the last state whichever way a computation ends. -/
theorem Meets.of_state? {o : Outcome σ α} {P : σ → Prop} {D : Prop} {s : σ}
    (h : o.Meets (fun _ => P) (fun _ => P) D) (hs : o.state? = some s) : P s := by
  cases o with
  | value a t => cases hs; exact h
  | failure f t => cases hs; exact h
  | tooDeep => cases hs

/-- What is known if the bound on nesting was spent. -/
theorem Meets.of_tooDeep {o : Outcome σ α} {Q : α → σ → Prop} {E : Fault → σ → Prop} {D : Prop}
    (h : o.Meets Q E D) (ho : o = .tooDeep) : D := by
  rw [ho] at h
  exact h

/-- What follows from a spent bound may be found out on its own. -/
theorem Meets.bounded {o : Outcome σ α} {Q : α → σ → Prop} {E : Fault → σ → Prop} {D D' : Prop}
    (h : o.Meets Q E D) (hspent : o = .tooDeep → D') : o.Meets Q E D' := by
  cases o with
  | value a s => exact h
  | failure f s => exact h
  | tooDeep => exact hspent rfl

/-- Two outcomes are the same but for the states, which are as described.  If one
of the bounds on nesting was spent, nothing is said. -/
inductive Paired (onValue : α → σ → σ → Prop) (onFailure : σ → σ → Prop) :
    Outcome σ α → Outcome σ α → Prop where
  | spentLeft (o : Outcome σ α) : Paired onValue onFailure .tooDeep o
  | spentRight (o : Outcome σ α) : Paired onValue onFailure o .tooDeep
  | value {a : α} {s t : σ} (h : onValue a s t) :
      Paired onValue onFailure (.value a s) (.value a t)
  | failure {f : Fault} {s t : σ} (h : onFailure s t) :
      Paired onValue onFailure (.failure f s) (.failure f t)

theorem Paired.imp {Q Q' : α → σ → σ → Prop} {R R' : σ → σ → Prop} {o o' : Outcome σ α}
    (h : Paired Q R o o') (hQ : ∀ a s t, Q a s t → Q' a s t) (hR : ∀ s t, R s t → R' s t) :
    Paired Q' R' o o' := by
  cases h with
  | spentLeft => exact .spentLeft _
  | spentRight => exact .spentRight _
  | value h => exact .value (hQ _ _ _ h)
  | failure h => exact .failure (hR _ _ h)

theorem Paired.meets_self {Q : α → σ → σ → Prop} {R : σ → σ → Prop} {o : Outcome σ α}
    (h : Paired Q R o o) : o.Meets (fun a s => Q a s s) (fun _ s => R s s) True := by
  cases o with
  | value a s => cases h with | value h => exact h
  | failure f s => cases h with | failure h => exact h
  | tooDeep => exact trivial

end Outcome

namespace Eval

variable {σ α β : Type} {Q : α → σ → Prop} {E : Fault → σ → Prop} {D : Prop} {s : σ}

/-! ## One rule for each way to build a computation -/

theorem meets_get {Q : σ → σ → Prop} (h : Q s s) : ((get : Eval σ σ) s).Meets Q E D := h

theorem meets_modify {Q : Unit → σ → Prop} {f : σ → σ} (h : Q () (f s)) :
    (modify f s).Meets Q E D := h

/-- A sequence: what the first part leaves behind is what the second starts
from. -/
theorem meets_bind {x : Eval σ α} {f : α → Eval σ β} {R : β → σ → Prop}
    (hx : (x s).Meets Q E D) (hf : ∀ a t, Q a t → (f a t).Meets R E D) :
    ((x >>= f) s).Meets R E D := by
  rw [bind_apply]
  cases h : x s with
  | value a t => rw [h] at hx; exact hf a t hx
  | failure fault t => rw [h] at hx; exact hx
  | tooDeep => rw [h] at hx; exact hx

/-- Two ways to go on are the same if they are in all states that they start from. -/
theorem bind_congr {x : Eval σ α} {f g : α → Eval σ β} (hx : (x s).Meets Q E D)
    (h : ∀ a t, Q a t → f a t = g a t) : (x >>= f) s = (x >>= g) s := by
  rw [bind_apply, bind_apply]
  cases hrun : x s with
  | value a t => rw [hrun] at hx; exact h a t hx
  | failure fault t => rfl
  | tooDeep => rfl

/-- What follows a computation sees no more of it than how it ends. -/
theorem bind_congr_left {x y : Eval σ α} (h : x s = y s) (f : α → Eval σ β) :
    (x >>= f) s = (y >>= f) s := by
  rw [bind_apply, bind_apply, h]

/-- What follows an attempt sees no more of it than how it ends. -/
theorem attempt_bind_congr {x y : Eval σ α} (h : x s = y s) (f : Except Error α → Eval σ β) :
    (x.attempt >>= f) s = (y.attempt >>= f) s := by
  rw [bind_apply, bind_apply, attempt, attempt, h]

/-- A sequence spends the bound on nesting if one of its parts does. -/
theorem bind_eq_tooDeep_iff {x : Eval σ α} {f : α → Eval σ β} :
    (x >>= f) s = .tooDeep ↔ x s = .tooDeep ∨ ∃ a t, x s = .value a t ∧ f a t = .tooDeep := by
  rw [bind_apply]
  cases x s with
  | value a t =>
    constructor
    · intro h
      exact .inr ⟨a, t, rfl, h⟩
    · rintro (h | ⟨_, _, h, h'⟩)
      · cases h
      · cases h
        exact h'
  | failure fault t => simp
  | tooDeep => simp

theorem attempt_eq_tooDeep_iff {x : Eval σ α} : x.attempt s = .tooDeep ↔ x s = .tooDeep := by
  unfold attempt
  cases x s with
  | value a t => simp
  | failure fault t => cases fault <;> simp
  | tooDeep => simp

theorem meets_ask {question : σ → Except Fault α} (hok : ∀ a, question s = .ok a → Q a s)
    (herr : ∀ f, question s = .error f → E f s) : ((ask question) s).Meets Q E D := by
  unfold ask
  cases h : question s with
  | ok a => exact hok a h
  | error f => exact herr f h

/-- An attempt ends with a value unless the caller made a mistake. -/
theorem meets_attempt {x : Eval σ α} {R : Except Error α → σ → Prop}
    {F : Fault → σ → Prop} (hx : (x s).Meets Q E D) (hok : ∀ a t, Q a t → R (.ok a) t)
    (herr : ∀ e t, E (.raised e) t → R (.error e) t)
    (hun : ∀ id t, E (.unissued id) t → F (.unissued id) t) :
    (x.attempt s).Meets R F D := by
  unfold attempt
  cases h : x s with
  | value a t => rw [h] at hx; exact hok a t hx
  | failure fault t =>
    rw [h] at hx
    cases fault with
    | raised e => exact herr e t hx
    | unissued id => exact hun id t hx
  | tooDeep => rw [h] at hx; exact hx

theorem attempt_eq_ok_iff {x : Eval σ α} {a : α} {t : σ} :
    x.attempt s = .value (.ok a) t ↔ x s = .value a t := by
  unfold attempt
  cases x s with
  | value b u => simp
  | failure fault u => cases fault <;> simp
  | tooDeep => simp

/-- A loop: `I before` holds when the members of `before` are done. -/
theorem meets_forEach {f : α → Eval σ Unit} {all : List α} {I : List α → σ → Prop}
    (hstep : ∀ before a after t, before ++ a :: after = all → I before t →
      (f a t).Meets (fun _ => I (before ++ [a])) E D) :
    ∀ (todo before : List α) (s : σ), before ++ todo = all → I before s →
      (forEach f todo s).Meets (fun _ => I all) E D := by
  intro todo
  induction todo with
  | nil =>
    intro before s hall hI
    rw [List.append_nil] at hall
    exact hall ▸ hI
  | cons a rest ih =>
    intro before s hall hI
    refine meets_bind (hstep before a rest s hall hI) fun _ t ht => ?_
    exact ih (before ++ [a]) t (by rw [← hall, List.append_assoc]; rfl) ht

/-- Two loops are the same if each member is dealt with in the same way, in all states
that the loop comes to. -/
theorem forEach_congr {f g : α → Eval σ Unit} {I : σ → Prop} {list : List α}
    (h : ∀ a ∈ list, ∀ s, I s → f a s = g a s)
    (hkeep : ∀ a ∈ list, ∀ s, I s → (g a s).Meets (fun _ => I) E D) (hs : I s) :
    forEach f list s = forEach g list s := by
  induction list generalizing s with
  | nil => rfl
  | cons a rest ih =>
    show (f a >>= fun _ => forEach f rest) s = (g a >>= fun _ => forEach g rest) s
    rw [bind_apply, h a List.mem_cons_self s hs, ← bind_apply]
    refine bind_congr (hkeep a List.mem_cons_self s hs) fun _ t ht => ?_
    exact ih (fun b hb => h b (List.mem_cons_of_mem a hb))
      (fun b hb => hkeep b (List.mem_cons_of_mem a hb)) ht

end Eval
end Lineage
