/-
Computations that thread a state, may fail, and may meet a bound on how deep
they nest.
-/
import Lineage.ClassId
import Lineage.Error

namespace Lineage

/-- Why a computation stopped.  An error belongs to the domain and can be caught
by an expression; a class number that the registry never issued is a mistake of
the caller and cannot. -/
inductive Fault where
  | raised (error : Error)
  | unissued (id : ClassId)
  deriving DecidableEq, Repr

/-- How a computation ends.  The state survives a failure, because what was
registered or memoized on the way stays.  `tooDeep` says that the bound on
nesting was too small for an answer; it is no answer. -/
inductive Outcome (σ α : Type) where
  | value (result : α) (state : σ)
  | failure (fault : Fault) (state : σ)
  | tooDeep

/-- A computation over states of type `σ`. -/
abbrev Eval (σ α : Type) : Type := σ → Outcome σ α

namespace Eval

variable {σ α β : Type}

protected def pure (a : α) : Eval σ α :=
  fun s => .value a s

protected def bind (x : Eval σ α) (f : α → Eval σ β) : Eval σ β := fun s =>
  match x s with
  | .value a s' => f a s'
  | .failure fault s' => .failure fault s'
  | .tooDeep => .tooDeep

instance : Monad (Eval σ) where
  pure := Eval.pure
  bind := Eval.bind

/-- The present state. -/
def get : Eval σ σ :=
  fun s => .value s s

def modify (f : σ → σ) : Eval σ Unit :=
  fun s => .value () (f s)

def raise (error : Error) : Eval σ α :=
  fun s => .failure (.raised error) s

def tooDeep : Eval σ α :=
  fun _ => .tooDeep

/-- A result that was computed without the state. -/
def ofExcept : Except Error α → Eval σ α
  | .ok a => Eval.pure a
  | .error e => raise e

/-- A question to the state that leaves it as it is. -/
def ask (question : σ → Except Fault α) : Eval σ α := fun s =>
  match question s with
  | .ok a => .value a s
  | .error fault => .failure fault s

/-- Turn an error into a result.  What has been done to the state stays done. -/
def attempt (x : Eval σ α) : Eval σ (Except Error α) := fun s =>
  match x s with
  | .value a s' => .value (.ok a) s'
  | .failure (.raised e) s' => .value (.error e) s'
  | .failure (.unissued id) s' => .failure (.unissued id) s'
  | .tooDeep => .tooDeep

/-- Do something for each member of a list, in order, up to the first failure. -/
def forEach (f : α → Eval σ Unit) : List α → Eval σ Unit
  | [] => Eval.pure ()
  | a :: rest => Eval.bind (f a) fun _ => forEach f rest

/-! ## What each operation does to a state -/

@[simp] theorem pure_apply (a : α) (s : σ) : (pure a : Eval σ α) s = .value a s := rfl

@[simp] theorem get_apply (s : σ) : (get : Eval σ σ) s = .value s s := rfl

@[simp] theorem modify_apply (f : σ → σ) (s : σ) : modify f s = .value () (f s) := rfl

@[simp] theorem raise_apply (e : Error) (s : σ) :
    (raise e : Eval σ α) s = .failure (.raised e) s := rfl

@[simp] theorem tooDeep_apply (s : σ) : (tooDeep : Eval σ α) s = .tooDeep := rfl

theorem bind_apply (x : Eval σ α) (f : α → Eval σ β) (s : σ) :
    (x >>= f) s =
      match x s with
      | .value a s' => f a s'
      | .failure fault s' => .failure fault s'
      | .tooDeep => .tooDeep := rfl

/-- A sequence gives a value exactly when both parts do. -/
theorem bind_eq_value_iff {x : Eval σ α} {f : α → Eval σ β} {s t : σ} {b : β} :
    (x >>= f) s = .value b t ↔ ∃ a s', x s = .value a s' ∧ f a s' = .value b t := by
  rw [bind_apply]
  cases x s with
  | value a' s' =>
    constructor
    · intro h
      exact ⟨a', s', rfl, h⟩
    · rintro ⟨_, _, h, h'⟩
      cases h
      exact h'
  | failure fault s' => simp
  | tooDeep => simp

theorem id_map_apply (x : Eval σ α) (s : σ) : (id <$> x) s = x s := by
  show (x >>= fun a => pure (id a)) s = x s
  rw [bind_apply]
  cases x s <;> rfl

theorem bind_assoc_apply {γ : Type} (x : Eval σ α) (f : α → Eval σ β) (g : β → Eval σ γ)
    (s : σ) :
    (x >>= f >>= g) s = (x >>= fun a => f a >>= g) s := by
  simp only [bind_apply]
  cases x s <;> rfl

instance : LawfulMonad (Eval σ) :=
  LawfulMonad.mk' (Eval σ) (fun x => funext (id_map_apply x)) (fun _ _ => rfl)
    (fun x f g => funext (bind_assoc_apply x f g))

end Eval
end Lineage
