/-
Properties that computations keep.

A property of registries that no single change breaks is kept by whatever is
computed, and it does not matter in which order the changes are made.  `Steady`
lists the changes that looking up names and computing values can make, `Stable`
adds those of linking, and `Stable.perform` carries a property over one operation
and what it brings along.  Of the guards under which a change is made, only that of
the hook is known, that the name is not bound: a property that needs more is dealt
with by `Change`.

Beside the property stands a predicate on errors.  Values are computed without
anything being resolved, so an error that comes out of it is one of a few kinds,
or stands in a failed class, or is one that a source raises by itself
(`Program.Raises`).  The recursions themselves are those of `PassesOn`.
-/
import Lineage.Proofs.PassOn

namespace Lineage

/-! ## Errors of a source -/

/-- Every error that the program ends with satisfies `E`, as long as the errors
that its fetches are answered with do. -/
def Program.Raises (E : Error → Prop) : Program → Prop
  | .done result => ∀ e, result = .error e → E e
  | .fetch _ _ next => ∀ answer, (∀ e, answer = .error e → E e) → (next answer).Raises E
  | .note _ next => next.Raises E

namespace Program

variable {E : Error → Prop}

theorem raises_of_forall (h : ∀ e, E e) (p : Program) : p.Raises E := by
  induction p with
  | done result => exact fun e _ => h e
  | fetch qualifier name next ih => exact fun answer _ => ih answer
  | note label next ih => exact ih

theorem Raises.andThen {next : Except Error Value → Program} {p : Program} (hp : p.Raises E)
    (hnext : ∀ result, (∀ e, result = .error e → E e) → (next result).Raises E) :
    (p.andThen next).Raises E := by
  induction p with
  | done result => exact hnext result hp
  | fetch qualifier name rest ih => exact fun answer ha => ih answer (hp answer ha)
  | note label rest ih => exact ih hp

theorem Raises.onValue {next : Value → Program} {p : Program} (hp : p.Raises E)
    (hnext : ∀ v, (next v).Raises E) : (p.onValue next).Raises E := by
  refine hp.andThen fun result hresult => ?_
  cases result with
  | ok v => exact hnext v
  | error e =>
    intro e' he
    cases he
    exact hresult e rfl

end Program

/-- What an operator cannot do is a failure of the evaluation. -/
theorem Operator.apply_eq_error (op : Operator) {a b : Value} {e : Error}
    (h : op.apply a b = .error e) : ∃ failure, e = .evaluation failure := by
  cases op <;>
    simp only [apply, Value.add, Value.sub, Value.mul, Value.numeric, Value.div, Value.mod,
      Value.bitOr, Value.bitAnd, Value.bitwise, Value.concat] at h
  all_goals
    repeat' split at h
    all_goals first
      | cases h; exact ⟨_, rfl⟩
      | cases h

/-- An expression raises nothing by itself but failures of the evaluation. -/
theorem Program.raises_ofExpr {E : Error → Prop} (h : ∀ failure, E (.evaluation failure))
    (x : Expr) : (ofExpr x).Raises E := by
  induction x with
  | literal value =>
    intro e he
    cases he
  | constant qualifier name => exact fun answer ha => ha
  | binary op left right ihl ihr =>
    refine ihl.onValue fun a => ihr.onValue fun b e he => ?_
    obtain ⟨failure, rfl⟩ := Operator.apply_eq_error op he
    exact h failure
  | negate operand ih =>
    refine ih.onValue fun a e he => ?_
    obtain ⟨failure, rfl⟩ := Operator.apply_eq_error .sub he
    exact h failure

namespace Registry

variable {α β : Type} {P : Registry → Prop} {E : Error → Prop} {r : Registry}

/-! ## What a computation keeps -/

/-- However the computation ends, the property survives it, and if it ends with
an error, that is one of those described. -/
def Maintains (P : Registry → Prop) (E : Error → Prop) (x : Eval Registry α) : Prop :=
  ∀ r, P r → (x r).Meets (fun _ => P) (fun f s => P s ∧ ∀ e, f = .raised e → E e) True

namespace Maintains

variable {x : Eval Registry α}

/-- The property alone. -/
theorem forget (hx : Maintains P E x) : Maintains P (fun _ => True) x :=
  fun r hr => (hx r hr).imp (fun _ _ h => h) (fun _ _ h => ⟨h.1, fun _ _ => trivial⟩) id

/-- How a failure with such an error is described. -/
theorem described {e : Error} (h : E e) (hr : P r) :
    P r ∧ ∀ e', Fault.raised e = .raised e' → E e' :=
  ⟨hr, fun _ he => by cases he; exact h⟩

theorem pure (a : α) : Maintains P E (pure a) := PassesOn.pure a

theorem get : Maintains P E Eval.get := PassesOn.get

theorem modify {f : Registry → Registry} (h : ∀ r, P r → P (f r)) : Maintains P E (.modify f) :=
  PassesOn.modify h

theorem bind {f : α → Eval Registry β} (hx : Maintains P E x) (hf : ∀ a, Maintains P E (f a)) :
    Maintains P E (x >>= f) :=
  PassesOn.bind hx hf

theorem ofExcept {result : Except Error α} (h : ∀ e, result = .error e → E e) :
    Maintains P E (.ofExcept result) :=
  PassesOn.ofExcept fun e he _ hr => described (h e he) hr

/-- What an attempt is followed by may rely on the errors that it can turn into
results. -/
theorem attempt_bind {f : Except Error α → Eval Registry β} (hx : Maintains P E x)
    (hf : ∀ result, (∀ e, result = .error e → E e) → Maintains P E (f result)) :
    Maintains P E (x.attempt >>= f) := by
  refine PassesOn.attempt_bind hx (fun a => hf (.ok a) fun e he => by cases he) fun e s hs => ?_
  exact hf (.error e) (fun e' he => by cases he; exact hs.2 e rfl) s hs.1

end Maintains

/-! ## Looking up names and computing values -/

/-- No change made by looking up a name or computing a value breaks the property,
and `E` holds of every error that this can raise. -/
structure Steady (P : Registry → Prop) (E : Error → Prop) : Prop where
  autoload : ∀ name r, r.idOf? name = none → P r → P (r.autoload name)
  note : ∀ label r, P r → P (r.note label)
  began : ∀ site r, P r → P (r.beginEvaluation site)
  ended : ∀ site result r, P r → P (r.endEvaluation site result)
  classNotFound : ∀ name, E (.classNotFound name)
  noParentScope : ∀ name, E (.noParentScope name)
  undefinedConstant : ∀ className name, E (.undefinedConstant className name)
  circularConstant : ∀ className name, E (.circularConstant className name)
  /-- Errors of failed classes are raised again. -/
  failed : ∀ r id e, P r → r.standing? id = some (.failed e) → E e
  source : ∀ r site source, P r → r.lazy? site = some (.pending source) →
    source.toProgram.Raises E

namespace Steady

variable (h : Steady P E)
include h

theorem lookup (name : QualifiedName) : Maintains P E (lookup name) := by
  intro r hr
  unfold Registry.lookup
  split
  · exact hr
  · rename_i hunbound
    have hloaded := h.autoload name r hunbound hr
    dsimp only
    split
    · exact hloaded
    · exact Maintains.described (h.classNotFound _) hloaded

theorem evaluate {scope : Scope Registry} (hnote : scope.note = Registry.note)
    (hfetch : ∀ qualifier name, Maintains P E (scope.fetch qualifier name)) {p : Program}
    (hp : p.Raises E) : Maintains P E (p.evaluate scope) := by
  induction p with
  | done result => exact .ofExcept hp
  | fetch qualifier name next ih =>
    exact (hfetch qualifier name).attempt_bind fun answer ha => ih answer (hp answer ha)
  | note label next ih =>
    refine Maintains.bind (.modify fun r hr => ?_) fun _ => ih hp
    rw [hnote]
    exact h.note label r hr

/-- What survives failures passes through the recursions like any other property. -/
theorem passing : ValuePassing P fun f s => P s ∧ ∀ e, f = .raised e → E e where
  lookup := h.lookup
  unissued _ _ hr := ⟨hr, fun e he => by cases he⟩
  noParentScope name _ := Maintains.described (h.noParentScope name)
  undefinedConstant className name _ := Maintains.described (h.undefinedConstant className name)
  circularConstant className name _ := Maintains.described (h.circularConstant className name)
  failed r id e hr hst := Maintains.described (h.failed r id e hr hst) hr
  source r site source scope hr hp hnote hfetch := by
    intro s hs
    rw [Initializer.evaluate_eq]
    exact h.evaluate hnote hfetch (h.source r site source hr hp) s hs
  began := h.began
  computed site v := h.ended site (.ok v)
  gaveUp site e _ hs := ⟨h.ended site (.error e) _ hs.1, hs.2⟩

theorem force (depth : Nat) (site : LazySite) : Maintains P E (force depth site) :=
  h.passing.force depth site

theorem forceAll (depth : Nat) (id : ClassId) (d : ClassDecl) :
    Maintains P E (forceAll (Registry.force depth) id d) :=
  h.passing.forceAll depth id d

theorem constant (depth : Nat) (id : ClassId) (name : String) :
    Maintains P E (constant depth id name) :=
  h.passing.constant depth id name

end Steady

/-! ## Linking -/

/-- No change made by resolving a class breaks the property either. -/
structure Stable (P : Registry → Prop) : Prop extends Steady P fun _ => True where
  beganLinking : ∀ id r, P r → P (r.beginLinking id)
  endedLinking : ∀ id result r, P r → P (r.endLinking id result)

/-- Nothing is said of errors. -/
theorem Maintains.questioned (question : Registry → Except Fault α) :
    Maintains P (fun _ => True) (.ask question) :=
  PassesOn.ask fun _ _ hr _ => ⟨hr, fun _ _ => trivial⟩

theorem Stable.resolveId (h : Stable P) (depth : Nat) (id : ClassId) :
    Maintains P (fun _ => True) (resolveId depth id) := by
  have hpassing : Passing P fun f s => P s ∧ ∀ e, f = .raised e → True :=
    { h.passing with
      fails := fun _ _ hr => ⟨hr, fun _ _ => trivial⟩
      beganLinking := h.beganLinking
      linked := fun id links => h.endedLinking id (.ok links)
      refused := fun id e _ hs => ⟨h.endedLinking id (.error e) _ hs.1, hs.2⟩ }
  exact hpassing.resolveId depth id

theorem resolveFrom_maintains {resolve : ClassId → Eval Registry Unit}
    (hresolve : ∀ p, Maintains P (fun _ => True) (resolve p)) (depth : Nat) :
    ∀ position, Maintains P (fun _ => True) (resolveFrom resolve depth position) := by
  induction depth with
  | zero => exact fun _ _ _ => trivial
  | succ depth ih =>
    intro position
    refine Maintains.get.bind fun r => ?_
    split
    · refine (hresolve _).attempt_bind fun result _ => (ih (position + 1)).bind fun rest => ?_
      cases result <;> exact .pure _
    · exact .pure []

/-! ## Static values -/

section Statics

variable (hstatics : ∀ id table r, P r → P (r.setStatics id table))
include hstatics

theorem statics_maintains (id : ClassId) : Maintains P (fun _ => True) (statics id) := by
  refine (Maintains.questioned _).bind fun _ => (Maintains.questioned _).bind fun found => ?_
  cases found.statics with
  | some table => exact .pure table
  | none => exact (Maintains.modify (hstatics id _)).bind fun _ => .pure _

/-- Reading static values and then writing others in their place. -/
theorem statics_bind_maintains (id : ClassId) (f : StaticTable → StaticTable)
    (answer : StaticTable → α) :
    Maintains P (fun _ => True) (do
      let table ← statics id
      .modify (setStatics id (f table))
      pure (answer table) : Eval Registry α) :=
  (statics_maintains hstatics id).bind fun _ => (Maintains.modify (hstatics id _)).bind fun _ =>
    .pure _

omit hstatics in
theorem staticOwner_maintains (name : String) (depth : Nat) :
    ∀ id, Maintains P (fun _ => True) (staticOwner name depth id) := by
  induction depth with
  | zero => exact fun _ _ _ => trivial
  | succ depth ih =>
    intro id
    refine (Maintains.questioned _).bind fun links => (Maintains.questioned _).bind fun d => ?_
    split
    · exact .pure _
    · split
      · exact ih _
      · exact .pure _

theorem staticProperty_maintains (depth : Nat) (id : ClassId) (name : String) :
    Maintains P (fun _ => True) (staticProperty depth id name) := by
  refine (staticOwner_maintains name depth id).bind fun owner => ?_
  cases owner with
  | none => exact .pure _
  | some owner => exact (statics_maintains hstatics owner).bind fun _ => .pure _

theorem setStaticProperty_maintains (depth : Nat) (id : ClassId) (name : String) (value : Value) :
    Maintains P (fun _ => True) (setStaticProperty depth id name value) := by
  refine (staticOwner_maintains name depth id).bind fun owner => ?_
  cases owner with
  | none => exact .pure _
  | some owner =>
    exact statics_bind_maintains hstatics owner (·.replace name value) (·.get? name)

end Statics

end Registry

/-! ## Operations -/

namespace Operation

/-- The declaration that an operation registers, if its name is free. -/
def declaration? : Operation → Option ClassDecl
  | .register d => some d
  | .declare d => some d
  | _ => none

/-- The hook that an operation puts in place, or that it takes the hook away. -/
def hook? : Operation → Option (Option Autoloader)
  | .setAutoloader loader => some (some loader)
  | .clearAutoloader => some none
  | _ => none

/-- The operation is one on static values. -/
def isStatic : Operation → Bool
  | .statics _ => true
  | .setStatic _ _ _ => true
  | .replaceStatics _ _ => true
  | .staticProperty _ _ => true
  | .setStaticProperty _ _ _ => true
  | _ => false

/-- The operation resolves classes. -/
def resolves : Operation → Bool
  | .declare _ => true
  | .resolve _ => true
  | .resolveId _ => true
  | .resolveAll => true
  | _ => false

end Operation

namespace Registry

variable {P : Registry → Prop}

/-- What an operation does by itself, beside looking up, computing and linking,
does not break the property. -/
structure Brings (P : Registry → Prop) (op : Operation) : Prop where
  declared : ∀ d, op.declaration? = some d → ∀ r, P r → r.contains d.name = false → P (r.append d)
  hooked : ∀ loader?, op.hook? = some loader? → ∀ r, P r → P { r with autoloader := loader? }
  statics : op.isStatic = true → ∀ id table r, P r → P (r.setStatics id table)

theorem Brings.register {op : Operation} (hop : Brings P op) {d : ClassDecl}
    (hd : op.declaration? = some d) : Maintains P (fun _ => True) (register d) := by
  intro r hr
  unfold Registry.register
  split
  · exact ⟨hr, fun _ _ => trivial⟩
  · rename_i hfree
    exact hop.declared d hd r hr (by simpa using hfree)

/-- An operation keeps a property if looking up names, reading constants and, where
it resolves classes, resolution do, and if what it brings along does not break it. -/
theorem perform_maintains {op : Operation} (hop : Brings P op) {depth : Nat}
    (hlookup : ∀ name, Maintains P (fun _ => True) (lookup name))
    (hconstant : ∀ id name, Maintains P (fun _ => True) (constant depth id name))
    (hresolve : op.resolves = true → ∀ id, Maintains P (fun _ => True) (resolveId depth id)) :
    Maintains P (fun _ => True) (perform depth op) := by
  cases op with
  | register d => exact (hop.register rfl).bind fun _ => .pure _
  | declare d =>
    refine Maintains.bind (Maintains.bind (hop.register rfl) fun id => ?_) fun _ => .pure _
    exact (hresolve rfl id).bind fun _ => .pure _
  | setAutoloader loader => exact (Maintains.modify (hop.hooked _ rfl)).bind fun _ => .pure _
  | clearAutoloader => exact (Maintains.modify (hop.hooked _ rfl)).bind fun _ => .pure _
  | find name => exact Maintains.get.bind fun _ => .pure _
  | contains name => exact Maintains.get.bind fun _ => .pure _
  | lookup name => exact (hlookup name).bind fun _ => .pure _
  | resolve name =>
    refine Maintains.bind (Maintains.bind (hlookup name) fun id => ?_) fun _ => .pure _
    exact (hresolve rfl id).bind fun _ => .pure _
  | resolveId id => exact (hresolve rfl id).bind fun _ => .pure _
  | resolveAll =>
    exact (resolveFrom_maintains (hresolve rfl) depth 0).bind fun _ => .pure _
  | isResolved id => exact (Maintains.questioned _).bind fun _ => .pure _
  | resolutionError id => exact (Maintains.questioned _).bind fun _ => .pure _
  | links id => exact (Maintains.questioned _).bind fun _ => .pure _
  | decl id => exact Maintains.get.bind fun _ => .pure _
  | classes => exact Maintains.get.bind fun _ => .pure _
  | size => exact Maintains.get.bind fun _ => .pure _
  | config => exact Maintains.get.bind fun _ => .pure _
  | text => exact Maintains.get.bind fun _ => .pure _
  | isInstanceOf id candidate => exact (Maintains.questioned _).bind fun _ => .pure _
  | findMethod id name => exact (Maintains.questioned _).bind fun _ => .pure _
  | constructor id => exact (Maintains.questioned _).bind fun _ => .pure _
  | sameMethod a m b n => exact (Maintains.questioned _).bind fun _ => .pure _
  | constant id name => exact (hconstant id name).bind fun _ => .pure _
  | statics id => exact (statics_maintains (hop.statics rfl) id).bind fun _ => .pure _
  | setStatic id name value =>
    exact (statics_bind_maintains (hop.statics rfl) id (·.put name value)
      (·.get? name)).bind fun _ => .pure _
  | replaceStatics id table =>
    exact (statics_bind_maintains (hop.statics rfl) id (fun _ => table)
      fun before => before).bind fun _ => .pure _
  | staticOwner id name => exact (staticOwner_maintains name depth id).bind fun _ => .pure _
  | staticProperty id name =>
    exact (staticProperty_maintains (hop.statics rfl) depth id name).bind fun _ => .pure _
  | setStaticProperty id name value =>
    exact (setStaticProperty_maintains (hop.statics rfl) depth id name value).bind fun _ => .pure _

/-- A steady property is kept by an operation that resolves nothing, if what it
brings along does not break it. -/
theorem Steady.perform (h : Steady P fun _ => True) {op : Operation} (hop : Brings P op)
    (hnot : op.resolves = false) (depth : Nat) :
    Maintains P (fun _ => True) (perform depth op) := by
  refine perform_maintains hop h.lookup (h.constant depth) fun hresolves => ?_
  rw [hnot] at hresolves
  cases hresolves

/-- A stable property is kept by every operation that brings nothing along that
breaks it. -/
theorem Stable.perform (h : Stable P) {op : Operation} (hop : Brings P op) (depth : Nat) :
    Maintains P (fun _ => True) (perform depth op) :=
  perform_maintains hop h.lookup (h.constant depth) fun _ => h.resolveId depth

/-- What every operation of a run keeps holds at its end. -/
theorem Maintains.run {r s : Registry} {ops : List Operation} (hrun : Run r ops s)
    (hops : ∀ op ∈ ops, ∀ depth, Maintains P (fun _ => True) (perform depth op)) (hr : P r) :
    P s := by
  induction hrun with
  | nil => exact hr
  | @cons r s t op ops depth first rest ih =>
    have hs := Outcome.Meets.of_state?
      ((hops op List.mem_cons_self depth r hr).imp (fun _ _ hs => hs) (fun _ _ hs => hs.1) id) first
    exact ih (fun op hop => hops op (List.mem_cons_of_mem _ hop)) hs

theorem Stable.run (h : Stable P) {r s : Registry} {ops : List Operation} (hrun : Run r ops s)
    (hops : ∀ op ∈ ops, Brings P op) (hr : P r) : P s :=
  Maintains.run hrun (fun op hop => h.perform (hops op hop)) hr

end Registry
end Lineage
