/-
Where declarations come from.

Every class of a registry was declared by an operation or supplied by a hook, and
since then values may have been stored in its declaration.  `Supplied` says so of
declarations with some property: if all that operations register and hooks can
supply has it, every class has it up to stored values.  The theorem of this file
is `Run.supplied`.

The case used most is that of declarations whose sources are expressions
(`ClassDecl.Plain`).  Computing a value then raises errors of a few kinds only, or
passes on the error of a failed class; `steady_since` says which.
-/
import Lineage.Proofs.Steady

namespace Lineage

/-! ## Declarations of a kind -/

/-- All that the hook can supply has the property. -/
def Autoloader.Supplies (ok : ClassDecl → Prop) (loader : Autoloader) : Prop :=
  ∀ asked name d, loader.reply asked name = some d → ok d

/-- What the operation registers has the property, and so has what its hook can
supply. -/
structure Operation.Supplies (ok : ClassDecl → Prop) (op : Operation) : Prop where
  declared : ∀ d, op.declaration? = some d → ok d
  hooked : ∀ loader, op.hook? = some (some loader) → loader.Supplies ok

/-- Every value of the declaration is there or has an expression for its source. -/
def ClassDecl.Plain (d : ClassDecl) : Prop :=
  ∀ m source, d.lazy? m = some (.pending source) → ∃ x, source = .expr x

/-- The value is there or has an expression for its source. -/
def Lazy.isPlain : Lazy → Bool
  | .settled _ => true
  | .pending (.expr _) => true
  | .pending (.program _) => false

theorem ClassDecl.plain_iff {d : ClassDecl} : d.Plain ↔ d.everyValue Lazy.isPlain = true := by
  rw [everyValue_iff]
  constructor
  · intro h m l hl
    cases l with
    | settled v => rfl
    | pending source =>
      obtain ⟨x, rfl⟩ := h m source hl
      rfl
  · intro h m source hl
    have hexpr := h m _ hl
    cases source with
    | expr x => exact ⟨x, rfl⟩
    | program p => cases hexpr

instance : DecidablePred ClassDecl.Plain := fun _ => decidable_of_iff _ ClassDecl.plain_iff.symm

/-- Whether evaluating an expression or fetching a constant raises the error by
itself. -/
def Error.isOfExpression : Error → Bool
  | .classNotFound _ => true
  | .noParentScope _ => true
  | .undefinedConstant _ _ => true
  | .circularConstant _ _ => true
  | .evaluation _ => true
  | _ => false

namespace Registry

variable {ok : ClassDecl → Prop} {r s : Registry} {c : ClassId}

/-- Every class was declared with the property, and the hook supplies no other
declarations. -/
structure Supplied (ok : ClassDecl → Prop) (r : Registry) : Prop where
  hook : ∀ loader, r.autoloader = some loader → loader.Supplies ok
  declared : ∀ c d', r.decl? c = some d' → ∃ d, ok d ∧ d.Settles d'

theorem Supplied.of_eq (h : r.Supplied ok) (hhook : s.autoloader = r.autoloader)
    (hdecl : ∀ c, s.decl? c = r.decl? c) : s.Supplied ok where
  hook loader hl := h.hook loader (hhook ▸ hl)
  declared c d hd := h.declared c d (hdecl c ▸ hd)

theorem Supplied.append (h : r.Supplied ok) {d : ClassDecl} (hd : ok d) :
    (r.append d).Supplied ok where
  hook := h.hook
  declared c d' hd' := by
    obtain ⟨found, hf, rfl⟩ := Option.map_eq_some_iff.mp hd'
    rcases registration?_of_append hf with hold | rfl
    · exact h.declared c _ (by rw [decl?, hold]; rfl)
    · exact ⟨d, hd, .refl d⟩

theorem Supplied.autoload (h : r.Supplied ok) (name : QualifiedName) :
    (r.autoload name).Supplied ok := by
  unfold Registry.autoload
  split
  · exact h
  · rename_i loader hl
    have hasked : Supplied ok
        ({ r with autoloader := some (loader.ask name).2 }.record (.requested name)) :=
      ⟨fun _ hl' => by cases hl'; exact h.hook loader hl, h.declared⟩
    dsimp only
    split
    · rename_i d hd
      unfold registerIfFree
      split
      · exact hasked
      · exact hasked.append (h.hook loader hl _ _ d hd)
    · exact hasked

theorem Supplied.endEvaluation (h : r.Supplied ok) (site : LazySite)
    (result : Except Error Value) : (r.endEvaluation site result).Supplied ok := by
  have hext := extends_endEvaluation site result r
  have hsize : (r.endEvaluation site result).size = r.size := by
    cases result with
    | ok v => exact size_updateAt _ _ _
    | error e => rfl
  refine ⟨fun loader hl => h.hook loader ?_, fun c d' hd' => ?_⟩
  · cases result <;> exact hl
  · have hi : r.Issued c := by
      rw [Issued, ← hsize]
      exact Issued.of_decl? hd'
    obtain ⟨d₀, hd₀⟩ := issued_iff_decl?.mp hi
    obtain ⟨d, hok, hset⟩ := h.declared c d₀ hd₀
    obtain ⟨d'', hd'', hset'⟩ := hext.declared hd₀
    rw [hd'] at hd''
    cases hd''
    exact ⟨d, hok, hset.trans hset'⟩

/-- Whatever is looked up, computed or linked, classes come from the hook only. -/
theorem stable_supplied (ok : ClassDecl → Prop) : Stable (Supplied ok) where
  autoload name r _ h := h.autoload name
  note label r h := h.of_eq rfl fun _ => rfl
  began site r h := h.of_eq rfl fun _ => rfl
  ended site result r h := h.endEvaluation site result
  classNotFound _ := trivial
  noParentScope _ := trivial
  undefinedConstant _ _ := trivial
  circularConstant _ _ := trivial
  failed _ _ _ _ _ := trivial
  source _ _ _ _ _ := Program.raises_of_forall (fun _ => trivial) _
  beganLinking id r h := h.of_eq rfl fun _ => rfl
  endedLinking id result r h := by
    refine h.of_eq ?_ fun c => decl?_endLinking id c result r
    cases result <;> rfl

theorem brings_supplied {op : Operation} (hop : op.Supplies ok) : Brings (Supplied ok) op where
  declared d hd r h _ := h.append (hop.declared d hd)
  hooked loader? hl r h := ⟨fun loader he => hop.hooked loader (by rw [hl, ← he]), h.declared⟩
  statics _ id table r h := h.of_eq rfl fun c => decl?_setStatics id c table r

/-- In every state of every run, each class is one that an operation registered or
a hook supplied, with values stored. -/
theorem Run.supplied {config : Config} {ops : List Operation} (h : Run (new config) ops r)
    (hops : ∀ op ∈ ops, op.Supplies ok) : r.Supplied ok := by
  have hnew : (new config).Supplied ok :=
    ⟨fun loader hl => (by cases hl), fun c d hd => (by cases hd)⟩
  exact (stable_supplied ok).run h (fun op hop => brings_supplied (hops op hop)) hnew

/-! ## Sources that are expressions -/

/-- No source is anything but an expression. -/
theorem Supplied.plain (h : r.Supplied ClassDecl.Plain) {site : LazySite} {source : Initializer}
    (hp : r.lazy? site = some (.pending source)) : ∃ x, source = .expr x := by
  obtain ⟨d', hd', hm⟩ := Option.bind_eq_some_iff.mp hp
  obtain ⟨d, hplain, hset⟩ := h.declared _ d' hd'
  exact hplain _ source (hset.lazy?_pending hm)

theorem standing?_of_append {d : ClassDecl} {st : Standing}
    (h : (r.append d).standing? c = some st) (hst : st ≠ .unresolved) :
    r.standing? c = some st := by
  obtain ⟨found, hf, rfl⟩ := Option.map_eq_some_iff.mp h
  rcases registration?_of_append hf with hold | rfl
  · rw [standing?, hold]
    rfl
  · exact absurd rfl hst

/-- A class that a hook supplies is unresolved. -/
theorem standing?_of_autoload {name : QualifiedName} {st : Standing}
    (h : (r.autoload name).standing? c = some st) (hst : st ≠ .unresolved) :
    r.standing? c = some st := by
  unfold Registry.autoload at h
  split at h
  · exact h
  · dsimp only at h
    split at h
    · unfold registerIfFree at h
      split at h
      · exact h
      · exact standing?_of_append h hst
    · exact h

/-- Nothing but an expression is or will be evaluated, and no class has failed
since. -/
structure Since (r s : Registry) : Prop where
  supplied : s.Supplied ClassDecl.Plain
  failed : ∀ c e, s.standing? c = some (.failed e) → r.standing? c = some (.failed e)

/-- Looking up names and computing values lets no class fail.  What it raises is
the error of a failed class or one of the five that expressions and fetches have
of their own. -/
theorem steady_since {E : Error → Prop} (hstored : ∀ c e, r.standing? c = some (.failed e) → E e)
    (hown : ∀ e, e.isOfExpression = true → E e) : Steady (Since r) E where
  autoload name s _ h := by
    refine ⟨h.supplied.autoload name, fun c e hc => h.failed c e ?_⟩
    exact standing?_of_autoload hc fun hst => by cases hst
  note label s h := ⟨h.supplied.of_eq rfl fun _ => rfl, h.failed⟩
  began site s h := ⟨h.supplied.of_eq rfl fun _ => rfl, h.failed⟩
  ended site result s h := by
    refine ⟨h.supplied.endEvaluation site result, fun c e hc => h.failed c e ?_⟩
    obtain ⟨q, -, hq, -, -, -, he⟩ := endEvaluation_eq site result s
    rw [he] at hc
    rw [← standing?_congr hq]
    cases result with
    | ok v => rwa [standing?_settle] at hc
    | error e => exact hc
  classNotFound _ := hown _ rfl
  noParentScope _ := hown _ rfl
  undefinedConstant _ _ := hown _ rfl
  circularConstant _ _ := hown _ rfl
  failed s c e h hc := hstored c e (h.failed c e hc)
  source s site source h hp := by
    obtain ⟨x, rfl⟩ := h.supplied.plain hp
    exact Program.raises_ofExpr (fun failure => hown _ rfl) x

theorem Supplied.since (h : r.Supplied ClassDecl.Plain) : Since r r :=
  ⟨h, fun _ _ hc => hc⟩

theorem brings_since {op : Operation} (hop : op.Supplies ClassDecl.Plain) :
    Brings (Since r) op where
  declared d hd s h hfree :=
    ⟨h.supplied.append (hop.declared d hd), fun c e hc =>
      h.failed c e (standing?_of_append hc fun hst => by cases hst)⟩
  hooked loader? hl s h := ⟨(brings_supplied hop).hooked loader? hl s h.supplied, h.failed⟩
  statics hstatic id table s h := by
    refine ⟨(brings_supplied hop).statics hstatic id table s h.supplied, fun c e hc => ?_⟩
    rw [standing?_setStatics] at hc
    exact h.failed c e hc

/-- A property of registries whose sources are expressions that holds on, as long as no
class fails. -/
structure KeptSince (P : Registry → Prop) : Prop where
  indexed : ∀ {r}, P r → r.Indexed
  supplied : ∀ {r}, P r → r.Supplied ClassDecl.Plain
  since : ∀ {r s}, P r → Advances r s → Since r s → P s

namespace KeptSince

variable {P : Registry → Prop} {E : Error → Prop}

theorem meets (h : KeptSince P) {α : Type} {x : Eval Registry α} (hr : P r)
    (hx : Maintains (Since r) E x) (hadv : Advancing x r) :
    (x r).Meets (fun _ => P) (fun f s => P s ∧ ∀ e, f = .raised e → E e) True := by
  refine ((hx r (h.supplied hr).since).and hadv).imp ?_ ?_ fun h => h.1
  · exact fun _ s ⟨hs, hadv⟩ => h.since hr hadv hs
  · exact fun f s ⟨⟨hs, he⟩, hadv⟩ => ⟨h.since hr hadv hs, he⟩

theorem maintains (h : KeptSince P) {α : Type} {x : Eval Registry α}
    (hx : ∀ r, P r → Maintains (Since r) E x) (hadv : ∀ r, Indexed r → Advancing x r) :
    Maintains P E x :=
  fun r hr => h.meets hr (hx r hr) (hadv r (h.indexed hr))

/-- What the property says of resolution is all that is asked of an operation. -/
theorem perform (h : KeptSince P) {op : Operation} (hop : op.Supplies ClassDecl.Plain)
    {depth : Nat} (hresolve : ∀ id, Maintains P (fun _ => True) (resolveId depth id)) :
    Maintains P (fun _ => True) (perform depth op) := by
  have hsteady : ∀ r, Steady (Since r) fun _ => True := fun r =>
    steady_since (fun _ _ _ => trivial) fun _ _ => trivial
  have hregister : ∀ d, op.declaration? = some d →
      Maintains P (fun _ => True) (register d) := fun d hd =>
    h.maintains (fun r _ => (brings_since hop).register hd) fun _ _ => register_advancing d
  cases hresolves : op.resolves with
  | false =>
    exact h.maintains (fun r _ => (hsteady r).perform (brings_since hop) hresolves depth)
      fun _ hr => perform_advances depth op hr
  | true =>
    cases op with
    | declare d =>
      refine Maintains.bind (Maintains.bind (hregister d rfl) fun id => ?_) fun _ => .pure _
      exact (hresolve id).bind fun _ => .pure _
    | resolve name =>
      have hlookup : Maintains P (fun _ => True) (Registry.lookup name) :=
        h.maintains (fun r _ => (hsteady r).lookup name) fun _ hr => lookup_advancing name hr
      refine Maintains.bind (Maintains.bind hlookup fun id => ?_) fun _ => .pure _
      exact (hresolve id).bind fun _ => .pure _
    | resolveId id => exact (hresolve id).bind fun _ => .pure _
    | resolveAll =>
      exact (resolveFrom_maintains hresolve depth 0).bind fun _ => .pure _
    | _ => cases hresolves

end KeptSince

end Registry
end Lineage
