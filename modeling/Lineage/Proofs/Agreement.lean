/-
Evaluations in two registries that agree on some classes.

A source is local if it fetches constants only from its own class and its
parent.  What such a source evaluates to depends on the classes above it and on
nothing else: `force_jointly` runs the same evaluation in two registries that
agree on a set of classes closed under references, with bounds on nesting of
their own.  If neither bound is spent, both runs end in the same way and agree
afterwards, and neither has changed a class outside the set.
-/
import Lineage.Proofs.Change
import Lineage.Proofs.Hierarchy

namespace Lineage

/-! ## Local sources -/

def Qualifier.isLocal : Qualifier → Bool
  | .named _ => false
  | _ => true

/-- All constants are fetched from the own class or the parent. -/
def Expr.isLocal : Expr → Bool
  | .literal _ => true
  | .constant qualifier _ => qualifier.isLocal
  | .binary _ left right => left.isLocal && right.isLocal
  | .negate operand => operand.isLocal

/-- Of a program it is not known what it fetches. -/
def Initializer.isLocal : Initializer → Bool
  | .expr e => e.isLocal
  | .program _ => false

/-- A value that is there, or whose source is local. -/
def Lazy.isLocal : Lazy → Bool
  | .pending source => source.isLocal
  | .settled _ => true

namespace Registry

variable {w r s t : Registry} {id c p : ClassId}

/-! ## Registries over the same declarations -/

/-- Nothing has been registered since `w`, and nothing can be loaded. -/
structure Within (w r : Registry) : Prop where
  grows : w.Extends r
  index : r.index = w.index
  size : r.size = w.size
  hookless : r.autoloader = none

namespace Within

theorem refl (h : w.autoloader = none) : w.Within w := ⟨.refl w, rfl, rfl, h⟩

theorem of_eq (h : w.Within r) (hc : s.config = r.config)
    (hr : s.registrations = r.registrations) (hi : s.index = r.index)
    (ha : s.autoloader = r.autoloader) : w.Within s where
  grows := h.grows.trans (.of_eq hc hr hi)
  index := hi.trans h.index
  size := by rw [Registry.size, hr, ← Registry.size, h.size]
  hookless := ha.trans h.hookless

theorem idOf? (h : w.Within r) (name : QualifiedName) : r.idOf? name = w.idOf? name := by
  rw [Registry.idOf?, Registry.idOf?, h.index]

theorem issued_iff (h : w.Within r) : r.Issued c ↔ w.Issued c := by
  rw [Issued, Issued, h.size]

theorem decl? (h : w.Within r) {d : ClassDecl} (hd : r.decl? c = some d) :
    ∃ d', w.decl? c = some d' ∧ d'.Settles d := by
  obtain ⟨d', hd'⟩ := issued_iff_decl?.mp (h.issued_iff.mp (.of_decl? hd))
  obtain ⟨d'', hd'', hset⟩ := h.grows.declared hd'
  rw [hd] at hd''
  cases hd''
  exact ⟨d', hd', hset⟩

/-- Without a hook a lookup reads the index and changes nothing. -/
theorem lookup (h : w.Within r) (name : QualifiedName) :
    Registry.lookup name r =
      match w.idOf? name with
      | some p => .value p r
      | none => .failure (.raised (.classNotFound name.text)) r := by
  have hload : r.autoload name = r := by rw [autoload, h.hookless]
  have hname := h.idOf? name
  rw [Registry.lookup, hload]
  cases hw : w.idOf? name with
  | none =>
    rw [hw] at hname
    simp [hname]
  | some p =>
    rw [hw] at hname
    simp [hname]

end Within

/-- A set of classes that is closed under references and whose sources are
local. -/
structure Upward (w : Registry) (K : ClassId → Prop) : Prop where
  issued : ∀ c, K c → w.Issued c
  closed : ∀ c p, K c → w.Refers c p → K p
  isLocal : ∀ site source, K site.owner → w.lazy? site = some (.pending source) →
    source.isLocal = true

/-- The two registries have the same declarations and values for the classes of
a set, none of which has failed. -/
structure Agrees (w : Registry) (K : ClassId → Prop) (r s : Registry) : Prop where
  left : w.Within r
  right : w.Within s
  decl? : ∀ c, K c → s.decl? c = r.decl? c
  usable_left : ∀ c, K c → ∀ e, r.standing? c ≠ some (.failed e)
  usable_right : ∀ c, K c → ∀ e, s.standing? c ≠ some (.failed e)
  evaluating : s.evaluating = r.evaluating

/-- What two computations have in common: they start from `r` and `s` and lead
to `r'` and `s'`, which agree, and change no class outside the set. -/
structure Together (w : Registry) (K : ClassId → Prop) (r s r' s' : Registry) : Prop where
  agrees : Agrees w K r' s'
  kept_left : ∀ c, ¬ K c → r'.decl? c = r.decl? c
  kept_right : ∀ c, ¬ K c → s'.decl? c = s.decl? c

/-- Unless one of them meets its bound on nesting, two computations end in the
same way, the one with a value as described by `Q`, and together. -/
def Jointly {α : Type} (w : Registry) (K : ClassId → Prop) (x y : Eval Registry α)
    (r s : Registry) (Q : α → Prop) : Prop :=
  Outcome.Paired (fun a r' s' => Q a ∧ Together w K r s r' s') (Together w K r s) (x r) (y s)

variable {K : ClassId → Prop} {r' s' : Registry}

theorem Together.refl (h : Agrees w K r s) : Together w K r s r s :=
  ⟨h, fun _ _ => rfl, fun _ _ => rfl⟩

theorem Together.trans {r'' s'' : Registry} (h : Together w K r s r' s')
    (h' : Together w K r' s' r'' s'') : Together w K r s r'' s'' where
  agrees := h'.agrees
  kept_left c hc := (h'.kept_left c hc).trans (h.kept_left c hc)
  kept_right c hc := (h'.kept_right c hc).trans (h.kept_right c hc)

namespace Jointly

variable {α β : Type} {x y : Eval Registry α} {Q : α → Prop}

theorem pure {a : α} (h : Agrees w K r s) (hq : Q a) : Jointly w K (pure a) (pure a) r s Q :=
  .value ⟨hq, .refl h⟩

theorem raise (e : Error) (h : Agrees w K r s) :
    Jointly w K (Eval.raise e) (Eval.raise e) r s Q :=
  .failure (.refl h)

theorem bind {f g : α → Eval Registry β} {R : β → Prop} (hx : Jointly w K x y r s Q)
    (hf : ∀ a r' s', Agrees w K r' s' → Q a → Jointly w K (f a) (g a) r' s' R) :
    Jointly w K (x >>= f) (y >>= g) r s R := by
  unfold Jointly at hx ⊢
  rw [Eval.bind_apply, Eval.bind_apply]
  generalize x r = o at hx ⊢
  generalize y s = o' at hx ⊢
  cases hx with
  | spentLeft => exact .spentLeft _
  | spentRight => exact .spentRight _
  | failure htog => exact .failure htog
  | @value a r' s' hv =>
    obtain ⟨hq, htog⟩ := hv
    exact (hf a r' s' htog.agrees hq).imp (fun _ _ _ h => ⟨h.1, htog.trans h.2⟩)
      fun _ _ h => htog.trans h

theorem attempt (h : Jointly w K x y r s Q) :
    Jointly w K x.attempt y.attempt r s fun _ => True := by
  unfold Jointly at h ⊢
  unfold Eval.attempt
  generalize x r = o at h ⊢
  generalize y s = o' at h ⊢
  cases h with
  | spentLeft => exact .spentLeft _
  | spentRight => exact .spentRight _
  | value hv => exact .value ⟨trivial, hv.2⟩
  | @failure fault r' s' htog =>
    cases fault with
    | raised e => exact .value ⟨trivial, htog⟩
    | unissued c => exact .failure htog

theorem ofExcept (result : Except Error α) (h : Agrees w K r s) :
    Jointly w K (Eval.ofExcept result) (Eval.ofExcept result) r s fun _ => True := by
  cases result with
  | ok a => exact .pure h trivial
  | error e => exact .raise e h

theorem modify {f g : Registry → Registry} (h : Together w K r s (f r) (g s)) :
    Jointly w K (Eval.modify f) (Eval.modify g) r s fun _ => True :=
  .value ⟨trivial, h⟩

theorem decl (hK : Upward w K) (h : Agrees w K r s) (hc : K c) :
    Jointly w K (Eval.ask (·.decl c)) (Eval.ask (·.decl c)) r s
      fun d => ∃ d', w.decl? c = some d' ∧ d'.Alike d := by
  obtain ⟨d, hd⟩ := issued_iff_decl?.mp (h.left.issued_iff.mpr (hK.issued c hc))
  have hs : s.decl? c = some d := by rw [h.decl? c hc, hd]
  obtain ⟨d', hd', hset⟩ := h.left.decl? hd
  unfold Jointly Eval.ask
  dsimp only
  rw [decl_eq_ok_iff.mpr hd, decl_eq_ok_iff.mpr hs]
  exact .value ⟨⟨d', hd', hset.alike⟩, .refl h⟩

theorem lookup (h : Agrees w K r s) (name : QualifiedName) (hq : ∀ p, w.idOf? name = some p → K p) :
    Jointly w K (Registry.lookup name) (Registry.lookup name) r s K := by
  unfold Jointly
  rw [h.left.lookup, h.right.lookup]
  cases hp : w.idOf? name with
  | none => exact .failure (.refl h)
  | some p => exact .value ⟨hq p hp, .refl h⟩

end Jointly

/-! ## Values in progress -/

theorem decl?_endEvaluation (site : LazySite) (result : Except Error Value) (r : Registry)
    (c : ClassId) :
    (r.endEvaluation site result).decl? c =
      match result with
      | .ok v => if c = site.owner then (r.decl? c).map (ClassDecl.settle site.member v)
        else r.decl? c
      | .error _ => r.decl? c := by
  obtain ⟨q, -, hr, -, -, -, he⟩ := endEvaluation_eq site result r
  rw [he]
  cases result with
  | ok v => rw [decl?_settle, decl?_congr hr]
  | error e => exact decl?_congr hr c

theorem standing?_endEvaluation (site : LazySite) (result : Except Error Value) (r : Registry)
    (c : ClassId) : (r.endEvaluation site result).standing? c = r.standing? c := by
  obtain ⟨q, -, hr, -, -, -, he⟩ := endEvaluation_eq site result r
  rw [he]
  cases result with
  | ok v => rw [standing?_settle, standing?_congr hr]
  | error e => exact standing?_congr hr c

theorem evaluating_endEvaluation (site : LazySite) (result : Except Error Value) (r : Registry) :
    (r.endEvaluation site result).evaluating = r.evaluating.erase site := by
  cases result <;> rfl

/-- After an evaluation nothing is stored but its value. -/
theorem lazy?_endEvaluation (site other : LazySite) (result : Except Error Value) (r : Registry) :
    (r.endEvaluation site result).lazy? other =
      match result with
      | .ok v => if other = site then (r.lazy? other).map (Lazy.settle v) else r.lazy? other
      | .error _ => r.lazy? other := by
  obtain ⟨q, -, hr, -, -, -, he⟩ := endEvaluation_eq site result r
  have hq : q.lazy? other = r.lazy? other := by rw [lazy?, lazy?, decl?_congr hr]
  rw [he]
  cases result with
  | ok v =>
    dsimp only
    rw [lazy?_settle, hq]
  | error e => exact hq

theorem Within.endEvaluation (h : w.Within r) (site : LazySite) (result : Except Error Value) :
    w.Within (r.endEvaluation site result) := by
  obtain ⟨q, hc, hr, hi, -, -, he⟩ := endEvaluation_eq site result r
  have hq : r.Extends q := .of_eq hc hr hi
  have hext : r.Extends (r.endEvaluation site result) := by
    rw [he]
    cases result with
    | ok v => exact hq.trans (extends_settle site v q)
    | error e => exact hq
  refine ⟨h.grows.trans hext, ?_, ?_, ?_⟩
  · cases result <;> exact h.index
  · cases result with
    | ok v => exact (size_updateAt _ _ _).trans h.size
    | error e => exact h.size
  · cases result <;> exact h.hookless

theorem Agrees.beginEvaluation (h : Agrees w K r s) (site : LazySite) :
    Together w K r s (r.beginEvaluation site) (s.beginEvaluation site) where
  agrees :=
    { left := h.left.of_eq rfl rfl rfl rfl
      right := h.right.of_eq rfl rfl rfl rfl
      decl? := h.decl?
      usable_left := h.usable_left
      usable_right := h.usable_right
      evaluating := congrArg (site :: ·) h.evaluating }
  kept_left _ _ := rfl
  kept_right _ _ := rfl

theorem Agrees.endEvaluation (h : Agrees w K r s) {site : LazySite} (hsite : K site.owner)
    (result : Except Error Value) :
    Together w K r s (r.endEvaluation site result) (s.endEvaluation site result) := by
  have hkept : ∀ q c, ¬ K c → (Registry.endEvaluation site result q).decl? c = q.decl? c := by
    intro q c hc
    rw [decl?_endEvaluation]
    cases result with
    | error e => rfl
    | ok v => exact if_neg fun (heq : c = site.owner) => hc (heq ▸ hsite)
  refine ⟨⟨h.left.endEvaluation site result, h.right.endEvaluation site result, ?_, ?_, ?_, ?_⟩,
    hkept r, hkept s⟩
  · intro c hc
    rw [decl?_endEvaluation, decl?_endEvaluation, h.decl? c hc]
  · intro c hc e
    rw [standing?_endEvaluation]
    exact h.usable_left c hc e
  · intro c hc e
    rw [standing?_endEvaluation]
    exact h.usable_right c hc e
  · rw [evaluating_endEvaluation, evaluating_endEvaluation, h.evaluating]

/-! ## Finding the class that declares a constant -/

theorem searchReferences_jointly
    {search search' : ClassId → List ClassId → Eval Registry (Option ClassId × List ClassId)}
    (hsearch : ∀ c visited r s, K c → Agrees w K r s →
      Jointly w K (search c visited) (search' c visited) r s fun found => ∀ o ∈ found.1, K o)
    (names : List QualifiedName) (hnames : ∀ name ∈ names, ∀ p, w.idOf? name = some p → K p)
    (visited : List ClassId) (h : Agrees w K r s) :
    Jointly w K (searchReferences search names visited) (searchReferences search' names visited)
      r s fun found => ∀ o ∈ found.1, K o := by
  induction names generalizing visited r s with
  | nil => exact .pure h (by simp)
  | cons name rest ih =>
    refine (Jointly.lookup h name (hnames name List.mem_cons_self)).bind fun p r' s' h' hp => ?_
    refine (hsearch p visited r' s' hp h').bind fun found r'' s'' h'' hfound => ?_
    obtain ⟨owner?, visited'⟩ := found
    cases owner? with
    | some owner => exact .pure h'' hfound
    | none => exact ih (fun n hn => hnames n (List.mem_cons_of_mem _ hn)) visited' h''

section Search

variable (hK : Upward w K)
include hK

theorem searchConstant_jointly (name : String) (depth depth' : Nat) :
    ∀ c visited r s, K c → Agrees w K r s →
      Jointly w K (searchConstant name depth c visited) (searchConstant name depth' c visited)
        r s fun found => ∀ o ∈ found.1, K o := by
  induction depth generalizing depth' with
  | zero => intro c visited r s _ _; exact .spentLeft _
  | succ depth ih =>
    intro c visited r s hc h
    cases depth' with
    | zero => exact .spentRight _
    | succ depth' =>
      unfold searchConstant
      split
      · exact .pure h (by simp)
      · refine (Jointly.decl hK h hc).bind fun d r' s' h' hd => ?_
        obtain ⟨d', hd', halike⟩ := hd
        split
        · exact .pure h' (by simpa using hc)
        · refine searchReferences_jointly (ih depth') d.references ?_ (c :: visited) h'
          intro n hn p hp
          exact hK.closed c p hc ⟨d', n, hd', halike.references ▸ hn, hp⟩

theorem target_jointly {qualifier : Qualifier} (hlocal : qualifier.isLocal = true) (hc : K c)
    (h : Agrees w K r s) : Jointly w K (target c qualifier) (target c qualifier) r s K := by
  cases qualifier with
  | self => exact .pure h hc
  | static => exact .pure h hc
  | named name => cases hlocal
  | parent =>
    refine (Jointly.decl hK h hc).bind fun d r' s' h' hd => ?_
    obtain ⟨d', hd', halike⟩ := hd
    cases hp : d.parent with
    | none => exact .raise _ h'
    | some name =>
      refine .lookup h' name fun p hbound => hK.closed c p hc ⟨d', name, hd', ?_, hbound⟩
      rw [← halike.references, ClassDecl.references, hp]
      exact List.mem_append_left _ List.mem_cons_self

/-! ## Computing values -/

theorem fetchWith_jointly {force force' : LazySite → Eval Registry Value} {depth depth' : Nat}
    (hforce : ∀ site r s, K site.owner → Agrees w K r s →
      Jointly w K (force site) (force' site) r s fun _ => True)
    {qualifier : Qualifier} (hlocal : qualifier.isLocal = true) (name : String) (hc : K c)
    (h : Agrees w K r s) :
    Jointly w K (fetchWith force depth c qualifier name) (fetchWith force' depth' c qualifier name)
      r s fun _ => True := by
  refine (target_jointly hK hlocal hc h).bind fun p r' s' h' hp => ?_
  refine (searchConstant_jointly hK name depth depth' p [] r' s' hp h').bind
    fun found r'' s'' h'' hfound => ?_
  obtain ⟨owner?, visited⟩ := found
  cases owner? with
  | some owner => exact hforce _ r'' s'' (hfound owner rfl) h''
  | none => exact (Jointly.decl hK h'' hp).bind fun d _ _ h₃ _ => .raise _ h₃

omit hK in
theorem Expr.evaluate_jointly {scope scope' : Scope Registry}
    (hfetch : ∀ (qualifier : Qualifier) name r s, qualifier.isLocal = true → Agrees w K r s →
      Jointly w K (scope.fetch qualifier name) (scope'.fetch qualifier name) r s fun _ => True)
    (e : Expr) (hlocal : e.isLocal = true) (h : Agrees w K r s) :
    Jointly w K (e.evaluate scope) (e.evaluate scope') r s fun _ => True := by
  induction e generalizing r s with
  | literal value => exact .pure h trivial
  | constant qualifier name => exact hfetch qualifier name r s hlocal h
  | binary op left right ihl ihr =>
    rw [Expr.isLocal, Bool.and_eq_true] at hlocal
    refine (ihl hlocal.1 h).bind fun a r' s' h' _ => ?_
    exact (ihr hlocal.2 h').bind fun b r'' s'' h'' _ => .ofExcept _ h''
  | negate operand ih => exact (ih hlocal h).bind fun a r' s' h' _ => .ofExcept _ h'

omit hK in
theorem evaluateSite_jointly {scope scope' : Scope Registry} {site : LazySite} {d : ClassDecl}
    {source : Initializer} (hsite : K site.owner)
    (heval : ∀ r s, Agrees w K r s →
      Jointly w K (source.evaluate scope) (source.evaluate scope') r s fun _ => True)
    (h : Agrees w K r s) :
    Jointly w K (evaluateSite scope site d source) (evaluateSite scope' site d source)
      r s fun _ => True := by
  have hrest : Jointly w K
      (do
        .modify (beginEvaluation site)
        let result ← (source.evaluate scope).attempt
        .modify (endEvaluation site result)
        .ofExcept result : Eval Registry Value)
      (do
        .modify (beginEvaluation site)
        let result ← (source.evaluate scope').attempt
        .modify (endEvaluation site result)
        .ofExcept result) r s fun _ => True := by
    refine (Jointly.modify (h.beginEvaluation site)).bind fun _ r' s' h' _ => ?_
    refine (heval r' s' h').attempt.bind fun result r'' s'' h'' _ => ?_
    exact (Jointly.modify (h''.endEvaluation hsite result)).bind fun _ _ _ h₃ _ => .ofExcept _ h₃
  show Outcome.Paired _ _ ((if r.evaluating.contains site then _ else _ : Eval Registry Value) r)
    ((if s.evaluating.contains site then _ else _ : Eval Registry Value) s)
  rw [h.evaluating]
  split
  · exact Jointly.raise _ h
  · exact hrest

/-- Values of the set are computed alike, whatever the bounds on nesting. -/
theorem force_jointly (depth depth' : Nat) :
    ∀ site r s, K site.owner → Agrees w K r s →
      Jointly w K (force depth site) (force depth' site) r s fun _ => True := by
  induction depth generalizing depth' with
  | zero => intro site r s _ _; exact .spentLeft _
  | succ depth ih =>
    intro site r s hsite h
    cases depth' with
    | zero => exact .spentRight _
    | succ depth' =>
      obtain ⟨d, hd⟩ := issued_iff_decl?.mp (h.left.issued_iff.mpr (hK.issued _ hsite))
      have hs : s.decl? site.owner = some d := by rw [h.decl? _ hsite, hd]
      unfold Jointly
      rw [force_of_usable depth hd (h.usable_left _ hsite),
        force_of_usable depth' hs (h.usable_right _ hsite)]
      cases hm : d.lazy? site.member with
      | none => exact Jointly.pure h trivial
      | some l =>
        cases l with
        | settled v => exact Jointly.pure h trivial
        | pending source =>
          have hpending : r.lazy? site = some (.pending source) := by rw [lazy?, hd]; exact hm
          have hlocal := hK.isLocal site source hsite
            (h.left.grows.pending (hK.issued _ hsite) hpending)
          refine evaluateSite_jointly hsite (fun r' s' h' => ?_) h
          cases source with
          | program p => cases hlocal
          | expr e =>
            refine Expr.evaluate_jointly (fun qualifier name r s hq h => ?_) e hlocal h'
            exact fetchWith_jointly hK (ih depth') hq name hsite h

theorem forceAll_jointly (depth depth' : Nat) (hid : K id) (d : ClassDecl)
    (h : Agrees w K r s) :
    Jointly w K (forceAll (force depth) id d) (forceAll (force depth') id d)
      r s fun _ => True := by
  unfold forceAll
  induction d.lazyMembers generalizing r s with
  | nil => exact .pure h trivial
  | cons member rest ih =>
    refine Jointly.bind (Q := fun _ => True) ?_ fun _ r' s' h' _ => ih h'
    exact (force_jointly hK depth depth' _ r s hid h).bind fun _ _ _ h' _ => .pure h' trivial

end Search

end Registry
end Lineage
