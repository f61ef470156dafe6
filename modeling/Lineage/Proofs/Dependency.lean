/-
Values that need each other.

A pending constant depends on each constant that its expression fetches.  A set of
values is deadlocked if each of them is pending and depends on one of the set; none
of them can be the first to be computed.  The theorem of this file is
`force_avoiding`: whatever is computed, no member of a deadlocked set gets a value,
and so the set stays deadlocked.

What a fetch finds does not change: names stay bound and declarations keep their
members, so that a search that has found a class finds it in every later registry,
without asking the hook (`locate_refinds`).
-/
import Lineage.Proofs.Carry
import Lineage.Proofs.FailedClass
import Lineage.Proofs.Meaning
import Lineage.Proofs.Supply

namespace Lineage

/-- The constants that the expression fetches. -/
def Expr.fetches : Expr → List (Qualifier × String)
  | .literal _ => []
  | .constant qualifier name => [(qualifier, name)]
  | .binary _ left right => left.fetches ++ right.fetches
  | .negate operand => operand.fetches

namespace Registry

variable {r s t : Registry} {c p : ClassId} {x y z site : LazySite} {source : Initializer}
  {name : String} {q : Qualifier} {K : LazySite → Prop}

/-! ## Finding again -/

/-- What the first computation ends with in some registry, the second ends with in
every later one, and changes nothing. -/
def Refinds {α : Type} (a b : Eval Registry α) : Prop :=
  ∀ r v t, a r = .value v t → r.Extends t ∧ ∀ s, t.Extends s → b s = .value v s

namespace Refinds

variable {α β : Type} {a b : Eval Registry α}

theorem pure (v : α) : Refinds (pure v) (pure v) := by
  intro r w t h
  cases h
  exact ⟨.refl r, fun _ _ => rfl⟩

theorem raise (e : Error) (b : Eval Registry α) : Refinds (Eval.raise e) b := by
  intro r v t h
  cases h

theorem bind {f g : α → Eval Registry β} (h : Refinds a b) (hf : ∀ v, Refinds (f v) (g v)) :
    Refinds (a >>= f) (b >>= g) := by
  intro r w u hrun
  obtain ⟨v, t, ht, hu⟩ := Eval.bind_eq_value_iff.mp hrun
  obtain ⟨hrt, hagain⟩ := h r v t ht
  obtain ⟨htu, hagain'⟩ := hf v t w u hu
  refine ⟨hrt.trans htu, fun s hs => ?_⟩
  rw [Eval.bind_apply, hagain s (htu.trans hs)]
  exact hagain' s hs

theorem lookup (name : QualifiedName) :
    Refinds (Registry.lookup name) (Registry.lookup name) := by
  intro r p t h
  have hlookup := lookup_meets name r
  rw [h] at hlookup
  obtain ⟨hloads, hp⟩ := hlookup
  exact ⟨(Computes.of_loads hloads).grows, fun s hs => lookup_of_bound (hs.bound hp)⟩

/-- Of a declaration it is asked what its values have no part in. -/
theorem decl_bind {f g : ClassDecl → Eval Registry α}
    (h : ∀ d d', d.Alike d' → Refinds (f d) (g d')) :
    Refinds (Eval.ask (·.decl c) >>= f) (Eval.ask (·.decl c) >>= g) := by
  intro r v t hrun
  by_cases hc : r.Issued c
  · obtain ⟨d, hd⟩ := issued_iff_decl?.mp hc
    rw [Registry.decl_bind hd] at hrun
    have hrt := (h d d (.refl d) r v t hrun).1
    refine ⟨hrt, fun s hs => ?_⟩
    obtain ⟨d', hd', hset⟩ := (hrt.trans hs).declared hd
    rw [Registry.decl_bind hd']
    exact (h d d' hset.alike r v t hrun).2 s hs
  · obtain ⟨d, u, hd, -⟩ := Eval.bind_eq_value_iff.mp hrun
    rw [Eval.ask, decl, registration, registration?_eq_none hc] at hd
    cases hd

end Refinds

theorem searchReferences_refinds
    {search search' : ClassId → List ClassId → Eval Registry (Option ClassId × List ClassId)}
    (hsearch : ∀ p visited, Refinds (search p visited) (search' p visited))
    (names : List QualifiedName) (visited : List ClassId) :
    Refinds (searchReferences search names visited) (searchReferences search' names visited) := by
  induction names generalizing visited with
  | nil => exact .pure _
  | cons listed rest ih =>
    refine (Refinds.lookup listed).bind fun p => (hsearch p visited).bind fun found => ?_
    obtain ⟨owner?, between⟩ := found
    cases owner? with
    | some owner => exact .pure _
    | none => exact ih between

theorem searchConstant_refinds (name : String) (depth : Nat) :
    ∀ depth' c visited, depth ≤ depth' →
      Refinds (searchConstant name depth c visited) (searchConstant name depth' c visited) := by
  induction depth with
  | zero =>
    intro depth' c visited _ r v t h
    cases h
  | succ depth ih =>
    intro depth' c visited hle
    obtain ⟨depth', rfl⟩ : ∃ n, depth' = n + 1 := ⟨depth' - 1, by omega⟩
    unfold searchConstant
    split
    · exact .pure _
    · refine .decl_bind fun d d' halike => ?_
      have hnames : d'.constants.contains name = d.constants.contains name := by
        simp only [Catalog.contains, halike.constantNames]
      rw [hnames, halike.references]
      split
      · exact .pure _
      · exact searchReferences_refinds (fun p visited => ih depth' p visited (by omega)) _ _

theorem target_refinds (c : ClassId) (q : Qualifier) : Refinds (target c q) (target c q) := by
  cases q with
  | self => exact .pure c
  | static => exact .pure c
  | named name => exact .lookup name
  | parent =>
    refine .decl_bind fun d d' halike => ?_
    rw [halike.parent, halike.name]
    cases d.parent with
    | none => exact .raise _ _
    | some name => exact .lookup name

/-- What a fetch has found it finds again, with every larger bound on nesting. -/
theorem locate_refinds {depth depth' : Nat} (h : depth ≤ depth') (c : ClassId) (q : Qualifier)
    (name : String) : Refinds (locate depth c q name) (locate depth' c q name) := by
  refine (target_refinds c q).bind fun p => ?_
  refine (searchConstant_refinds name depth depth' p [] h).bind fun found => ?_
  obtain ⟨owner?, visited⟩ := found
  cases owner? with
  | some owner => exact .pure _
  | none => exact .decl_bind fun d d' halike => .raise _ _

/-- Two finds are the same, also with different bounds. -/
theorem locate_unique {depth depth' : Nat} (h : locate depth c q name r = .value x s)
    (h' : locate depth' c q name s = .value y t) : x = y := by
  have hst := (locate_refinds (Nat.le_refl depth') c q name s y t h').1
  have hx := (locate_refinds (Nat.le_max_left depth depth') c q name r x s h).2 t hst
  have hy := (locate_refinds (Nat.le_max_right depth depth') c q name s y t h').2 t (.refl t)
  rw [hx] at hy
  cases hy
  rfl

/-! ## Finding loads classes and does nothing else -/

theorem target_loads (hr : r.Indexed) (hc : r.Issued c) (q : Qualifier) :
    (target c q r).Meets (fun p t => Relation.ReflTransGen Load r t ∧ t.Issued p)
      (fun f t => Relation.ReflTransGen Load r t ∧
        ∃ e, f = .raised e ∧ e.isCircularConstant = false) True := by
  have hlookup : ∀ n, (lookup n r).Meets
      (fun p t => Relation.ReflTransGen Load r t ∧ t.Issued p)
      (fun f t => Relation.ReflTransGen Load r t ∧
        ∃ e, f = .raised e ∧ e.isCircularConstant = false) True := fun n =>
    (lookup_meets n r).imp
      (fun p _ h => ⟨h.1, (Computes.of_loads h.1).indexed hr n p h.2⟩)
      (fun _ _ h => ⟨h.1, _, h.2.2, rfl⟩) False.elim
  cases q with
  | self => exact ⟨.refl, hc⟩
  | static => exact ⟨.refl, hc⟩
  | named n => exact hlookup n
  | parent =>
    obtain ⟨d, hd⟩ := issued_iff_decl?.mp hc
    show ((Eval.ask (·.decl c) >>= _) r).Meets _ _ _
    rw [decl_bind hd]
    cases d.parent with
    | none => exact ⟨.refl, _, rfl, rfl⟩
    | some n => exact hlookup n

theorem locate_loads (hr : r.Indexed) (hc : r.Issued c) (depth : Nat) (q : Qualifier)
    (name : String) :
    (locate depth c q name r).Meets
      (fun site t => Relation.ReflTransGen Load r t ∧ t.Issued site.owner ∧
        site.member = .constant name)
      (fun f t => Relation.ReflTransGen Load r t ∧
        ∃ e, f = .raised e ∧ e.isCircularConstant = false) True := by
  refine Eval.meets_bind (target_loads hr hc q) fun p s ⟨hs, hp⟩ => ?_
  have hs' := (Computes.of_loads hs).indexed hr
  refine Eval.meets_bind (Outcome.Meets.imp (searchConstant_searching name depth p [] s hs' hp)
    (fun _ _ h => h) ?_ fun h => h) ?_
  · intro f t ⟨ht, missing, _, hf⟩
    exact ⟨hs.trans ht, _, hf, rfl⟩
  · intro found t ⟨ht, hfound⟩
    obtain ⟨owner?, visited⟩ := found
    cases owner? with
    | some owner => exact ⟨hs.trans ht, hfound.2.issued, rfl⟩
    | none =>
      obtain ⟨d, hd⟩ := issued_iff_decl?.mp ((Computes.of_loads ht).grows.issued hp)
      dsimp only
      rw [decl_bind hd]
      exact ⟨hs.trans ht, _, rfl, rfl⟩

/-! ## Dependencies -/

/-- The value at `x` is pending, and its expression fetches the constant at `y`,
which is found without loading anything. -/
def DependsOn (r : Registry) (x y : LazySite) : Prop :=
  ∃ e fetch depth, r.lazy? x = some (.pending (.expr e)) ∧ fetch ∈ e.fetches ∧
    locate depth x.owner fetch.1 fetch.2 r = .value y r

/-- A dependency lasts as long as the value is pending. -/
theorem DependsOn.mono (h : r.DependsOn x y) (hs : r.Extends s)
    (hp : s.lazy? x = some (.pending source)) : s.DependsOn x y := by
  obtain ⟨e, fetch, depth, hx, hfetch, hfound⟩ := h
  have hsame := hs.pending (.of_lazy? hx) hp
  rw [hx] at hsame
  cases hsame
  exact ⟨e, fetch, depth, hp, hfetch,
    (locate_refinds (Nat.le_refl depth) _ _ _ r y r hfound).2 s hs⟩

/-- Nothing has been stored since, so that every dependency is still there. -/
theorem DependsOn.of_stored (h : r.DependsOn x y) (hs : r.Extends s)
    (hstored : ∀ site l, r.lazy? site = some l → s.lazy? site = some l) : s.DependsOn x y := by
  have ⟨e, _, _, hx, _⟩ := h
  exact h.mono hs (hstored x _ hx)

/-- Each value of the set is pending and depends on one of the set. -/
def Deadlocked (r : Registry) (K : LazySite → Prop) : Prop :=
  ∀ x, K x → ∃ y, K y ∧ r.DependsOn x y

/-- What leads to a value that leads to itself. -/
theorem deadlocked_of_circle (hz : Relation.TransGen r.DependsOn z z) :
    r.Deadlocked fun x => Relation.TransGen r.DependsOn x z := by
  intro x hx
  obtain ⟨y, hxy, hyz⟩ := Relation.TransGen.head'_iff.mp hx
  rcases Relation.reflTransGen_iff_eq_or_transGen.mp hyz with rfl | hyz
  · exact ⟨z, hz, hxy⟩
  · exact ⟨y, hyz, hxy⟩

/-- No value of a deadlocked set has been computed, and none in progress. -/
structure Avoids (r s : Registry) : Prop where
  grows : r.Extends s
  evaluating : s.evaluating = r.evaluating
  held : ∀ x ∈ r.evaluating, ∀ source, r.lazy? x = some (.pending source) →
    s.lazy? x = some (.pending source)
  avoided : ∀ K, r.Deadlocked K → ∀ x, K x → ∃ source, s.lazy? x = some (.pending source)

namespace Avoids

theorem deadlocked (h : Avoids r s) (hK : r.Deadlocked K) : s.Deadlocked K := by
  intro x hx
  obtain ⟨y, hy, hxy⟩ := hK x hx
  obtain ⟨source, hp⟩ := h.avoided K hK x hx
  exact ⟨y, hy, hxy.mono h.grows hp⟩

theorem trans (h : Avoids r s) (h' : Avoids s t) : Avoids r t where
  grows := h.grows.trans h'.grows
  evaluating := h'.evaluating.trans h.evaluating
  held x hx source hp := h'.held x (h.evaluating ▸ hx) source (h.held x hx source hp)
  avoided K hK := h'.avoided K (h.deadlocked hK)

/-- Nothing has been stored at all. -/
theorem of_stored (hs : r.Extends s) (heval : s.evaluating = r.evaluating)
    (h : ∀ site l, r.lazy? site = some l → s.lazy? site = some l) : Avoids r s where
  grows := hs
  evaluating := heval
  held x _ source hp := h x _ hp
  avoided K hK x hx := by
    obtain ⟨y, -, e, -, -, hp, -⟩ := hK x hx
    exact ⟨_, h x _ hp⟩

theorem refl (r : Registry) : Avoids r r := .of_stored (.refl r) rfl fun _ _ h => h

theorem of_loads (h : Relation.ReflTransGen Load r s) : Avoids r s := by
  induction h with
  | refl => exact .refl r
  | @tail s t _ hstep ih =>
    refine ih.trans (.of_stored hstep.grows ?_ ?_)
    · cases hstep <;> rfl
    · intro site l hl
      cases hstep with
      | requested hook unbound => exact hl
      | registered free =>
        obtain ⟨d, hd, -⟩ := Option.bind_eq_some_iff.mp hl
        rw [lazy?, decl?_append (.of_decl? hd)]
        exact hl

/-- A circle and what leads to it stay as they are. -/
theorem circle (h : Avoids r s) (hz : Relation.TransGen r.DependsOn z z)
    (hx : Relation.TransGen r.DependsOn x z) : Relation.TransGen s.DependsOn x z := by
  have havoidd := h.avoided _ (deadlocked_of_circle hz)
  induction hx using Relation.TransGen.head_induction_on with
  | single hyz =>
    obtain ⟨source, hp⟩ := havoidd _ (.single hyz)
    exact .single (hyz.mono h.grows hp)
  | head hxy hyz ih =>
    obtain ⟨source, hp⟩ := havoidd _ (.head hxy hyz)
    exact .head (hxy.mono h.grows hp) ih

end Avoids

/-! ## Computing values -/

/-- Values are computed, but none of a deadlocked set, and if there is a result then
`Q` holds. -/
def Avoiding {α : Type} (a : Eval Registry α) (r : Registry) (Q : Prop) : Prop :=
  (a r).Meets (fun _ s => (Computes r s ∧ Avoids r s) ∧ Q)
    (fun f s => (Computes r s ∧ Avoids r s) ∧ ∃ e, f = .raised e) True

/-- What has been done before avoids the same sets. -/
theorem Avoiding.after {α : Type} {a : Eval Registry α} {Q Q' : Prop} (h : Avoiding a s Q)
    (hcomp : Computes r s) (havoid : Avoids r s) (hQ : Q → Q') :
    (a s).Meets (fun _ t => (Computes r t ∧ Avoids r t) ∧ Q')
      (fun f t => (Computes r t ∧ Avoids r t) ∧ ∃ e, f = .raised e) True := by
  refine h.imp ?_ ?_ id
  · exact fun _ t ⟨⟨hcomp', havoid'⟩, h⟩ => ⟨⟨hcomp.trans hcomp', havoid.trans havoid'⟩, hQ h⟩
  · exact fun _ t ⟨⟨hcomp', havoid'⟩, h⟩ => ⟨⟨hcomp.trans hcomp', havoid.trans havoid'⟩, h⟩

/-- The fetch in the scope of a class does not find a value of a deadlocked set. -/
def Free (r : Registry) (c : ClassId) (fetch : Qualifier × String) : Prop :=
  ∀ K, r.Deadlocked K → ∀ depth y, locate depth c fetch.1 fetch.2 r = .value y r → ¬ K y

theorem Avoids.free (h : Avoids r s) {fetch : Qualifier × String} (hfree : s.Free c fetch) :
    r.Free c fetch := by
  intro K hK depth y hfound
  exact hfree K (h.deadlocked hK) depth y
    ((locate_refinds (Nat.le_refl depth) _ _ _ r y r hfound).2 s h.grows)

theorem fetchWith_avoiding {force : LazySite → Eval Registry Value} {depth : Nat}
    (hforce : ∀ site s, Indexed s → s.Issued site.owner →
      Avoiding (force site) s (∀ K, s.Deadlocked K → ¬ K site))
    (hr : r.Indexed) (hc : r.Issued c) (q : Qualifier) (name : String) :
    Avoiding (fetchWith force depth c q name) r (r.Free c (q, name)) := by
  have hlocate := locate_loads hr hc depth q name
  unfold Avoiding
  rw [fetchWith_eq, Eval.bind_apply]
  cases hfound : locate depth c q name r with
  | value site t =>
    rw [hfound] at hlocate
    obtain ⟨hloads, hsite, -⟩ := hlocate
    have havoids := Avoids.of_loads hloads
    have hcomputes := Computes.of_loads hloads
    refine (hforce site t (hcomputes.indexed hr) hsite).after hcomputes havoids ?_
    intro hout K hK depth' y hy hKy
    have hagain := (locate_refinds (Nat.le_refl depth') c q name r y r hy).2 t havoids.grows
    rw [← locate_unique hfound hagain] at hKy
    exact hout K (havoids.deadlocked hK) hKy
  | failure f t =>
    rw [hfound] at hlocate
    obtain ⟨hloads, e, he, -⟩ := hlocate
    exact ⟨⟨.of_loads hloads, .of_loads hloads⟩, e, he⟩
  | tooDeep => exact trivial

theorem Program.evaluate_avoiding {scope : Scope Registry} (hnote : scope.note = note)
    (hfetch : ∀ q name s, Indexed s → s.Issued c →
      Avoiding (scope.fetch q name) s (s.Free c (q, name)))
    (program : Program) (hr : r.Indexed) (hc : r.Issued c) :
    Avoiding (program.evaluate scope) r True := by
  induction program generalizing r with
  | done result =>
    cases result with
    | ok v => exact ⟨⟨.refl r, .refl r⟩, trivial⟩
    | error e => exact ⟨⟨.refl r, .refl r⟩, e, rfl⟩
  | fetch q name next ih =>
    refine Eval.meets_bind (Eval.meets_attempt (R := fun _ s => Computes r s ∧ Avoids r s)
      (hfetch q name r hr hc) (fun _ _ h => h.1) (fun _ _ h => h.1) fun id _ h => ?_) ?_
    · obtain ⟨_, e, he⟩ := h
      cases he
    · intro answer s ⟨hcomp, havoid⟩
      exact (ih answer (hcomp.indexed hr) (hcomp.grows.issued hc)).after hcomp havoid id
  | note label next ih =>
    have hcomp : Computes r (r.note label) := ⟨.single (.noted label), rfl⟩
    have havoid : Avoids r (r.note label) := .of_stored hcomp.grows rfl fun _ _ h => h
    refine Eval.meets_bind (Eval.meets_modify (Q := fun _ s => s = r.note label) ?_) ?_
    · rw [hnote]
    · rintro _ s rfl
      exact (ih (hcomp.indexed hr) (hcomp.grows.issued hc)).after hcomp havoid id

/-- An expression has a value only if each of its fetches has one. -/
theorem Expr.evaluate_meets {P : Registry → Prop} {F : Fault → Registry → Prop}
    {G : Qualifier × String → Prop} {scope : Scope Registry}
    (hfailure : ∀ failure s, P s → F (.raised (.evaluation failure)) s) (e : Expr)
    (hfetch : ∀ fetch ∈ e.fetches, ∀ s, P s →
      (scope.fetch fetch.1 fetch.2 s).Meets (fun _ t => P t ∧ G fetch) F True)
    (hs : P s) :
    (e.evaluate scope s).Meets (fun _ t => P t ∧ ∀ fetch ∈ e.fetches, G fetch) F True := by
  induction e generalizing s with
  | literal v => exact ⟨hs, nofun⟩
  | constant q name =>
    refine (hfetch (q, name) List.mem_cons_self s hs).imp ?_ (fun _ _ h => h) id
    intro _ t ⟨ht, hgood⟩
    exact ⟨ht, fun fetch hmem => List.mem_singleton.mp hmem ▸ hgood⟩
  | binary op left right ihl ihr =>
    refine Eval.meets_bind (ihl (fun f hf => hfetch f (List.mem_append_left _ hf)) hs) ?_
    intro a t ⟨ht, hleft⟩
    refine Eval.meets_bind (ihr (fun f hf => hfetch f (List.mem_append_right _ hf)) ht) ?_
    intro b u ⟨hu, hright⟩
    cases happly : op.apply a b with
    | ok v =>
      refine ⟨hu, fun fetch hmem => ?_⟩
      rcases List.mem_append.mp hmem with hmem | hmem
      · exact hleft fetch hmem
      · exact hright fetch hmem
    | error e =>
      obtain ⟨failure, rfl⟩ := Operator.apply_eq_error op happly
      exact hfailure failure u hu
  | negate operand ih =>
    refine Eval.meets_bind (ih hfetch hs) ?_
    intro a t ⟨ht, hoperand⟩
    cases hnegate : a.negate with
    | ok v => exact ⟨ht, hoperand⟩
    | error e =>
      obtain ⟨failure, rfl⟩ := Operator.apply_eq_error .sub hnegate
      exact hfailure failure t ht

theorem Expr.evaluate_avoiding {scope : Scope Registry}
    (hfetch : ∀ q name s, Indexed s → s.Issued c →
      Avoiding (scope.fetch q name) s (s.Free c (q, name)))
    (e : Expr) (hr : r.Indexed) (hc : r.Issued c) :
    Avoiding (e.evaluate scope) r (∀ fetch ∈ e.fetches, r.Free c fetch) := by
  refine Expr.evaluate_meets (P := fun s => Computes r s ∧ Avoids r s)
    (fun failure s hs => ⟨hs, _, rfl⟩) e ?_ ⟨.refl r, .refl r⟩
  intro fetch _ s hs
  have hfetched := hfetch fetch.1 fetch.2 s (hs.1.indexed hr) (hs.1.grows.issued hc)
  exact hfetched.after hs.1 hs.2 hs.2.free

theorem Deadlocked.beginEvaluation (hK : r.Deadlocked K) (site : LazySite) :
    (r.beginEvaluation site).Deadlocked K := by
  intro x hx
  obtain ⟨y, hy, hxy⟩ := hK x hx
  exact ⟨y, hy, hxy.of_stored (.of_eq rfl rfl rfl) fun _ _ h => h⟩

/-- Every value of a deadlocked set fetches a value of the set. -/
theorem Deadlocked.not_free (hK : r.Deadlocked K) (hsite : K site) {e : Expr}
    (hp : r.lazy? site = some (.pending (.expr e))) :
    ∃ fetch ∈ e.fetches, ¬ (r.beginEvaluation site).Free site.owner fetch := by
  obtain ⟨y, hy, e', fetch, depth, hpending, hmem, hfound⟩ := hK site hsite
  rw [hp] at hpending
  cases hpending
  refine ⟨fetch, hmem, fun hfree => ?_⟩
  have hagain := (locate_refinds (Nat.le_refl depth) _ _ _ r y r hfound).2
    (r.beginEvaluation site) (.of_eq rfl rfl rfl)
  exact hfree K (hK.beginEvaluation site) depth y hagain hy

/-- What is stored at last is the value of the site itself, which no deadlocked set
contains. -/
theorem Avoids.endEvaluation {result : Except Error Value}
    (h : Avoids (r.beginEvaluation site) t) (hfresh : site ∉ r.evaluating)
    (hout : ∀ v, result = .ok v → ∀ K, r.Deadlocked K → ¬ K site) :
    Avoids r (t.endEvaluation site result) := by
  have hext : r.Extends (r.beginEvaluation site) := .of_eq rfl rfl rfl
  have hlazy : ∀ x source, (∀ v, result = .ok v → x ≠ site) →
      t.lazy? x = some (.pending source) →
      (t.endEvaluation site result).lazy? x = some (.pending source) := by
    intro x source hne hp
    rw [lazy?_endEvaluation]
    cases result with
    | error e => exact hp
    | ok v => exact (if_neg (hne v rfl)).trans hp
  refine ⟨hext.trans (h.grows.trans (extends_endEvaluation site result t)), ?_, ?_, ?_⟩
  · rw [evaluating_endEvaluation, h.evaluating]
    exact List.erase_cons_head site r.evaluating
  · intro x hx source hp
    exact hlazy x source (fun _ _ heq => hfresh (heq ▸ hx))
      (h.held x (List.mem_cons_of_mem site hx) source hp)
  · intro K hK x hx
    obtain ⟨source, hp⟩ := h.avoided K (hK.beginEvaluation site) x hx
    exact ⟨source, hlazy x source (fun v hv heq => hout v hv K hK (heq ▸ hx)) hp⟩

theorem evaluateSite_avoiding {scope : Scope Registry} {d : ClassDecl} (hnote : scope.note = note)
    (hfetch : ∀ q name s, Indexed s → s.Issued site.owner →
      Avoiding (scope.fetch q name) s (s.Free site.owner (q, name)))
    (hr : r.Indexed) (hp : r.lazy? site = some (.pending source))
    (hu : ∀ e, r.standing? site.owner ≠ some (.failed e)) :
    Avoiding (evaluateSite scope site d source) r (∀ K, r.Deadlocked K → ¬ K site) := by
  have hi : r.Issued site.owner := .of_lazy? hp
  have hcomputing : Computing (evaluateSite scope site d source) r fun _ s => s.Computed site := by
    refine evaluateSite_computing hnote (fun q name s hs hc => ?_) hr hp hi hu
    exact (hfetch q name s hs hc).imp (fun _ _ h => ⟨h.1.1, trivial⟩) (fun _ _ h => ⟨h.1.1, h.2⟩) id
  suffices (evaluateSite scope site d source r).Meets
      (fun _ s => Avoids r s ∧ ∀ K, r.Deadlocked K → ¬ K site) (fun _ s => Avoids r s) True from
    (Outcome.Meets.and hcomputing this).imp (fun _ _ h => ⟨⟨h.1.1, h.2.1⟩, h.2.2⟩)
      (fun _ _ h => ⟨⟨h.1.1, h.2⟩, h.1.2⟩) And.left
  by_cases hfresh : site ∈ r.evaluating
  · rw [evaluateSite_of_circular hfresh]
    exact Avoids.refl r
  have hbegun : (r.beginEvaluation site).Indexed := hr
  have hissued : (r.beginEvaluation site).Issued site.owner := hi
  have hsource : (source.evaluate scope (r.beginEvaluation site)).Meets
      (fun _ s => Avoids (r.beginEvaluation site) s ∧ ∀ K, r.Deadlocked K → ¬ K site)
      (fun f s => Avoids (r.beginEvaluation site) s ∧ ∃ e, f = .raised e) True := by
    cases source with
    | program p =>
      refine (Program.evaluate_avoiding hnote hfetch p hbegun hissued).imp ?_
        (fun _ _ h => ⟨h.1.2, h.2⟩) id
      intro _ s h
      refine ⟨h.1.2, fun K hK hsite => ?_⟩
      obtain ⟨y, -, e, -, -, hpending, -⟩ := hK site hsite
      rw [hp] at hpending
      cases hpending
    | expr e =>
      refine (Expr.evaluate_avoiding hfetch e hbegun hissued).imp ?_ (fun _ _ h => ⟨h.1.2, h.2⟩) id
      intro _ s h
      refine ⟨h.1.2, fun K hK hsite => ?_⟩
      obtain ⟨fetch, hmem, hbusy⟩ := hK.not_free hsite hp
      exact hbusy (h.2 fetch hmem)
  rw [evaluateSite_of_fresh hfresh]
  refine Eval.meets_bind (Eval.meets_attempt (F := fun _ _ => False)
    (R := fun result s => Avoids (r.beginEvaluation site) s ∧
      ∀ v, result = .ok v → ∀ K, r.Deadlocked K → ¬ K site) hsource ?_ ?_ ?_ |>.imp
    (fun _ _ h => h) (fun _ _ h => h.elim) id) ?_
  · exact fun v s hs => ⟨hs.1, fun _ _ => hs.2⟩
  · exact fun e s hs => ⟨hs.1, nofun⟩
  · intro id s hs
    obtain ⟨_, e, he⟩ := hs
    cases he
  · intro result s ⟨hs, hout⟩
    have hdone := hs.endEvaluation hfresh hout
    cases result with
    | ok v => exact ⟨hdone, hout v rfl⟩
    | error e => exact hdone

/-- Whatever is computed, no value of a deadlocked set is, and asking for one gives
no value. -/
theorem force_avoiding (depth : Nat) :
    ∀ site r, Indexed r → r.Issued site.owner →
      Avoiding (force depth site) r (∀ K, r.Deadlocked K → ¬ K site) := by
  induction depth with
  | zero => intro site r _ _; exact trivial
  | succ depth ih =>
    intro site r hr hi
    obtain ⟨d, hd⟩ := issued_iff_decl?.mp hi
    have hl : r.lazy? site = d.lazy? site.member := by rw [lazy?, hd]; rfl
    have hpending : (∀ source, r.lazy? site ≠ some (.pending source)) →
        ∀ K, r.Deadlocked K → ¬ K site := by
      intro hready K hK hsite
      obtain ⟨y, -, e, -, -, hp, -⟩ := hK site hsite
      exact hready _ hp
    unfold Avoiding
    by_cases hf : ∃ e, r.standing? site.owner = some (.failed e)
    · obtain ⟨e, he⟩ := hf
      rw [force_of_failed depth he]
      exact ⟨⟨.refl r, .refl r⟩, e, rfl⟩
    · have hu : ∀ e, r.standing? site.owner ≠ some (.failed e) := fun e he => hf ⟨e, he⟩
      rw [force_of_usable depth hd hu]
      cases hm : d.lazy? site.member with
      | none =>
        refine ⟨⟨.refl r, .refl r⟩, hpending fun source hsource => ?_⟩
        rw [hl, hm] at hsource
        cases hsource
      | some l =>
        cases l with
        | settled v =>
          refine ⟨⟨.refl r, .refl r⟩, hpending fun source hsource => ?_⟩
          rw [hl, hm] at hsource
          cases hsource
        | pending source =>
          refine evaluateSite_avoiding rfl (fun q name s hs hc => ?_) hr (by rw [hl, hm]) hu
          exact fetchWith_avoiding ih hs hc q name

end Registry
end Lineage
