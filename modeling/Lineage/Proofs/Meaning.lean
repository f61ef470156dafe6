/-
What constants mean, apart from the order in which they are computed.

`meaning` evaluates a value over a registry that stays as it is.  Nothing is
stored on the way, and every value is computed as often as it is asked for.  The
theorem of this file is `force_denotes`: computing a value in the registry, which
stores what it finds, ends as its meaning says, as long as whatever is stored is
what it means (`Memo`).

What a value means depends on the values in progress, for it may lead back to one
of them.  Only failures do, though.  A value that comes out while some values are
in progress comes out on every path of values that are not there yet, and that is
why it may be stored (`Denotes`).
-/
import Lineage.Proofs.Locate
import Lineage.Proofs.Resolution

namespace Lineage

/-- What a computation ends with in the given state, which is then forgotten. -/
def Eval.inState {σ α : Type} (x : Eval σ α) (s : σ) : Eval Unit α := fun _ =>
  match x s with
  | .value a _ => .value a ()
  | .failure f _ => .failure f ()
  | .tooDeep => .tooDeep

theorem Eval.inState_apply {σ α : Type} (x : Eval σ α) (s : σ) :
    x.inState s () =
      match x s with
      | .value a _ => .value a ()
      | .failure f _ => .failure f ()
      | .tooDeep => .tooDeep := rfl

namespace Registry

variable {w r s t : Registry} {site : LazySite} {path : List LazySite} {source : Initializer}

/-! ## Values without a memory -/

/-- Every site of every registered class. -/
def sites (r : Registry) : List LazySite :=
  (List.range r.size).flatMap fun i => (r.decl? (.ofIndex i)).toList.flatMap fun d =>
    d.lazyMembers.map fun m => { owner := .ofIndex i, member := m }

theorem mem_sites {l : Lazy} (h : r.lazy? site = some l) : site ∈ r.sites := by
  obtain ⟨d, hd, hl⟩ := Option.bind_eq_some_iff.mp h
  refine List.mem_flatMap.mpr ⟨site.owner.index, List.mem_range.mpr (Issued.of_decl? hd), ?_⟩
  rw [ClassId.ofIndex_index, hd]
  refine List.mem_flatMap.mpr ⟨d, by simp, ?_⟩
  exact List.mem_map.mpr ⟨site.member, ClassDecl.mem_lazyMembers hl, rfl⟩

/-- How many sites are not on a path. -/
def remaining (r : Registry) (path : List LazySite) : Nat :=
  (r.sites.toFinset \ path.toFinset).card

theorem remaining_cons_lt (hsite : site ∈ r.sites) (hpath : site ∉ path) :
    r.remaining (site :: path) < r.remaining path := by
  unfold remaining
  rw [List.toFinset_cons, Finset.sdiff_insert]
  exact Finset.card_erase_lt_of_mem (by simp [hsite, hpath])

/-- The error of a value that leads back to itself. -/
def circularity (r : Registry) (site : LazySite) : Error :=
  .circularConstant (r.declOf site.owner).name.text (site.member.label (r.declOf site.owner))

/-- A scope in which constants have the given values and nothing changes. -/
def fixedScope (w : Registry) (value : LazySite → Eval Unit Value) (current : ClassId) :
    Scope Unit where
  fetch qualifier name := (locate (w.size + 1) current qualifier name).inState w >>= value
  note _ := id

/-- The value at a site, where the values on `path` are in progress. -/
def meaning (w : Registry) (path : List LazySite) (site : LazySite) : Eval Unit Value :=
  match w.standing? site.owner with
  | some (.failed e) => .raise e
  | _ =>
    match _ : w.lazy? site with
    | none => pure .null
    | some (.settled v) => pure v
    | some (.pending source) =>
      if _ : site ∈ path then .raise (w.circularity site)
      else source.evaluate (w.fixedScope (fun found => meaning w (site :: path) found) site.owner)
termination_by w.remaining path
decreasing_by exact remaining_cons_lt (mem_sites ‹_›) ‹_›

theorem meaning_of_failed {e : Error} (h : w.standing? site.owner = some (.failed e)) :
    w.meaning path site = .raise e := by
  rw [meaning, h]

theorem meaning_of_usable (h : ∀ e, w.standing? site.owner ≠ some (.failed e)) :
    w.meaning path site =
      match w.lazy? site with
      | none => pure .null
      | some (.settled v) => pure v
      | some (.pending source) =>
        if site ∈ path then .raise (w.circularity site)
        else source.evaluate (w.fixedScope (w.meaning (site :: path)) site.owner) := by
  rw [meaning]
  split
  · exact absurd ‹_› (h _)
  · split <;> simp_all

/-! ## Registries that store what is meant -/

/-- Nothing can be loaded, and every source is an expression. -/
structure Closed (w : Registry) : Prop where
  indexed : w.Indexed
  hookless : w.autoloader = none
  sources : ∀ site source, w.lazy? site = some (.pending source) → ∃ e, source = .expr e

/-- No value is there yet. -/
def AllPending (r : Registry) (path : List LazySite) : Prop :=
  ∀ site ∈ path, ∃ source, r.lazy? site = some (.pending source)

/-- The registry has come out of `w` without a failure of a class, and whatever
value it has stored is the one that is meant, on every path that may be taken. -/
structure Memo (w s : Registry) : Prop where
  within : w.Within s
  failed : ∀ c e, s.standing? c = some (.failed e) → w.standing? c = some (.failed e)
  inProgress : s.AllPending s.evaluating
  stored : ∀ site v, s.lazy? site = some (.settled v) →
    (∀ e, w.standing? site.owner ≠ some (.failed e)) →
    ∀ path, s.AllPending path → w.meaning path site () = .value v ()

/-- The second registry has come out of the first by computing values. -/
structure Continues (w s t : Registry) : Prop where
  memo : Memo w t
  evaluating : t.evaluating = s.evaluating
  pending : ∀ path, t.AllPending path → s.AllPending path

theorem Memo.refl (hw : w.Closed) (hevaluating : w.evaluating = []) : Memo w w where
  within := .refl hw.hookless
  failed _ _ h := h
  inProgress := by
    rw [hevaluating]
    exact fun _ h => absurd h List.not_mem_nil
  stored site v hv hu path _ := by
    rw [meaning_of_usable hu, hv]
    rfl

theorem Continues.refl (h : Memo w s) : Continues w s s := ⟨h, rfl, fun _ h => h⟩

theorem Continues.trans (h : Continues w s t) (h' : Continues w t r) : Continues w s r :=
  ⟨h'.memo, h'.evaluating.trans h.evaluating, fun path hp => h.pending path (h'.pending path hp)⟩

theorem Memo.usable_iff (h : Memo w s) {c : ClassId} :
    (∀ e, s.standing? c ≠ some (.failed e)) ↔ ∀ e, w.standing? c ≠ some (.failed e) :=
  ⟨fun hu e he => hu e (h.within.grows.failed he), fun hu e he => hu e (h.failed c e he)⟩

theorem Within.lazy?_eq_none (h : w.Within s) (hi : s.Issued site.owner)
    (hnone : s.lazy? site = none) : w.lazy? site = none := by
  obtain ⟨d, hd⟩ := issued_iff_decl?.mp hi
  obtain ⟨d', hd', hset⟩ := h.decl? hd
  rw [lazy?, hd] at hnone
  rw [lazy?, hd']
  rcases hset.lazy? site.member with hsame | ⟨source, v, -, hv⟩
  · exact hsame.symm.trans hnone
  · exact absurd (hv.symm.trans hnone) (by simp)

theorem Memo.pending (h : Memo w s) (hp : s.lazy? site = some (.pending source)) :
    w.lazy? site = some (.pending source) := by
  obtain ⟨d, hd, -⟩ := Option.bind_eq_some_iff.mp hp
  exact h.within.grows.pending (h.within.issued_iff.mp (.of_decl? hd)) hp

/-- A computation in a registry and its meaning.  A value is meant on every path
of pending values; a failure is meant on the path of the values in progress. -/
def Denotes {α : Type} (w : Registry) (x : Eval Registry α) (plain : List LazySite → Eval Unit α)
    (s : Registry) (Q : α → Prop) (D : Prop) : Prop :=
  (x s).Meets
    (fun a t => Continues w s t ∧ Q a ∧ ∀ path, t.AllPending path → plain path () = .value a ())
    (fun f t => Continues w s t ∧ (∃ e, f = .raised e) ∧
      plain s.evaluating () = .failure f ()) D

namespace Denotes

variable {α β : Type} {x : Eval Registry α} {plain : List LazySite → Eval Unit α} {Q : α → Prop}
  {D : Prop}

theorem pure {a : α} (h : Memo w s) (hq : Q a) :
    Denotes w (pure a) (fun _ => pure a) s Q D :=
  ⟨.refl h, hq, fun _ _ => rfl⟩

theorem raise (e : Error) (h : Memo w s) :
    Denotes w (Eval.raise e : Eval Registry α) (fun _ => .raise e) s Q D :=
  ⟨.refl h, ⟨e, rfl⟩, rfl⟩

theorem ofExcept (result : Except Error α) (h : Memo w s) :
    Denotes w (Eval.ofExcept result) (fun _ => .ofExcept result) s (fun _ => True) D := by
  cases result with
  | ok a => exact .pure h trivial
  | error e => exact .raise e h

theorem bind {f : α → Eval Registry β} {plain' : α → List LazySite → Eval Unit β} {R : β → Prop}
    (hx : Denotes w x plain s Q D)
    (hf : ∀ a t, Continues w s t → Q a → Denotes w (f a) (plain' a) t R D) :
    Denotes w (x >>= f) (fun path => plain path >>= fun a => plain' a path) s R D := by
  refine Eval.meets_bind (Outcome.Meets.imp hx (fun _ _ h => h) ?_ fun h => h) ?_
  · rintro fault t ⟨ht, hraised, hplain⟩
    refine ⟨ht, hraised, ?_⟩
    dsimp only
    rw [Eval.bind_apply, hplain]
  · rintro a t ⟨ht, hq, hplain⟩
    refine (hf a t ht hq).imp ?_ ?_ fun h => h
    · rintro b u ⟨hu, hr, hplain'⟩
      refine ⟨ht.trans hu, hr, fun path hpath => ?_⟩
      dsimp only
      rw [Eval.bind_apply, hplain path (hu.pending path hpath)]
      exact hplain' path hpath
    · rintro fault u ⟨hu, hraised, hplain'⟩
      refine ⟨ht.trans hu, hraised, ?_⟩
      rw [ht.evaluating] at hplain'
      dsimp only
      rw [Eval.bind_apply, hplain _ (ht.evaluating ▸ ht.memo.inProgress)]
      exact hplain'

theorem imp {R : α → Prop} {D' : Prop} (h : Denotes w x plain s Q D) (hq : ∀ a, Q a → R a)
    (hd : D → D') : Denotes w x plain s R D' :=
  Outcome.Meets.imp h (fun _ _ ⟨ht, ha, hp⟩ => ⟨ht, hq _ ha, hp⟩) (fun _ _ h => h) hd

/-- An attempt gives the value or the error that is meant. -/
theorem attempt {F : Fault → Registry → Prop} (h : Denotes w x plain s Q D) :
    (x.attempt s).Meets
      (fun result t => Continues w s t ∧
        (∀ a, result = .ok a → ∀ path, t.AllPending path → plain path () = .value a ()) ∧
        ∀ e, result = .error e → plain s.evaluating () = .failure (.raised e) ()) F D := by
  refine Eval.meets_attempt h ?_ ?_ ?_
  · rintro a t ⟨ht, -, hplain⟩
    refine ⟨ht, ?_, fun e he => by cases he⟩
    rintro _ ⟨⟩
    exact hplain
  · rintro e t ⟨ht, -, hplain⟩
    refine ⟨ht, fun a ha => (by cases ha), ?_⟩
    rintro _ ⟨⟩
    exact hplain
  · rintro id t ⟨-, ⟨e, he⟩, -⟩
    cases he

end Denotes

/-! ## Fetching and expressions -/

section Fetch

variable (hw : w.Closed)
include hw

theorem locate_denotes {c : ClassId} (h : Memo w s) (hc : s.Issued c) (depth : Nat)
    (qualifier : Qualifier) (name : String) :
    Denotes w (locate depth c qualifier name)
      (fun _ => (locate (w.size + 1) c qualifier name).inState w) s
      (fun site => s.Issued site.owner) (depth ≤ w.size) := by
  refine (locate_meets hw.indexed hw.hookless h.within hc depth qualifier name).imp ?_ ?_
    fun h => h
  · rintro site _ ⟨⟨rfl, hsite⟩, hplain⟩
    refine ⟨.refl h, hsite, fun _ _ => ?_⟩
    dsimp only
    rw [Eval.inState_apply, hplain]
  · rintro f _ ⟨⟨rfl, hraised⟩, hplain⟩
    refine ⟨.refl h, hraised, ?_⟩
    dsimp only
    rw [Eval.inState_apply, hplain]

theorem fetchWith_denotes {force : LazySite → Eval Registry Value} {c : ClassId} {depth : Nat}
    {plain : List LazySite → LazySite → Eval Unit Value} {D : Prop} (h : Memo w s)
    (hc : s.Issued c)
    (hforce : ∀ site t, Memo w t → t.evaluating = s.evaluating → t.Issued site.owner →
      Denotes w (force site) (fun path => plain path site) t (fun _ => True) D)
    (hdepth : depth ≤ w.size → D) (qualifier : Qualifier) (name : String) :
    Denotes w (fetchWith force depth c qualifier name)
      (fun path => (w.fixedScope (plain path) c).fetch qualifier name) s (fun _ => True) D := by
  rw [fetchWith_eq]
  refine ((locate_denotes hw h hc depth qualifier name).imp (fun _ h => h) hdepth).bind
    fun site t ht hsite => ?_
  have hissued : t.Issued site.owner :=
    ht.memo.within.issued_iff.mpr (h.within.issued_iff.mp hsite)
  exact hforce site t ht.memo ht.evaluating hissued

end Fetch

theorem Expr.evaluate_denotes {scope : Scope Registry} {plain : List LazySite → Scope Unit}
    {D : Prop} {current : List LazySite}
    (hfetch : ∀ qualifier name t, Memo w t → t.evaluating = current →
      Denotes w (scope.fetch qualifier name) (fun path => (plain path).fetch qualifier name) t
        (fun _ => True) D)
    (e : Expr) (h : Memo w s) (hs : s.evaluating = current) :
    Denotes w (e.evaluate scope) (fun path => e.evaluate (plain path)) s (fun _ => True) D := by
  induction e generalizing s with
  | literal value => exact .pure h trivial
  | constant qualifier name => exact hfetch qualifier name s h hs
  | binary op left right ihl ihr =>
    refine (ihl h hs).bind fun a t ht _ => ?_
    exact (ihr ht.memo (ht.evaluating.trans hs)).bind fun b u hu _ => .ofExcept _ hu.memo
  | negate operand ih => exact (ih h hs).bind fun a t ht _ => .ofExcept _ ht.memo

/-! ## Computing and storing -/

theorem evaluateSite_of_circular {scope : Scope Registry} {d : ClassDecl}
    (h : site ∈ s.evaluating) :
    evaluateSite scope site d source s =
      .failure (.raised (.circularConstant d.name.text (site.member.label d))) s := by
  unfold evaluateSite
  rw [Eval.bind_apply, Eval.get_apply]
  dsimp only
  rw [if_pos (by simpa using h)]
  rfl

theorem evaluateSite_of_fresh {scope : Scope Registry} {d : ClassDecl}
    (h : site ∉ s.evaluating) :
    evaluateSite scope site d source s =
      (do
        let result ← (source.evaluate scope).attempt
        .modify (endEvaluation site result)
        .ofExcept result : Eval Registry Value) (s.beginEvaluation site) := by
  unfold evaluateSite
  rw [Eval.bind_apply, Eval.get_apply]
  dsimp only
  rw [if_neg (by simpa using h)]
  rfl

theorem Memo.beginEvaluation (h : Memo w s) (hp : s.lazy? site = some (.pending source)) :
    Memo w (s.beginEvaluation site) where
  within := h.within.of_eq rfl rfl rfl rfl
  failed := h.failed
  inProgress := by
    intro other hother
    rcases List.mem_cons.mp hother with rfl | hother
    · exact ⟨source, hp⟩
    · exact h.inProgress other hother
  stored := h.stored

theorem AllPending.of_endEvaluation {result : Except Error Value}
    (h : (s.endEvaluation site result).AllPending path) : s.AllPending path := by
  intro other hother
  obtain ⟨source, hp⟩ := h other hother
  rw [lazy?_endEvaluation] at hp
  cases result with
  | error e => exact ⟨source, hp⟩
  | ok v =>
    dsimp only at hp
    split at hp
    · cases hl : s.lazy? other with
      | none => rw [hl] at hp; cases hp
      | some l => rw [hl] at hp; cases l <;> cases hp
    · exact ⟨source, hp⟩

/-- A value that is stored is no longer pending. -/
theorem AllPending.not_mem {v : Value}
    (h : (s.endEvaluation site (.ok v)).AllPending path) : site ∉ path := by
  intro hmem
  obtain ⟨source, hp⟩ := h site hmem
  exact computed_endEvaluation v source hp

/-- What is stored is what is meant, if the value that has just been computed is. -/
theorem Memo.endEvaluation {rest : List LazySite} {result : Except Error Value} (h : Memo w t)
    (hevaluating : t.evaluating = site :: rest) (hrest : site ∉ rest)
    (hvalue : ∀ v, result = .ok v → ∀ path, site ∉ path → t.AllPending path →
      w.meaning path site () = .value v ()) :
    Memo w (t.endEvaluation site result) where
  within := h.within.endEvaluation site result
  failed c e hc := by
    rw [standing?_endEvaluation] at hc
    exact h.failed c e hc
  inProgress := by
    rw [evaluating_endEvaluation, hevaluating, List.erase_cons_head]
    intro other hother
    have hne : other ≠ site := fun heq => hrest (heq ▸ hother)
    obtain ⟨source, hp⟩ := h.inProgress other (hevaluating ▸ List.mem_cons_of_mem site hother)
    refine ⟨source, ?_⟩
    rw [lazy?_endEvaluation]
    cases result with
    | error e => exact hp
    | ok v => exact (if_neg hne).trans hp
  stored other v hv hu path hpath := by
    rw [lazy?_endEvaluation] at hv
    cases result with
    | error e => exact h.stored other v hv hu path hpath.of_endEvaluation
    | ok v' =>
      dsimp only at hv
      split at hv
      · -- the site was in progress, so there is no value but the new one
        rename_i heq
        subst heq
        obtain ⟨source, hp⟩ := h.inProgress other (by rw [hevaluating]; exact List.mem_cons_self)
        rw [hp] at hv
        cases hv
        exact hvalue v rfl path hpath.not_mem hpath.of_endEvaluation
      · exact h.stored other v hv hu path hpath.of_endEvaluation

theorem Continues.endEvaluation {result : Except Error Value}
    (h : Continues w (s.beginEvaluation site) t) (hfresh : site ∉ s.evaluating)
    (hvalue : ∀ v, result = .ok v → ∀ path, site ∉ path → t.AllPending path →
      w.meaning path site () = .value v ()) :
    Continues w s (t.endEvaluation site result) where
  memo := h.memo.endEvaluation h.evaluating hfresh hvalue
  evaluating := by
    rw [evaluating_endEvaluation, h.evaluating]
    exact List.erase_cons_head site s.evaluating
  pending path hpath := h.pending path hpath.of_endEvaluation

/-- The error of a circle names the class and the member, which do not change. -/
theorem circularity_eq (h : w.Within s) {d : ClassDecl} (hd : s.decl? site.owner = some d) :
    w.circularity site = .circularConstant d.name.text (site.member.label d) := by
  obtain ⟨d', hd', hset⟩ := h.decl? hd
  rw [circularity, declOf_eq hd', hset.alike.name, hset.alike.label]

/-- The bound on nesting that a value may need: one step for each value that is
not in progress, and a search below. -/
def nestingBound (w : Registry) (path : List LazySite) : Nat :=
  w.size + 1 + w.remaining path

theorem evaluateSite_denotes {scope : Scope Registry} {d : ClassDecl} {e : Expr} {D : Prop}
    (h : Memo w s) (hd : s.decl? site.owner = some d)
    (hp : s.lazy? site = some (.pending (.expr e)))
    (hu : ∀ e, w.standing? site.owner ≠ some (.failed e))
    (hfetch : site ∉ s.evaluating → ∀ qualifier name t, Memo w t →
      t.evaluating = site :: s.evaluating →
      Denotes w (scope.fetch qualifier name)
        (fun path => (w.fixedScope (w.meaning path) site.owner).fetch qualifier name) t
        (fun _ => True) D) :
    Denotes w (evaluateSite scope site d (.expr e)) (fun path => w.meaning path site) s
      (fun _ => True) D := by
  have hmeaning : ∀ path, w.meaning path site =
      if site ∈ path then .raise (w.circularity site)
      else e.evaluate (w.fixedScope (w.meaning (site :: path)) site.owner) := by
    intro path
    rw [meaning_of_usable hu, h.pending hp]
    rfl
  by_cases hpath : site ∈ s.evaluating
  · unfold Denotes
    rw [evaluateSite_of_circular hpath]
    refine ⟨.refl h, ⟨_, rfl⟩, ?_⟩
    dsimp only
    rw [hmeaning, if_pos hpath, circularity_eq h.within hd]
    rfl
  have hsource : Denotes w (e.evaluate scope)
      (fun path => e.evaluate (w.fixedScope (w.meaning path) site.owner))
      (s.beginEvaluation site) (fun _ => True) D :=
    Expr.evaluate_denotes (hfetch hpath) e (h.beginEvaluation hp) rfl
  unfold Denotes
  rw [evaluateSite_of_fresh hpath]
  refine Eval.meets_bind hsource.attempt ?_
  rintro result t ⟨ht, hok, herror⟩
  -- on any path the value leads to what it led to on this one, with the site on it
  have hvalue : ∀ v, result = .ok v → ∀ path, site ∉ path → t.AllPending path →
      w.meaning path site () = .value v () := by
    rintro v rfl path hnot hall
    rw [hmeaning, if_neg hnot]
    refine hok v rfl (site :: path) fun other hother => ?_
    rcases List.mem_cons.mp hother with rfl | hother
    · exact ht.memo.inProgress other (ht.evaluating ▸ List.mem_cons_self)
    · exact hall other hother
  have hdone := ht.endEvaluation hpath hvalue
  cases result with
  | ok v =>
    exact ⟨hdone, trivial, fun path hall => hvalue v rfl path hall.not_mem hall.of_endEvaluation⟩
  | error err =>
    refine ⟨hdone, ⟨err, rfl⟩, ?_⟩
    dsimp only
    rw [hmeaning, if_neg hpath]
    exact herror err rfl

/-- Computing a value ends as its meaning says. -/
theorem force_denotes (hw : w.Closed) (depth : Nat) :
    ∀ site s, Memo w s → s.Issued site.owner →
      Denotes w (force depth site) (fun path => w.meaning path site) s (fun _ => True)
        (depth ≤ w.nestingBound s.evaluating) := by
  induction depth with
  | zero => exact fun site s _ _ => Nat.zero_le _
  | succ depth ih =>
    intro site s h hsite
    obtain ⟨d, hd⟩ := issued_iff_decl?.mp hsite
    have hl : s.lazy? site = d.lazy? site.member := by rw [lazy?, hd]; rfl
    by_cases hfailed : ∃ e, s.standing? site.owner = some (.failed e)
    · obtain ⟨e, he⟩ := hfailed
      unfold Denotes
      rw [force_of_failed depth he]
      refine ⟨.refl h, ⟨e, rfl⟩, ?_⟩
      dsimp only
      rw [meaning_of_failed (h.failed _ e he)]
      rfl
    have hu : ∀ e, s.standing? site.owner ≠ some (.failed e) := fun e he => hfailed ⟨e, he⟩
    have hu' := h.usable_iff.mp hu
    unfold Denotes
    rw [force_of_usable depth hd hu]
    cases hm : d.lazy? site.member with
    | none =>
      refine ⟨.refl h, trivial, fun path _ => ?_⟩
      have hnone := h.within.lazy?_eq_none hsite (hl.trans hm)
      dsimp only
      rw [meaning_of_usable hu', hnone]
      rfl
    | some l =>
      cases l with
      | settled v => exact ⟨.refl h, trivial, h.stored site v (hl.trans hm) hu'⟩
      | pending source =>
        have hp : s.lazy? site = some (.pending source) := hl.trans hm
        obtain ⟨e, rfl⟩ := hw.sources site source (h.pending hp)
        refine evaluateSite_denotes h hd hp hu' fun hpath qualifier name t ht hevaluating => ?_
        have hissued : t.Issued site.owner :=
          ht.within.issued_iff.mpr (h.within.issued_iff.mp hsite)
        have hfewer := remaining_cons_lt (mem_sites (h.pending hp)) hpath
        refine fetchWith_denotes hw ht hissued (fun found u hu hsame hfound =>
          (ih found u hu hfound).imp (fun _ h => h) fun hspent => ?_) (fun hspent => ?_)
          qualifier name
        · rw [hsame, hevaluating, nestingBound] at hspent
          unfold nestingBound
          omega
        · unfold nestingBound
          omega

end Registry
end Lineage
