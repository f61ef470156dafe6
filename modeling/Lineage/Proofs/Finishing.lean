/-
Searches and evaluations end.

The theorem of this file is `force_ends`: computing a value does not nest deeper
than there are values that may still come in progress, and one search more.  A
value that is computed is not in progress, and one that is computed for another is
a constant that some source mentions, of a class that can be registered.  A search
visits no class twice.

The class names and the constants are those of two lists that hold for the whole
operation, while classes are registered and values are stored on the way.
-/
import Lineage.Proofs.Confined
import Lineage.Proofs.Depth
import Lineage.Proofs.FailedClass
import Mathlib.Data.Finset.Prod

namespace Lineage
namespace Registry

variable {r s : Registry} {names constants : List String}

/-! ## Computations that end -/

theorem lookup_prompt (name : QualifiedName) : (lookup name).Prompt :=
  fun r hspent => (lookup_meets name r).of_tooDeep hspent

/-- The computation ends, and only looks up names and computes values, unless the
bound on nesting is as small as `small` says. -/
def Finishes {α : Type} (names constants : List String) (x : Eval Registry α) (r : Registry)
    (Q : α → Registry → Prop) (small : Prop) : Prop :=
  (x r).Meets (fun a s => Computes r s ∧ s.Fit names constants ∧ Q a s)
    (fun _ s => Computes r s ∧ s.Fit names constants) small

namespace Finishes

variable {α β : Type} {x : Eval Registry α} {Q : α → Registry → Prop} {small : Prop}

theorem pure {a : α} (h : r.Fit names constants) (hq : Q a r) :
    Finishes names constants (pure a) r Q small := ⟨.refl r, h, hq⟩

theorem raise (e : Error) (h : r.Fit names constants) :
    Finishes names constants (Eval.raise e : Eval Registry α) r Q small := ⟨.refl r, h⟩

theorem bind {f : α → Eval Registry β} {R : β → Registry → Prop}
    (hx : Finishes names constants x r Q small)
    (hf : ∀ a s, Computes r s → s.Fit names constants → Q a s →
      Finishes names constants (f a) s R small) :
    Finishes names constants (x >>= f) r R small := by
  refine Eval.meets_bind (Outcome.Meets.imp hx (fun _ _ h => h) (fun _ _ h => h) id) ?_
  rintro a s ⟨hs, hfit, hq⟩
  refine (hf a s hs hfit hq).imp ?_ ?_ id
  · exact fun b t ⟨ht, h⟩ => ⟨hs.trans ht, h⟩
  · exact fun f t ⟨ht, h⟩ => ⟨hs.trans ht, h⟩

theorem imp {R : α → Registry → Prop} {small' : Prop}
    (h : Finishes names constants x r Q small) (hq : ∀ a s, s.Fit names constants → Q a s → R a s)
    (hd : small → small') : Finishes names constants x r R small' :=
  Outcome.Meets.imp h (fun a s ⟨hs, hfit, ha⟩ => ⟨hs, hfit, hq a s hfit ha⟩) (fun _ _ h => h) hd

/-- Whatever keeps to computing, and registers nothing else, is looked at only for
the case in which the bound is spent. -/
theorem of_computing {E : Error → Prop} (h : r.Fit names constants) (hx : Computing x r Q)
    (hkeep : Maintains (Confined names constants) E x) (hspent : x r = .tooDeep → small) :
    Finishes names constants x r Q small := by
  have hsteps : ∀ {s}, Computes r s → Relation.ReflTransGen Change r s :=
    fun hs => (Advances.of_computes hs).steps
  refine ((Outcome.Meets.and hx (hkeep r h.toConfined)).bounded hspent).imp ?_ ?_ id
  · rintro a s ⟨⟨hs, hq⟩, hconf⟩
    exact ⟨hs, h.of_steps (hsteps hs) hconf, hq⟩
  · rintro f s ⟨⟨hs, -⟩, hconf, -⟩
    exact ⟨hs, h.of_steps (hsteps hs) hconf⟩

theorem of_value {a : α} (h : Finishes names constants x r Q small) (hx : x r = .value a s) :
    Computes r s ∧ s.Fit names constants ∧ Q a s := by
  unfold Finishes at h
  rw [hx] at h
  exact h

theorem attempt (h : Finishes names constants x r Q small) :
    (x.attempt r).Meets (fun _ s => Computes r s ∧ s.Fit names constants)
      (fun _ s => Computes r s ∧ s.Fit names constants) small :=
  Eval.meets_attempt h (fun _ _ h => ⟨h.1, h.2.1⟩) (fun _ _ h => h) fun _ _ h => h

theorem decl {c : ClassId} (h : r.Fit names constants) (hc : r.Issued c) :
    Finishes names constants (.ask (·.decl c)) r (fun d s => s.decl? c = some d ∧ s = r) small := by
  refine Eval.meets_ask (fun d hd => ⟨.refl r, h, decl_eq_ok_iff.mp hd, rfl⟩) fun f hf => ?_
  exact absurd hf (decl_eq_error hc f)

theorem lookup (name : QualifiedName) (h : r.Fit names constants) :
    Finishes names constants (Registry.lookup name) r (fun id s => s.Issued id) small := by
  refine .of_computing h (lookup_computing name h.reachable.indexed)
    ((stable_confined names constants).lookup name) fun hspent => ?_
  exact absurd hspent (lookup_prompt name r)

end Finishes

/-! ## Searches -/

/-- Something that was found is a class, and no visited class is forgotten, also
if the registry has grown. -/
theorem Visiting.of_le {before between : List ClassId} {found : Option ClassId × List ClassId}
    (hle : before.length ≤ between.length) (h : r.Visiting between found) :
    r.Visiting before found :=
  ⟨h.1, h.2.1, Nat.le_trans hle h.2.2⟩

theorem Seen.mono {visited : List ClassId} (hs : r.Extends s) (h : r.Seen visited) :
    s.Seen visited :=
  ⟨h.nodup, fun x hx => hs.issued (h.issued x hx)⟩

theorem searchReferences_finishes
    {search : ClassId → List ClassId → Eval Registry (Option ClassId × List ClassId)} {depth : Nat}
    (hsearch : ∀ p visited r, Fit names constants r → r.Issued p → r.Seen visited →
      Finishes names constants (search p visited) r (fun found s => s.Visiting visited found)
        (depth + visited.length ≤ names.length))
    (references : List QualifiedName) (visited : List ClassId) (r : Registry)
    (h : r.Fit names constants) (hvisited : r.Seen visited) :
    Finishes names constants (searchReferences search references visited) r
      (fun found s => s.Visiting visited found) (depth + visited.length ≤ names.length) := by
  induction references generalizing visited r with
  | nil => exact .pure h ⟨by simp, hvisited, Nat.le_refl _⟩
  | cons name rest ih =>
    refine (Finishes.lookup name h).bind fun p s hs hfit hp => ?_
    refine (hsearch p visited s hfit hp (hvisited.mono hs.grows)).bind ?_
    intro found t _ hfit' hfound
    obtain ⟨owner?, between⟩ := found
    cases owner? with
    | some owner => exact .pure hfit' hfound
    | none =>
      have hlonger : visited.length ≤ between.length := hfound.2.2
      refine (ih between t hfit' hfound.2.1).imp (fun _ _ _ h => h.of_le hlonger) fun hspent => ?_
      omega

/-- Each level of a search visits one more class, and there are no more than
names. -/
theorem searchConstant_finishes (name : String) (depth : Nat) :
    ∀ c visited r, Fit names constants r → r.Issued c → r.Seen visited →
      Finishes names constants (searchConstant name depth c visited) r
        (fun found s => s.Visiting visited found) (depth + visited.length ≤ names.length) := by
  induction depth with
  | zero =>
    intro c visited r h _ hvisited
    show 0 + visited.length ≤ names.length
    rw [Nat.zero_add]
    exact h.length_le hvisited
  | succ depth ih =>
    intro c visited r h hc hvisited
    unfold searchConstant
    split
    · exact .pure h ⟨by simp, hvisited, Nat.le_refl _⟩
    · rename_i hnew
      have hnew : c ∉ visited := by simpa using hnew
      have hseen : r.Seen (c :: visited) :=
        ⟨List.nodup_cons.mpr ⟨hnew, hvisited.nodup⟩, by simpa using ⟨hc, hvisited.issued⟩⟩
      refine (Finishes.decl h hc).bind ?_
      rintro d _ - - ⟨-, rfl⟩
      split
      · exact .pure h ⟨by simpa using hc, hseen, by simp⟩
      · refine (searchReferences_finishes ih d.references (c :: visited) _ h hseen).imp
          (fun _ _ _ hfound => hfound.of_le (by simp)) fun hspent => ?_
        rw [List.length_cons] at hspent
        omega

theorem target_finishes {c : ClassId} {small : Prop} (h : r.Fit names constants) (hc : r.Issued c)
    (qualifier : Qualifier) :
    Finishes names constants (target c qualifier) r (fun id s => s.Issued id) small := by
  cases qualifier with
  | self => exact .pure h hc
  | static => exact .pure h hc
  | named name => exact .lookup name h
  | parent =>
    refine (Finishes.decl h hc).bind ?_
    rintro d _ - - ⟨-, rfl⟩
    cases d.parent with
    | none => exact .raise _ h
    | some name => exact .lookup name h

/-! ## Values -/

/-- A fetch ends if the search for the class ends and so does the value that it
leads to. -/
theorem fetchWith_finishes {force : LazySite → Eval Registry Value} {depth : Nat} {small : Prop}
    {c : ClassId} (h : r.Fit names constants) (hc : r.Issued c) (qualifier : Qualifier)
    (name : String)
    (hforce : ∀ owner s, Fit names constants s → s.Issued owner → s.evaluating = r.evaluating →
      Finishes names constants (force ⟨owner, .constant name⟩) s (fun _ _ => True) small)
    (hsmall : depth ≤ names.length → small) :
    Finishes names constants (fetchWith force depth c qualifier name) r (fun _ _ => True)
      small := by
  refine (target_finishes h hc qualifier).bind fun id s hs hfit hid => ?_
  have hsearch := searchConstant_finishes name depth id [] s hfit hid ⟨List.nodup_nil, by simp⟩
  refine (hsearch.imp (fun _ _ _ h => h) hsmall).bind fun found t ht hfit' hfound => ?_
  obtain ⟨owner?, visited⟩ := found
  cases owner? with
  | some owner =>
    exact hforce owner t hfit' (hfound.1 owner rfl) (ht.evaluating.trans hs.evaluating)
  | none =>
    exact (Finishes.decl hfit' (ht.grows.issued hid)).bind fun _ _ _ hfit'' _ =>
      .raise _ hfit''

/-- A program ends if its fetches do. -/
theorem evaluate_finishes {scope : Scope Registry} {c : ClassId} {small : Prop}
    {current : List LazySite} (hnote : scope.note = note)
    (hfetch : ∀ qualifier, ∀ name ∈ constants, ∀ s, Fit names constants s → s.Issued c →
      s.evaluating = current →
      Finishes names constants (scope.fetch qualifier name) s (fun _ _ => True) small)
    (p : Program) (hp : p.FetchesOnly constants) (r : Registry) (h : r.Fit names constants)
    (hc : r.Issued c) (hcurrent : r.evaluating = current) :
    Finishes names constants (p.evaluate scope) r (fun _ _ => True) small := by
  induction p generalizing r with
  | done result =>
    cases result with
    | ok v => exact .pure h trivial
    | error e => exact .raise e h
  | fetch qualifier name next ih =>
    obtain ⟨hname, hnext⟩ := hp
    have hanswer := (hfetch qualifier name hname r h hc hcurrent).attempt
    refine Finishes.bind (Q := fun _ _ => True)
      (hanswer.imp (fun _ _ h => ⟨h.1, h.2, trivial⟩) (fun _ _ h => h) id) ?_
    intro answer s hs hfit _
    exact ih answer (hnext answer) s hfit (hs.grows.issued hc) (hs.evaluating.trans hcurrent)
  | note label next ih =>
    have hs : Computes r (r.note label) := ⟨.single (.noted label), rfl⟩
    have hfit : (r.note label).Fit names constants :=
      h.of_steps (Advances.of_computes hs).steps ((stable_confined _ _).note label r h.toConfined)
    refine Finishes.bind (Q := fun _ s => s = r.note label) ?_ ?_
    · rw [hnote]
      exact ⟨hs, hfit, rfl⟩
    · rintro _ _ - - rfl
      exact ih hp _ hfit (hs.grows.issued hc) hcurrent

/-- Every value that can be computed for another one: a constant that some source
mentions, of any class that can be registered. -/
def nestable (names constants : List String) : Finset LazySite :=
  (Finset.range names.length ×ˢ constants.toFinset).image fun pair =>
    { owner := .ofIndex pair.1, member := .constant pair.2 }

theorem card_nestable_le (names constants : List String) :
    (nestable names constants).card ≤ names.length * constants.length := by
  refine Nat.le_trans Finset.card_image_le ?_
  rw [Finset.card_product, Finset.card_range]
  exact Nat.mul_le_mul_left _ constants.toFinset_card_le

theorem Fit.mem_nestable (h : r.Fit names constants) {owner : ClassId} (ho : r.Issued owner)
    {name : String} (hname : name ∈ constants) :
    ⟨owner, .constant name⟩ ∈ nestable names constants := by
  refine Finset.mem_image.mpr ⟨(owner.index, name), ?_, ?_⟩
  · rw [Finset.mem_product, Finset.mem_range, List.mem_toFinset]
    exact ⟨Nat.lt_of_lt_of_le ho h.size_le, hname⟩
  · rw [ClassId.ofIndex_index]

/-- How many values may still come in progress, beginning with the given one. -/
def ahead (names constants : List String) (site : LazySite) (r : Registry) : Nat :=
  (insert site (nestable names constants) \ r.evaluating.toFinset).card

theorem ahead_le (names constants : List String) (site : LazySite) (r : Registry) :
    ahead names constants site r ≤ names.length * constants.length + 1 := by
  refine Nat.le_trans (Finset.card_le_card Finset.sdiff_subset) ?_
  refine Nat.le_trans (Finset.card_insert_le _ _) ?_
  exact Nat.succ_le_succ (card_nestable_le names constants)

/-- With every value that comes in progress there are fewer. -/
theorem ahead_lt {site other : LazySite} (hother : other ∈ nestable names constants)
    (hfresh : site ∉ r.evaluating) (hs : s.evaluating = site :: r.evaluating) :
    ahead names constants other s < ahead names constants site r := by
  refine Finset.card_lt_card (Finset.ssubset_iff_subset_ne.mpr ⟨?_, fun heq => ?_⟩)
  · rw [Finset.insert_eq_of_mem hother, hs, List.toFinset_cons]
    exact Finset.sdiff_subset_sdiff (Finset.subset_insert _ _) (Finset.subset_insert _ _)
  · have hmem : site ∈ insert site (nestable names constants) \ r.evaluating.toFinset := by
      simp [hfresh]
    rw [← heq, hs] at hmem
    simp at hmem

theorem Confined.fetchesOnly (h : r.Confined names constants) {site : LazySite}
    {source : Initializer} (hp : r.lazy? site = some (.pending source)) :
    source.toProgram.FetchesOnly constants := by
  obtain ⟨d', hd', hm⟩ := Option.bind_eq_some_iff.mp hp
  obtain ⟨d, hdrawn, hset⟩ := h.supplied.declared _ d' hd'
  exact hdrawn.sources _ source (hset.lazy?_pending hm)

/-- A computation of values that ends. -/
theorem force_finishes_of {depth : Nat} {site : LazySite} {small : Prop} (h : r.Fit names constants)
    (hi : r.Issued site.owner) (hspent : force depth site r = .tooDeep → small) :
    Finishes names constants (force depth site) r (fun _ _ => True) small :=
  .of_computing h ((force_computes depth site r h.reachable.indexed hi).imp fun _ _ _ _ => trivial)
    ((stable_confined names constants).force depth site) hspent

/-- A value that is not in progress: whatever its source fetches has less ahead of
it. -/
theorem evaluateSite_ends {depth : Nat} {site : LazySite} {d : ClassDecl} {source : Initializer}
    (hforce : ∀ site r, Fit names constants r → r.Issued site.owner →
      force depth site r = .tooDeep → depth ≤ names.length + ahead names constants site r)
    (h : r.Fit names constants) (hi : r.Issued site.owner)
    (hp : r.lazy? site = some (.pending source))
    (hu : ∀ e, r.standing? site.owner ≠ some (.failed e)) (hfresh : site ∉ r.evaluating)
    (hspent : evaluateSite { fetch := fetchWith (force depth) depth site.owner, note := note }
      site d source r = .tooDeep) :
    depth + 1 ≤ names.length + ahead names constants site r := by
  have hbegin : Compute r (r.beginEvaluation site) := .began hp hu hfresh
  have hfit : (r.beginEvaluation site).Fit names constants :=
    h.of_steps (.single (.compute hbegin)) ((stable_confined _ _).began site r h.toConfined)
  have hsome : 1 ≤ ahead names constants site r :=
    Finset.card_pos.mpr ⟨site, by simp [hfresh]⟩
  have hfetch : ∀ qualifier, ∀ name ∈ constants, ∀ s, Fit names constants s →
      s.Issued site.owner → s.evaluating = site :: r.evaluating →
      Finishes names constants (fetchWith (force depth) depth site.owner qualifier name) s
        (fun _ _ => True) (depth + 1 ≤ names.length + ahead names constants site r) := by
    intro qualifier name hname s hs hc hcurrent
    refine fetchWith_finishes hs hc qualifier name (fun owner t ht ho heval => ?_) fun hsearch => ?_
    · refine force_finishes_of ht ho fun hdeep => ?_
      have hle := hforce _ t ht ho hdeep
      have hlt := ahead_lt (ht.mem_nestable ho hname) hfresh (heval.trans hcurrent)
      omega
    · omega
  rw [evaluateSite_of_fresh hfresh, Eval.bind_eq_tooDeep_iff, Eval.attempt_eq_tooDeep_iff,
    Initializer.evaluate_eq] at hspent
  rcases hspent with hspent | ⟨result, s, -, hspent⟩
  · exact (evaluate_finishes rfl hfetch _ (h.fetchesOnly hp) _ hfit
      (hbegin.grows.issued hi) rfl).of_tooDeep hspent
  · cases result <;> cases hspent

/-- Each level of computing values has one more value in progress, and at the
innermost one a class is searched for. -/
theorem force_ends (depth : Nat) :
    ∀ site r, Fit names constants r → r.Issued site.owner → force depth site r = .tooDeep →
      depth ≤ names.length + ahead names constants site r := by
  induction depth with
  | zero => exact fun _ _ _ _ _ => Nat.zero_le _
  | succ depth ih =>
    intro site r h hi hspent
    obtain ⟨d, hd⟩ := issued_iff_decl?.mp hi
    by_cases hf : ∃ e, r.standing? site.owner = some (.failed e)
    · obtain ⟨e, he⟩ := hf
      rw [force_of_failed depth he] at hspent
      cases hspent
    have hu : ∀ e, r.standing? site.owner ≠ some (.failed e) := fun e he => hf ⟨e, he⟩
    rw [force_of_usable depth hd hu] at hspent
    cases hm : d.lazy? site.member with
    | none =>
      rw [hm] at hspent
      cases hspent
    | some l =>
      rw [hm] at hspent
      cases l with
      | settled v => cases hspent
      | pending source =>
        by_cases hmem : site ∈ r.evaluating
        · dsimp only at hspent
          rw [evaluateSite_of_circular hmem] at hspent
          cases hspent
        · have hp : r.lazy? site = some (.pending source) := by
            rw [lazy?, hd]
            exact hm
          exact evaluateSite_ends ih h hi hp hu hmem hspent

/-- How deep the computation of a value can nest, whatever is in progress. -/
def valueDepth (names constants : List String) : Nat :=
  names.length + names.length * constants.length + 1

theorem force_finishes (depth : Nat) {site : LazySite} (h : r.Fit names constants)
    (hi : r.Issued site.owner) :
    Finishes names constants (force depth site) r (fun _ _ => True)
      (depth ≤ valueDepth names constants) := by
  refine force_finishes_of h hi fun hspent => ?_
  have hle := force_ends depth site r h hi hspent
  have hahead := ahead_le names constants site r
  unfold valueDepth
  omega

theorem constant_ends (depth : Nat) (id : ClassId) (name : String) (h : r.Fit names constants)
    (hspent : constant depth id name r = .tooDeep) : depth ≤ valueDepth names constants := by
  by_cases hi : r.Issued id
  · obtain ⟨st, hst⟩ := hi.standing?
    by_cases hf : ∃ e, st = .failed e
    · obtain ⟨e, rfl⟩ := hf
      rw [constant_of_failed depth name hst] at hspent
      cases hspent
    · rw [constant_eq_fetch depth name hst fun e he => hf ⟨e, he⟩] at hspent
      refine (fetchWith_finishes h hi .self name (fun owner s hs ho _ => force_finishes depth hs ho)
        fun hsearch => ?_).of_tooDeep hspent
      unfold valueDepth
      omega
  · unfold constant at hspent
    rw [Eval.bind_apply, Eval.ask, registration, registration?_eq_none hi] at hspent
    cases hspent

end Registry
end Lineage
