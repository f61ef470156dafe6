/-
Storing values does not show.

In a registry without a hook, whose sources are expressions, what a constant is
asked for does not depend on what was asked for before.  The theorem of this file
is `Run.constant_transparent`: after any reads of constants, also failing ones,
and after any successful resolution, a constant has the value or the error that it
had at first, and resolution of its class stores just that value.

Computing values has been dealt with by `force_denotes`.  What is left is that
resolution, too, leads from one `Memo` to the next.  This holds only where it
succeeds: a class that fails is no longer read.
-/
import Lineage.Proofs.FailedClass
import Lineage.Proofs.Meaning

namespace Lineage
namespace Registry

variable {w r s t : Registry} {c id : ClassId} {name : String} {depth : Nat}

/-! ## What successful computations keep -/

/-- The property survives the computation, if there is a value. -/
def Keeps {α : Type} (P : Registry → Prop) (x : Eval Registry α) : Prop :=
  ∀ s a t, P s → x s = .value a t → P t

namespace Keeps

variable {α β : Type} {P : Registry → Prop} {x : Eval Registry α}

theorem pure (a : α) : Keeps P (pure a) := by
  intro s b t hs h
  cases h
  exact hs

theorem get : Keeps P Eval.get := by
  intro s b t hs h
  cases h
  exact hs

theorem raise (e : Error) : Keeps P (Eval.raise e : Eval Registry α) := by
  intro s b t _ h
  cases h

theorem ask (question : Registry → Except Fault α) : Keeps P (.ask question) := by
  intro s b t hs h
  unfold Eval.ask at h
  cases hq : question s with
  | ok a =>
    rw [hq] at h
    cases h
    exact hs
  | error f =>
    rw [hq] at h
    cases h

theorem bind {f : α → Eval Registry β} (hx : Keeps P x) (hf : ∀ a, Keeps P (f a)) :
    Keeps P (x >>= f) := by
  intro s b u hs h
  obtain ⟨a, t, ht, hu⟩ := Eval.bind_eq_value_iff.mp h
  exact hf a t b u (hx s a t hs ht) hu

theorem forEach {f : α → Eval Registry Unit} {list : List α} (hf : ∀ a ∈ list, Keeps P (f a)) :
    Keeps P (.forEach f list) := by
  induction list with
  | nil => exact .pure ()
  | cons a rest ih =>
    exact (hf a List.mem_cons_self).bind fun _ => ih fun b hb => hf b (List.mem_cons_of_mem a hb)

end Keeps

section Link

variable {P : Registry → Prop} {resolve : ClassId → Eval Registry Unit}
  {force : LazySite → Eval Registry Value}

theorem reject_keeps (className target : String) (violation : Option Violation) :
    Keeps P (reject className target violation) := by
  refine Keeps.get.bind fun r => ?_
  cases violation with
  | none => exact .pure ()
  | some v =>
    dsimp only
    split
    · exact .raise _
    · exact .pure ()

theorem inheritAll_keeps (hlookup : ∀ name, Keeps P (lookup name))
    (hresolve : ∀ p, Keeps P (resolve p)) (d : ClassDecl) (refs : List (Role × QualifiedName))
    (links : Links) : Keeps P (inheritAll resolve d refs links) := by
  induction refs generalizing links with
  | nil => exact .pure links
  | cons ref rest ih =>
    refine Keeps.bind (Keeps.bind (hlookup ref.2) fun p => ?_) fun found => ih _
    refine (hresolve p).bind fun _ => (Keeps.ask _).bind fun base => ?_
    exact (reject_keeps _ _ _).bind fun _ => (Keeps.ask _).bind fun _ => .pure _

theorem declareMethods_keeps (id : ClassId) (d : ClassDecl) (entries : List (String × MethodDecl))
    (links : Links) : Keeps P (declareMethods id d entries links) := by
  induction entries generalizing links with
  | nil => exact .pure links
  | cons entry rest ih =>
    unfold declareMethods
    cases links.methods.get? entry.1 with
    | none => exact ih _
    | some m => exact (reject_keeps _ _ _).bind fun _ => ih _

/-- Linking keeps what lookups, resolution and own values keep. -/
theorem link_keeps (hlookup : ∀ name, Keeps P (lookup name))
    (hresolve : ∀ p, Keeps P (resolve p)) (hforce : ∀ m, Keeps P (force ⟨id, m⟩)) :
    Keeps P (link resolve force id) := by
  rw [link_eq]
  refine (Keeps.ask _).bind fun d => ?_
  refine (inheritAll_keeps hlookup hresolve d _ _).bind fun links => ?_
  refine (declareMethods_keeps id d _ links).bind fun links => ?_
  refine Keeps.bind (Keeps.forEach fun m _ => (hforce m).bind fun _ => .pure ()) fun _ => ?_
  exact Keeps.get.bind fun _ => .pure _

end Link

/-! ## Resolution -/

theorem Memo.beginLinking (h : Memo w s) (id : ClassId) : Memo w (s.beginLinking id) where
  within := h.within.of_eq rfl rfl rfl rfl
  failed := h.failed
  inProgress := h.inProgress
  stored := h.stored

theorem Memo.endLinking {links : Links} (h : Memo w s) (hu : s.standing? id = some .unresolved) :
    Memo w (s.endLinking id (.ok links)) := by
  have hlazy : ∀ site, (s.endLinking id (.ok links)).lazy? site = s.lazy? site := by
    intro site
    rw [lazy?, lazy?, decl?_endLinking]
  have hpending : ∀ path, (s.endLinking id (.ok links)).AllPending path ↔ s.AllPending path := by
    intro path
    simp only [AllPending, hlazy]
  refine ⟨h.within.endLinking hu, fun c e hc => ?_, ?_, fun site v hv hsite path hpath => ?_⟩
  · by_cases hcid : c = id
    · rw [hcid, standing?_endLinking hu] at hc
      cases hc
    · rw [standing?_endLinking_of_ne hcid] at hc
      exact h.failed c e hc
  · rw [hpending, evaluating_endLinking]
    exact h.inProgress
  · rw [hlazy] at hv
    exact h.stored site v hv hsite path ((hpending path).mp hpath)

theorem lookup_keeps (w : Registry) (name : QualifiedName) : Keeps (Memo w) (lookup name) := by
  intro s p t h hrun
  rw [h.within.lookup] at hrun
  cases hp : w.idOf? name with
  | none =>
    rw [hp] at hrun
    cases hrun
  | some q =>
    rw [hp] at hrun
    cases hrun
    exact h

section Resolve

variable (hw : w.Closed)
include hw

theorem force_keeps {site : LazySite} (hsite : w.Issued site.owner) (depth : Nat) :
    Keeps (Memo w) (force depth site) := by
  intro s v t h hrun
  have hdenotes := force_denotes hw depth site s h (h.within.issued_iff.mpr hsite)
  rw [Denotes, hrun] at hdenotes
  exact hdenotes.1.memo

/-- Resolution that succeeds leads from one `Memo` to the next. -/
theorem resolveId_keeps (depth : Nat) : ∀ id, Keeps (Memo w) (resolveId depth id) := by
  induction depth with
  | zero =>
    intro id s a t _ hrun
    cases hrun
  | succ depth ih =>
    intro id s a t h hrun
    have hindexed : s.Indexed := h.within.indexed hw.indexed
    have hid := Issued.of_resolveId hrun
    obtain ⟨st, hst⟩ := hid.standing?
    cases st with
    | resolved links =>
      rw [resolveId_of_resolved depth hst] at hrun
      cases hrun
      exact h
    | failed e =>
      rw [resolveId_of_failed depth hst] at hrun
      cases hrun
    | unresolved =>
      cases hc : s.cycle? id with
      | some e =>
        rw [resolveId_of_cycle depth hst hc] at hrun
        cases hrun
      | none =>
        have hfresh := cycle?_eq_none_iff.mp hc
        obtain ⟨d, hd⟩ := issued_iff_decl?.mp hid
        have hlink := link_meets (linkSteps_advances (r := s.beginLinking id) hindexed
          (resolveId_advances depth)) (.refl _) hd
        have hkeeps : Keeps (Memo w) (link (resolveId depth) (force depth) id) :=
          link_keeps (lookup_keeps w) ih fun m =>
            force_keeps hw (h.within.issued_iff.mp hid) depth
        rw [resolveId_of_fresh depth hst hfresh] at hrun
        obtain ⟨result, u, hattempt, hrest⟩ := Eval.bind_eq_value_iff.mp hrun
        cases result with
        | error e => cases hrest
        | ok links =>
          cases hrest
          have hrun := Eval.attempt_eq_ok_iff.mp hattempt
          rw [hrun] at hlink
          exact (hkeeps _ _ _ (h.beginLinking id) hrun).endLinking
            (hlink.1.held id List.mem_cons_self hst)

end Resolve

/-! ## Reading constants -/

/-- The constant as seen from a class, over a registry that stays as it is. -/
def constantMeaning (w : Registry) (path : List LazySite) (c : ClassId) (name : String) :
    Eval Unit Value :=
  match w.standing? c with
  | some (.failed e) => .raise e
  | _ => (w.fixedScope (w.meaning path) c).fetch .self name

theorem constant_denotes (hw : w.Closed) (h : Memo w s) (hc : w.Issued c) (depth : Nat)
    (name : String) :
    Denotes w (constant depth c name) (fun path => w.constantMeaning path c name) s
      (fun _ => True) (depth ≤ w.nestingBound s.evaluating) := by
  have hissued : s.Issued c := h.within.issued_iff.mpr hc
  by_cases hfailed : ∃ e, s.standing? c = some (.failed e)
  · obtain ⟨e, he⟩ := hfailed
    unfold Denotes
    rw [constant_of_failed depth name he]
    refine ⟨.refl h, ⟨e, rfl⟩, ?_⟩
    dsimp only
    rw [constantMeaning, h.failed c e he]
    rfl
  have hu : ∀ e, s.standing? c ≠ some (.failed e) := fun e he => hfailed ⟨e, he⟩
  obtain ⟨st, hst⟩ := hissued.standing?
  have hmeaning : ∀ path, w.constantMeaning path c name =
      (w.fixedScope (w.meaning path) c).fetch .self name := by
    intro path
    unfold constantMeaning
    split
    · exact absurd ‹_› (h.usable_iff.mp hu _)
    · rfl
  unfold Denotes
  rw [constant_eq_fetch depth name hst fun e he => hu e (he ▸ hst)]
  simp only [hmeaning]
  refine fetchWith_denotes hw h hissued (fun site t ht hsame hsite => ?_) (fun hspent => ?_) .self
    name
  · rw [← hsame]
    exact force_denotes hw depth site t ht hsite
  · unfold nestingBound
    omega

/-- The second registry comes out of the first by reading constants, whether they
are there or not, and by resolving classes with success. -/
inductive Consults (r : Registry) : Registry → Prop where
  | refl : Consults r r
  | read {s t : Registry} (h : Consults r s) (depth : Nat) (c : ClassId) (name : String)
      (ended : (perform depth (.constant c name) s).state? = some t) : Consults r t
  | resolved {s t : Registry} {answer : Answer} (h : Consults r s) (depth : Nat) (c : ClassId)
      (succeeded : perform depth (.resolveId c) s = .value answer t) : Consults r t

theorem perform_constant_state? (depth : Nat) (c : ClassId) (name : String) (r : Registry) :
    (perform depth (.constant c name) r).state? = (constant depth c name r).state? := by
  show Outcome.state? ((constant depth c name >>= _) r) = _
  rw [Eval.bind_apply]
  cases constant depth c name r <;> rfl

theorem resolveId_of_perform {answer : Answer}
    (h : perform depth (.resolveId c) r = .value answer s) :
    resolveId depth c r = .value () s := by
  obtain ⟨_, t, ht, hs⟩ := Eval.bind_eq_value_iff.mp h
  cases hs
  exact ht

theorem Consults.advances (hr : r.Indexed) (h : Consults r s) : Advances r s := by
  induction h with
  | refl => exact .refl r
  | read h depth c name ended ih =>
    exact ih.trans (Outcome.Meets.of_state? (perform_advances depth _ (ih.indexed hr)) ended)
  | resolved h depth c succeeded ih =>
    have hadv := perform_advances depth (.resolveId c) (ih.indexed hr)
    rw [Advancing, succeeded] at hadv
    exact ih.trans hadv

theorem Consults.memo (hw : w.Closed) (hevaluating : w.evaluating = []) (h : Consults w s) :
    Memo w s := by
  induction h with
  | refl => exact .refl hw hevaluating
  | @read s t h depth c name ended ih =>
    rw [perform_constant_state?] at ended
    by_cases hc : w.Issued c
    · have hdenotes := constant_denotes hw ih hc depth name
      exact Outcome.Meets.of_state? (Outcome.Meets.imp hdenotes (fun _ _ ht => ht.1.memo)
        (fun _ _ ht => ht.1.memo) fun h => h) ended
    · rw [constant_of_unissued depth name fun hs => hc (ih.within.issued_iff.mp hs)] at ended
      cases ended
      exact ih
  | resolved h depth c succeeded ih =>
    exact resolveId_keeps hw depth c _ _ _ ih (resolveId_of_perform succeeded)

/-- With nothing in progress a computation ends as it is meant. -/
theorem Denotes.answer {α : Type} {x : Eval Registry α} {plain : List LazySite → Eval Unit α}
    {Q : α → Prop} {D : Prop} (h : Denotes w x plain s Q D) (hs : s.evaluating = []) :
    (∃ answer, (x s).answer? = some answer ∧ (plain [] ()).answer? = some answer) ∨
      D ∧ x s = .tooDeep := by
  unfold Denotes at h
  cases hx : x s with
  | value a t =>
    rw [hx] at h
    have hplain := h.2.2 [] fun _ hsite => absurd hsite List.not_mem_nil
    rw [hplain]
    exact .inl ⟨.ok a, rfl, rfl⟩
  | failure f t =>
    rw [hx] at h
    have hplain := h.2.2
    rw [hs] at hplain
    rw [hplain]
    exact .inl ⟨.error f, rfl, rfl⟩
  | tooDeep =>
    rw [hx] at h
    exact .inr ⟨h, rfl⟩

/-- The constant has the answer whenever it is asked for, and it is this value that
resolution of its class stores. -/
structure Transparent (r : Registry) (bound : Nat) (c : ClassId) (name : String)
    (answer : Except Fault Value) : Prop where
  same : ∀ s depth, Consults r s → (constant depth c name s).answer? = some answer ∨
    depth < bound ∧ constant depth c name s = .tooDeep
  given : ∀ s t depth answered, Consults r s → perform depth (.resolveId c) s = .value answered t →
    t.DeclaresConstant c name →
      ∃ v, t.lazy? ⟨c, .constant name⟩ = some (.settled v) ∧ answer = .ok v

theorem Transparent.of_same (hr : r.Reachable) {bound : Nat} {answer : Except Fault Value}
    (hsame : ∀ s depth, Consults r s → (constant depth c name s).answer? = some answer ∨
      depth < bound ∧ constant depth c name s = .tooDeep) :
    Transparent r bound c name answer := by
  refine ⟨hsame, fun s t depth answered hs hrun hdeclares => ?_⟩
  have ht : Consults r t := hs.resolved depth c hrun
  have hadvs := hs.advances hr.indexed
  have hrun' := resolveId_of_perform hrun
  have hresolved := resolveId_advances depth c s (hadvs.indexed hr.indexed) (.of_resolveId hrun')
  rw [hrun'] at hresolved
  obtain ⟨-, links, hlinks⟩ := hresolved
  have hfounded : t.Founded := (ht.advances hr.indexed).founded hr.founded
  obtain ⟨v, hv, hforce⟩ := hfounded.force_of_resolved hlinks hdeclares 0
  refine ⟨v, hv, ?_⟩
  have hanswer := hsame t 1 ht
  rw [constant_of_declares hlinks (fun e => by simp) hdeclares, hforce] at hanswer
  rcases hanswer with hanswer | ⟨-, hspent⟩
  · exact (Option.some.inj hanswer).symm
  · cases hspent

/-- Take a registry in any state, without a hook, in which every pending value is
an expression.  Whatever constants are read in it and whatever classes are resolved
with success, each constant keeps its value or its error. -/
theorem Run.constant_transparent {config : Config} {ops : List Operation}
    (h : Run (new config) ops r) (hhook : r.autoloader = none)
    (hsources : ∀ site source, r.lazy? site = some (.pending source) → ∃ e, source = .expr e) :
    ∃ bound, ∀ c name, ∃ answer, Transparent r bound c name answer := by
  obtain ⟨hindexed, -, hevaluating⟩ := h.idle
  have hw : r.Closed := ⟨hindexed, hhook, hsources⟩
  refine ⟨r.nestingBound [] + 1, fun c name => ?_⟩
  by_cases hc : r.Issued c
  swap
  · refine ⟨.error (.unissued c), .of_same h.reachable fun s depth hs => .inl ?_⟩
    have hissued : ¬ s.Issued c := by
      rwa [(hs.memo hw hevaluating).within.issued_iff]
    rw [constant_of_unissued depth name hissued]
    rfl
  have hmeant : ∀ s depth, Consults r s →
      (∃ answer, (constant depth c name s).answer? = some answer ∧
        (r.constantMeaning [] c name ()).answer? = some answer) ∨
      depth ≤ r.nestingBound [] ∧ constant depth c name s = .tooDeep := by
    intro s depth hs
    have hidle : s.evaluating = [] := (hs.advances hindexed).evaluating.trans hevaluating
    have hdenotes := constant_denotes hw (hs.memo hw hevaluating) hc depth name
    rw [hidle] at hdenotes
    exact hdenotes.answer hidle
  -- the registry itself has an answer, as its bound on nesting is large enough
  rcases hmeant r (r.nestingBound [] + 1) .refl with ⟨answer, -, hanswer⟩ | ⟨hle, -⟩
  · refine ⟨answer, .of_same h.reachable fun s depth hs => ?_⟩
    rcases hmeant s depth hs with ⟨answer', hread, hanswer'⟩ | ⟨hle, hspent⟩
    · rw [hanswer] at hanswer'
      exact .inl (hread.trans hanswer'.symm)
    · exact .inr ⟨Nat.lt_succ_of_le hle, hspent⟩
  · exact absurd hle (Nat.not_succ_le_self _)

/-- A circle is met and a class is resolved.  Neither changes what other constants
give, nor what the circle gives. -/
theorem Run.constant_transparent_beside_a_circle :
    let decls : List ClassDecl :=
      [.addConstant { name := "X", value := .pending (.expr (.constant (.named ⟨"B"⟩) "Y")) }
          (.addConstant { name := "Z", value := .pending (.expr (.constant .self "Z")) }
            { name := ⟨"A"⟩ }),
        .addConstant { name := "Y", value := .pending (.expr (.literal (.int 2))) }
          { name := ⟨"B"⟩ }]
    ∃ r s answer t bound, Run (new {}) (decls.map .register) r ∧
      (perform 9 (.constant ⟨0⟩ "Z") r).state? = some s ∧
      perform 9 (.resolveId ⟨1⟩) s = .value answer t ∧ Consults r t ∧
      Transparent r bound ⟨0⟩ "X" (.ok (.int 2)) ∧
      Transparent r bound ⟨0⟩ "Z" (.error (.raised (.circularConstant "A" "Z"))) := by
  intro decls
  have hrun : ((performAll 9 (decls.map .register) (new {})).bind fun r =>
      (perform 9 (.constant ⟨0⟩ "Z") r).state?.map fun s =>
        ((constant 9 ⟨0⟩ "X" r).answer?, (constant 9 ⟨0⟩ "Z" r).answer?,
          (perform 9 (.resolveId ⟨1⟩) s).isValue)) =
      some (some (.ok (.int 2)), some (.error (.raised (.circularConstant "A" "Z"))), true) := rfl
  obtain ⟨r, hr, hrest⟩ := Option.bind_eq_some_iff.mp hrun
  obtain ⟨s, hs, hresults⟩ := Option.map_eq_some_iff.mp hrest
  rw [Prod.mk.injEq, Prod.mk.injEq] at hresults
  obtain ⟨hx, hz, hresolved⟩ := hresults
  obtain ⟨answer, t, ht⟩ := Outcome.isValue_iff.mp hresolved
  have hsetup : Run (new {}) (decls.map .register) r := .of_performAll hr
  have hregistered : r.Registered decls := hsetup.registered
  have hdecls : ∀ d ∈ decls, d.everyValue (fun l => !(l matches .pending (.program _))) = true := by
    decide
  have hsources : ∀ site source, r.lazy? site = some (.pending source) →
      ∃ e, source = .expr e := by
    intro site source hl
    obtain ⟨d, hd, hd'⟩ := hregistered.lazy? hl
    have hexpr := ClassDecl.everyValue_iff.mp (hdecls d hd) _ _ hd'
    cases source with
    | expr e => exact ⟨e, rfl⟩
    | program p => cases hexpr
  obtain ⟨bound, hall⟩ := Run.constant_transparent hsetup hregistered.hookless hsources
  have hanswer : ∀ name given, (constant 9 ⟨0⟩ name r).answer? = some given →
      Transparent r bound ⟨0⟩ name given := by
    intro name given hgiven
    obtain ⟨found, hfound⟩ := hall ⟨0⟩ name
    rcases hfound.same r 9 .refl with hread | ⟨-, hspent⟩
    · rw [hgiven] at hread
      cases hread
      exact hfound
    · rw [hspent] at hgiven
      cases hgiven
  have hconsults : Consults r t := (Consults.refl.read 9 ⟨0⟩ "Z" hs).resolved 9 ⟨1⟩ ht
  exact ⟨r, s, answer, t, bound, hsetup, hs, ht, hconsults, hanswer "X" _ hx, hanswer "Z" _ hz⟩

end Registry
end Lineage
