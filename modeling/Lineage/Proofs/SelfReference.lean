/-
Reported self-references.

A constant is reported as self-referencing when it is met again while it is being
computed.  The values in progress depend on one another, each on the next inner one
(`Truthful`), so the report is true when it is made; and it stays true, for what
leads back to itself is never computed (`Avoids`).  Classes store such a report when
they fail, and hand it out later.

The theorem of this file is `Run.self_reference`: a report is always true, and a
constant that has a value leads to no circle.
-/
import Lineage.Proofs.Cycle
import Lineage.Proofs.Dependency

namespace Lineage

theorem Error.not_circular_of_isOfLinking {e : Error} (h : e.isOfLinking = true) :
    e.isCircularConstant = false := by
  cases e with
  | circularConstant a n => cases h
  | _ => rfl

namespace Registry

variable {r s t : Registry} {c p : ClassId} {x y site : LazySite} {name : String} {e : Error}

/-! ## True reports -/

/-- If the error reports a self-reference, then a constant with this name, declared
by a class with this name, leads back to itself. -/
def Justified (r : Registry) (e : Error) : Prop :=
  ∀ a n, e = .circularConstant a n → ∃ c d, r.decl? c = some d ∧ d.name.text = a ∧
    Relation.TransGen r.DependsOn ⟨c, .constant n⟩ ⟨c, .constant n⟩

theorem Justified.of_not_circular (h : e.isCircularConstant = false) : r.Justified e := by
  rintro a n rfl
  cases h

/-- What a search raises by itself reports no self-reference. -/
theorem Justified.of_raised {f : Fault} (h : ∃ e, f = .raised e ∧ e.isCircularConstant = false) :
    ∀ e, f = .raised e → r.Justified e := by
  obtain ⟨e, rfl, he⟩ := h
  intro e' heq
  cases heq
  exact .of_not_circular he

theorem Justified.mono (h : r.Justified e) (hs : Avoids r s) : s.Justified e := by
  intro a n he
  obtain ⟨c, d, hd, hname, hcircle⟩ := h a n he
  obtain ⟨d', hd', hset⟩ := hs.grows.declared hd
  exact ⟨c, d', hd', hset.alike.name ▸ hname, hs.circle hcircle hcircle⟩

/-- Nothing has been stored since. -/
theorem Justified.of_stored (h : r.Justified e) (hs : r.Extends s)
    (hstored : ∀ site l, r.lazy? site = some l → s.lazy? site = some l) : s.Justified e := by
  intro a n he
  obtain ⟨c, d, hd, hname, hcircle⟩ := h a n he
  obtain ⟨d', hd', hset⟩ := hs.declared hd
  exact ⟨c, d', hd', hset.alike.name ▸ hname,
    Relation.TransGen.mono (fun _ _ hdep => hdep.of_stored hs hstored) _ _ hcircle⟩

/-- The values in progress are pending, each of them depends on the next inner one,
and what failed classes report is true. -/
structure Truthful (r : Registry) : Prop where
  indexed : r.Indexed
  supplied : r.Supplied ClassDecl.Plain
  inProgress : r.AllPending r.evaluating
  waiting : r.evaluating.IsChain fun inner outer => r.DependsOn outer inner
  justified : ∀ c e, r.standing? c = some (.failed e) → r.Justified e

/-- The innermost value in progress, if there is one, depends on the value. -/
def Leads (r : Registry) (site : LazySite) : Prop :=
  ∀ outer ∈ r.evaluating.head?, r.DependsOn outer site

/-- Names have been looked up and values computed, and no class has failed. -/
structure Later (r s : Registry) : Prop where
  computes : Computes r s
  avoids : Avoids r s
  since : Since r s

theorem Later.trans (h : Later r s) (h' : Later s t) : Later r t where
  computes := h.computes.trans h'.computes
  avoids := h.avoids.trans h'.avoids
  since := ⟨h'.since.supplied, fun c e hc => h.since.failed c e (h'.since.failed c e hc)⟩

theorem Truthful.since (h : r.Truthful) : Since r r := ⟨h.supplied, fun _ _ hc => hc⟩

theorem Truthful.refl (h : r.Truthful) : Later r r := ⟨.refl r, .refl r, h.since⟩

theorem Truthful.later (h : r.Truthful) (hs : Later r s) : s.Truthful := by
  have heval := hs.computes.evaluating
  have hpending : s.AllPending s.evaluating := by
    rw [heval]
    intro x hx
    obtain ⟨source, hp⟩ := h.inProgress x hx
    exact ⟨source, hs.avoids.held x hx source hp⟩
  refine ⟨hs.computes.indexed h.indexed, hs.since.supplied, hpending, ?_, fun c e hc => ?_⟩
  · rw [heval]
    refine h.waiting.imp_of_mem_imp fun inner outer _ houter hdep => ?_
    obtain ⟨source, hp⟩ := hpending outer (heval ▸ houter)
    exact hdep.mono hs.computes.grows hp
  · exact (h.justified c e (hs.since.failed c e hc)).mono hs.avoids

/-! ## Looking up and computing -/

theorem steady_later (r : Registry) : Steady (Since r) fun _ => True :=
  steady_since (fun _ _ _ => trivial) fun _ _ => trivial

theorem Truthful.locate (h : r.Truthful) (hc : r.Issued c) (depth : Nat) (q : Qualifier)
    (name : String) :
    (Registry.locate depth c q name r).Meets (fun site t => Later r t ∧ t.Issued site.owner)
      (fun f t => Later r t ∧ ∀ e, f = .raised e → t.Justified e) True :=
  ((locate_loads h.indexed hc depth q name).and
    ((steady_later r).passing.locate depth c q name r h.since)).imp
    (fun _ _ ht => ⟨⟨.of_loads ht.1.1, .of_loads ht.1.1, ht.2⟩, ht.1.2.1⟩)
    (fun _ _ ht => ⟨⟨.of_loads ht.1.1, .of_loads ht.1.1, ht.2.1⟩, .of_raised ht.1.2⟩) And.left

theorem Truthful.force (h : r.Truthful) (hsite : r.Issued site.owner) (depth : Nat) :
    (Registry.force depth site r).Meets (fun _ => Later r)
      (fun f t => Later r t ∧ ∃ e, f = .raised e) True :=
  (Outcome.Meets.and (force_avoiding depth site r h.indexed hsite)
    ((steady_later r).force depth site r h.since)).imp
    (fun _ _ ht => ⟨ht.1.1.1, ht.1.1.2, ht.2⟩)
    (fun _ _ ht => ⟨⟨ht.1.1.1, ht.1.1.2, ht.2.1⟩, ht.1.2⟩) And.left

/-! ## Meeting a value again -/

/-- Along a stack on which each entry leads to the next inner one, every entry leads
to the innermost. -/
theorem leads_to_innermost {α : Type} {R : α → α → Prop} {a b : α} {l : List α}
    (h : (a :: l).IsChain fun inner outer => R outer inner) (hb : b ∈ a :: l) :
    Relation.ReflTransGen R b a := by
  induction l generalizing a with
  | nil =>
    rw [List.mem_singleton.mp hb]
  | cons c rest ih =>
    obtain ⟨hca, hrest⟩ := List.isChain_cons_cons.mp h
    rcases List.mem_cons.mp hb with rfl | hb
    · exact .refl
    · exact (ih hrest hb).tail hca

/-- Only constants are fetched. -/
theorem DependsOn.member (h : r.DependsOn x y) (hr : r.Indexed) :
    ∃ n, y.member = .constant n := by
  obtain ⟨e, fetch, depth, hx, -, hfound⟩ := h
  have hlocate := locate_loads hr (.of_lazy? hx) depth fetch.1 fetch.2
  rw [hfound] at hlocate
  exact ⟨_, hlocate.2.2⟩

/-- A value that is met again while it is in progress leads back to itself. -/
theorem Truthful.justified_again (h : r.Truthful) {d : ClassDecl} (hd : r.decl? site.owner = some d)
    (hleads : r.Leads site) (hagain : site ∈ r.evaluating) :
    r.Justified (.circularConstant d.name.text (site.member.label d)) := by
  cases hstack : r.evaluating with
  | nil =>
    rw [hstack] at hagain
    cases hagain
  | cons inner rest =>
    have hdep : r.DependsOn inner site := hleads inner (by rw [hstack]; rfl)
    have hwaiting := h.waiting
    rw [hstack] at hwaiting hagain
    have hcircle := Relation.TransGen.tail' (leads_to_innermost hwaiting hagain) hdep
    obtain ⟨m, hm⟩ := hdep.member h.indexed
    intro a n he
    rw [hm] at he
    cases he
    have hsite : site = ⟨site.owner, .constant m⟩ := by rw [← hm]
    exact ⟨site.owner, d, hd, rfl, hsite ▸ hcircle⟩

theorem Truthful.beginEvaluation (h : r.Truthful) {source : Initializer}
    (hp : r.lazy? site = some (.pending source)) (hleads : r.Leads site) :
    (r.beginEvaluation site).Truthful where
  indexed := h.indexed
  supplied := h.supplied.of_eq rfl fun _ => rfl
  inProgress := by
    intro x hx
    rcases List.mem_cons.mp hx with rfl | hx
    · exact ⟨source, hp⟩
    · exact h.inProgress x hx
  waiting := by
    have hmono : ∀ x y, r.DependsOn x y → (r.beginEvaluation site).DependsOn x y :=
      fun x y hdep => hdep.of_stored (.of_eq rfl rfl rfl) fun _ _ hl => hl
    have hchain := h.waiting.imp fun _ _ hdep => hmono _ _ hdep
    refine List.isChain_cons.mpr ⟨fun outer hout => ?_, hchain⟩
    exact hmono outer site (hleads outer hout)
  justified c e hc := (h.justified c e hc).of_stored (.of_eq rfl rfl rfl) fun _ _ hl => hl

/-- The expression of a value is being evaluated. -/
structure Underway (site : LazySite) (e : Expr) (rest : List LazySite) (r : Registry) : Prop where
  truthful : r.Truthful
  evaluating : r.evaluating = site :: rest
  pending : r.lazy? site = some (.pending (.expr e))

theorem Underway.later {x : Expr} {rest : List LazySite} (h : r.Underway site x rest)
    (hs : Later r s) : s.Underway site x rest where
  truthful := h.truthful.later hs
  evaluating := hs.computes.evaluating.trans h.evaluating
  pending := hs.avoids.held site (by rw [h.evaluating]; exact List.mem_cons_self) _ h.pending

/-- What the expression of a value in progress fetches is led to. -/
theorem Underway.leads {x : Expr} {rest : List LazySite} {fetch : Qualifier × String}
    {depth : Nat} (h : s.Underway site x rest) (hmem : fetch ∈ x.fetches)
    (hfound : locate depth site.owner fetch.1 fetch.2 r = .value y s) : s.Leads y := by
  intro outer hout
  rw [h.evaluating] at hout
  cases hout
  exact ⟨x, fetch, depth, h.pending, hmem,
    (locate_refinds (Nat.le_refl depth) _ _ _ r y s hfound).2 s (.refl s)⟩

theorem Underway.fetch {x : Expr} {rest : List LazySite} {depth : Nat}
    {fetch : Qualifier × String} (h : r.Underway site x rest) (hmem : fetch ∈ x.fetches)
    (hforce : ∀ y s, Truthful s → s.Issued y.owner → s.Leads y →
      (Registry.force depth y s).Meets (fun _ _ => True)
        (fun f t => ∀ e, f = .raised e → t.Justified e) True) :
    (fetchWith (Registry.force depth) depth site.owner fetch.1 fetch.2 r).Meets
      (fun _ t => t.Underway site x rest ∧ True)
      (fun f t => ∀ e, f = .raised e → t.Justified e) True := by
  have hlocate := h.truthful.locate (.of_lazy? h.pending) depth fetch.1 fetch.2
  rw [fetchWith_eq, Eval.bind_apply]
  cases hfound : locate depth site.owner fetch.1 fetch.2 r with
  | value y t =>
    rw [hfound] at hlocate
    obtain ⟨ht, hy⟩ := hlocate
    have hunder := h.later ht
    refine ((hforce y t hunder.truthful hy (hunder.leads hmem hfound)).and
      (hunder.truthful.force hy depth)).imp ?_ (fun _ _ hu => hu.1) And.left
    exact fun _ u hu => ⟨hunder.later hu.2, trivial⟩
  | failure f t =>
    rw [hfound] at hlocate
    exact hlocate.2
  | tooDeep => exact trivial

/-- What an evaluation raises comes out of a fetch, or out of an operator. -/
theorem evaluateSite_justified {depth : Nat} {d : ClassDecl} {x : Expr} (h : r.Truthful)
    (hd : r.decl? site.owner = some d) (hp : r.lazy? site = some (.pending (.expr x)))
    (hleads : r.Leads site)
    (hforce : ∀ y s, Truthful s → s.Issued y.owner → s.Leads y →
      (Registry.force depth y s).Meets (fun _ _ => True)
        (fun f t => ∀ e, f = .raised e → t.Justified e) True) :
    (evaluateSite { fetch := fetchWith (Registry.force depth) depth site.owner, note := note }
        site d (.expr x) r).Meets (fun _ _ => True)
      (fun f t => ∀ e, f = .raised e → t.Justified e) True := by
  by_cases hagain : site ∈ r.evaluating
  · rw [evaluateSite_of_circular hagain]
    intro e he
    cases he
    exact h.justified_again hd hleads hagain
  rw [evaluateSite_of_fresh hagain]
  have hbegun : (r.beginEvaluation site).Underway site x r.evaluating :=
    ⟨h.beginEvaluation hp hleads, rfl, hp⟩
  have hvalue : (x.evaluate ⟨fetchWith (Registry.force depth) depth site.owner, note⟩
        (r.beginEvaluation site)).Meets
      (fun _ t => t.Underway site x r.evaluating ∧ ∀ fetch ∈ x.fetches, True)
      (fun f t => ∀ e, f = .raised e → t.Justified e) True :=
    Expr.evaluate_meets (fun failure s _ e he => by cases he; exact .of_not_circular rfl) x
      (fun fetch hmem s hs => hs.fetch hmem hforce) hbegun
  refine Eval.meets_bind (Eval.meets_attempt
    (R := fun result t => ∀ e, result = .error e → t.Justified e) hvalue ?_ ?_ fun _ _ h => h) ?_
  · intro v t _ e he
    cases he
  · intro e t ht e' he
    cases he
    exact ht e rfl
  · intro result t ht
    cases result with
    | ok v => exact trivial
    | error e =>
      intro e' he
      cases he
      refine (ht e rfl).of_stored (extends_endEvaluation site (.error e) t) fun other l hl => ?_
      rw [lazy?_endEvaluation]
      exact hl

/-- Whatever computing a value raises, if it reports a self-reference the report is
true. -/
theorem force_justified (depth : Nat) :
    ∀ site r, Truthful r → r.Issued site.owner → r.Leads site →
      (force depth site r).Meets (fun _ _ => True)
        (fun f t => ∀ e, f = .raised e → t.Justified e) True := by
  induction depth with
  | zero => intro site r _ _ _; exact trivial
  | succ depth ih =>
    intro site r h hi hleads
    obtain ⟨d, hd⟩ := issued_iff_decl?.mp hi
    have hl : r.lazy? site = d.lazy? site.member := by rw [lazy?, hd]; rfl
    by_cases hf : ∃ e, r.standing? site.owner = some (.failed e)
    · obtain ⟨e, he⟩ := hf
      rw [force_of_failed depth he]
      intro e' heq
      cases heq
      exact h.justified _ e he
    · rw [force_of_usable depth hd fun e he => hf ⟨e, he⟩]
      cases hm : d.lazy? site.member with
      | none => exact trivial
      | some l =>
        cases l with
        | settled v => exact trivial
        | pending source =>
          have hp : r.lazy? site = some (.pending source) := hl.trans hm
          obtain ⟨x, rfl⟩ := h.supplied.plain hp
          exact evaluateSite_justified h hd hp hleads ih

/-! ## Between operations -/

/-- Nothing is in progress, and what failed classes report is true. -/
structure Calm (r : Registry) : Prop where
  indexed : r.Indexed
  supplied : r.Supplied ClassDecl.Plain
  idle : r.evaluating = []
  justified : ∀ c e, r.standing? c = some (.failed e) → r.Justified e

theorem Calm.truthful (h : r.Calm) : r.Truthful where
  indexed := h.indexed
  supplied := h.supplied
  inProgress x hx := by
    rw [h.idle] at hx
    cases hx
  waiting := by
    rw [h.idle]
    exact .nil
  justified := h.justified

theorem Calm.leads (h : r.Calm) (site : LazySite) : r.Leads site := by
  intro outer hout
  rw [h.idle] at hout
  cases hout

theorem Calm.later (h : r.Calm) (hs : Later r s) : s.Calm :=
  have ht := h.truthful.later hs
  ⟨ht.indexed, ht.supplied, hs.computes.evaluating.trans h.idle, ht.justified⟩

/-- No value has been stored, and no class has failed but with a true report. -/
theorem Calm.of_stored (h : r.Calm) (hs : r.Extends s) (hindexed : s.Indexed)
    (hsupplied : s.Supplied ClassDecl.Plain) (heval : s.evaluating = r.evaluating)
    (hstored : ∀ site l, r.lazy? site = some l → s.lazy? site = some l)
    (hfailed : ∀ c e, s.standing? c = some (.failed e) →
      r.standing? c = some (.failed e) ∨ r.Justified e) : s.Calm where
  indexed := hindexed
  supplied := hsupplied
  idle := heval.trans h.idle
  justified c e hc := by
    rcases hfailed c e hc with hold | hnew
    · exact (h.justified c e hold).of_stored hs hstored
    · exact hnew.of_stored hs hstored

theorem Calm.beginLinking (h : r.Calm) (p : ClassId) : (r.beginLinking p).Calm :=
  h.of_stored (.of_eq rfl rfl rfl) h.indexed (h.supplied.of_eq rfl fun _ => rfl) rfl
    (fun _ _ hl => hl) fun _ _ hc => .inl hc

theorem Calm.endLinking (h : r.Calm) (hu : r.standing? p = some .unresolved)
    (result : Except Error Links) (hresult : ∀ e, result = .error e → r.Justified e) :
    (r.endLinking p result).Calm := by
  have hext : r.Extends (r.endLinking p result) := extends_endLinking hu
  refine h.of_stored hext (h.indexed.of_extends hext (by cases result <;> rfl))
    ((stable_supplied _).endedLinking p result r h.supplied) (evaluating_endLinking p result r)
    (fun site l hl => ?_) fun c e hc => ?_
  · rw [lazy?, decl?_endLinking]
    exact hl
  · by_cases hcp : c = p
    · right
      rw [hcp, standing?_endLinking hu] at hc
      cases result with
      | ok links => cases hc
      | error e' =>
        cases hc
        exact hresult e rfl
    · left
      rwa [standing?_endLinking_of_ne hcp] at hc

/-- A value is asked for while nothing is in progress. -/
theorem Calm.force (h : r.Calm) (hsite : r.Issued site.owner) (depth : Nat) :
    (Registry.force depth site r).Meets (fun _ => Later r)
      (fun f t => Later r t ∧ ∀ e, f = .raised e → t.Justified e) True :=
  (Outcome.Meets.and (h.truthful.force hsite depth)
    (force_justified depth site r h.truthful hsite (h.leads site))).imp
    (fun _ _ ht => ht.1) (fun _ _ ht => ⟨ht.1.1, ht.2⟩) And.left

theorem Calm.forceAll (h : r.Calm) (hp : r.Issued p) (depth : Nat) (d : ClassDecl) :
    (Registry.forceAll (Registry.force depth) p d r).Meets (fun _ => Later r)
      (fun f t => Later r t ∧ ∀ e, f = .raised e → t.Justified e) True := by
  refine Eval.meets_forEach (I := fun _ => Later r) ?_ d.lazyMembers [] r rfl h.truthful.refl
  intro before member after t _ ht
  have hsite : t.Issued (LazySite.mk p member).owner := ht.computes.grows.issued hp
  have hvalue := (h.later ht).force hsite depth
  refine Eval.meets_bind (hvalue.imp (fun _ _ hu => ht.trans hu) ?_ id) fun _ _ hu => hu
  exact fun _ _ hu => ⟨ht.trans hu.1, hu.2⟩

theorem Calm.lookup (h : r.Calm) (name : QualifiedName) :
    (Registry.lookup name r).Meets (fun _ => Later r) (fun _ => Later r) True :=
  ((lookup_meets name r).and ((steady_later r).lookup name r h.truthful.since)).imp
    (fun _ _ ht => ⟨.of_loads ht.1.1, .of_loads ht.1.1, ht.2⟩)
    (fun _ _ ht => ⟨.of_loads ht.1.1, .of_loads ht.1.1, ht.2.1⟩) fun _ => trivial

/-- Reading a constant reports a self-reference only if there is one. -/
theorem Calm.constant (h : r.Calm) (hc : r.Issued c) (depth : Nat) (name : String) :
    (Registry.constant depth c name r).Meets (fun _ => Later r)
      (fun f t => Later r t ∧ ∀ e, f = .raised e → t.Justified e) True := by
  obtain ⟨st, hst⟩ := hc.standing?
  by_cases hf : ∃ e, st = .failed e
  · obtain ⟨e, rfl⟩ := hf
    rw [constant_of_failed depth name hst]
    refine ⟨h.truthful.refl, fun e' he => ?_⟩
    cases he
    exact h.justified c e hst
  · rw [constant_eq_fetch depth name hst fun e he => hf ⟨e, he⟩, fetch, fetchWith_eq]
    refine Eval.meets_bind (h.truthful.locate hc depth .self name) fun site t ht => ?_
    exact ((h.later ht.1).force ht.2 depth).imp (fun _ _ hu => ht.1.trans hu)
      (fun _ _ hu => ⟨ht.1.trans hu.1, hu.2⟩) id

/-! ## Resolution and operations -/

theorem not_circular_of_cycle? (h : r.cycle? p = some e) : e.isCircularConstant = false := by
  unfold cycle? at h
  split at h
  · cases h
    rfl
  · cases h

/-- Every step of resolution fails with a true report, if with any. -/
theorem carries_calm : Carries (fun _ r s => r.Calm → s.Calm)
    (fun _ r f s => r.Calm → s.Calm ∧ ∀ e, f = .raised e → s.Justified e) where
  refl _ _ h := h
  trans h _ _ h' hr := h' (h hr)
  fail h _ _ h' hr := h' (h hr)
  linking h he hr :=
    ⟨h hr, fun _ hf => by cases hf; exact .of_not_circular (Error.not_circular_of_isOfLinking he)⟩
  failed hfailed hr := ⟨hr, fun _ hf => by cases hf; exact hr.justified _ _ hfailed⟩
  cycle hc hr :=
    ⟨hr, fun _ hf => by cases hf; exact .of_not_circular (not_circular_of_cycle? hc)⟩
  lookup _ name r :=
    .of_imp fun hr => (hr.lookup name).imp (fun _ _ ht => hr.later ht) (fun _ _ ht => hr.later ht)
      fun _ => trivial
  values depth d _ hi :=
    .of_imp fun hr => (hr.forceAll hi depth d).imp (fun _ _ ht => hr.later ht)
      (fun _ _ ht => ⟨hr.later ht.1, ht.2⟩) id
  linked links h hu hr := (h (hr.beginLinking _)).endLinking hu (.ok links) nofun
  refused h hu hr := by
    obtain ⟨hcalm, hjust⟩ := h (hr.beginLinking _)
    have hended := hcalm.endLinking hu (.error _) fun e' he => hjust e' (by cases he; rfl)
    exact ⟨hended, fun e he => hended.justified _ e (by cases he; exact standing?_endLinking hu)⟩

theorem maintains_of_later {α : Type} {x : Eval Registry α}
    (h : ∀ r, Calm r → (x r).Meets (fun _ => Later r) (fun _ => Later r) True) :
    Maintains Calm (fun _ => True) x :=
  fun r hr => (h r hr).imp (fun _ _ ht => hr.later ht)
    (fun _ _ ht => ⟨hr.later ht, fun _ _ => trivial⟩) id

theorem resolveId_calm (depth : Nat) (p : ClassId) :
    Maintains Calm (fun _ => True) (resolveId depth p) := by
  intro r hr
  by_cases hp : r.Issued p
  · exact (carries_calm.resolveId depth p r hr.indexed hp).imp (fun _ _ ht => ht hr)
      (fun _ _ ht => ⟨(ht hr).1, fun _ _ => trivial⟩) id
  · cases depth with
    | zero => exact trivial
    | succ depth =>
      rw [resolveId_of_unissued depth hp]
      exact ⟨hr, fun _ _ => trivial⟩

theorem brings_calm {op : Operation} (hop : op.Supplies ClassDecl.Plain) : Brings Calm op where
  declared d hd r h hfree := by
    have hext := extends_append hfree
    refine h.of_stored hext (Load.indexed (.registered hfree) h.indexed)
      (h.supplied.append (hop.declared d hd)) rfl (fun site l hl => ?_) fun c e hc => ?_
    · obtain ⟨d', hd', -⟩ := Option.bind_eq_some_iff.mp hl
      rw [lazy?, decl?_append (.of_decl? hd')]
      exact hl
    · exact .inl (standing?_of_append hc fun hst => by cases hst)
  hooked loader? hl r h :=
    h.of_stored (.of_eq rfl rfl rfl) h.indexed
      ((brings_supplied hop).hooked loader? hl r h.supplied) rfl (fun _ _ hl => hl)
      fun _ _ hc => .inl hc
  statics hstatic id table r h := by
    have hext := extends_setStatics id table r
    refine h.of_stored hext (h.indexed.of_extends hext rfl)
      ((brings_supplied hop).statics hstatic id table r h.supplied) rfl (fun site l hl => ?_)
      fun c e hc => ?_
    · rw [lazy?, decl?_setStatics]
      exact hl
    · rw [standing?_setStatics] at hc
      exact .inl hc

theorem perform_calm {op : Operation} (hop : op.Supplies ClassDecl.Plain) (depth : Nat) :
    Maintains Calm (fun _ => True) (perform depth op) := by
  refine perform_maintains (brings_calm hop)
    (fun name => maintains_of_later fun r hr => hr.lookup name) (fun c name r hr => ?_)
    fun _ => resolveId_calm depth
  by_cases hc : r.Issued c
  · exact (hr.constant hc depth name).imp (fun _ _ ht => hr.later ht)
      (fun _ _ ht => ⟨hr.later ht.1, fun _ _ => trivial⟩) id
  · rw [constant_of_unissued depth name hc]
    exact ⟨hr, fun _ _ => trivial⟩

theorem calm_new (config : Config) : (new config).Calm where
  indexed := indexed_new config
  supplied := ⟨fun loader hl => (by cases hl), fun c d hd => (by cases hd)⟩
  idle := rfl
  justified c e hc := by cases hc

/-- In every state of every run whose sources are expressions, what failed classes
report is true. -/
theorem Run.calm {config : Config} {ops : List Operation} (h : Run (new config) ops r)
    (hops : ∀ op ∈ ops, op.Supplies ClassDecl.Plain) : r.Calm :=
  Maintains.run h (fun op hop => perform_calm (hops op hop)) (calm_new config)

/-! ## Without a hook -/

theorem steady_within (w : Registry) : Steady w.Within fun _ => True where
  autoload name r _ h := by
    have hload : r.autoload name = r := by rw [autoload, h.hookless]
    rwa [hload]
  note label r h := h.of_eq rfl rfl rfl rfl
  began site r h := h.of_eq rfl rfl rfl rfl
  ended site result r h := h.endEvaluation site result
  classNotFound _ := trivial
  noParentScope _ := trivial
  undefinedConstant _ _ := trivial
  circularConstant _ _ := trivial
  failed _ _ _ _ _ := trivial
  source _ _ _ _ _ := Program.raises_of_forall (fun _ => trivial) _

/-- What a value depends on later it depended on before. -/
theorem Within.dependsOn {w : Registry} (hs : w.Within s) (hw : w.Indexed)
    (hhook : w.autoloader = none) (h : s.DependsOn x y) : w.DependsOn x y := by
  obtain ⟨source, fetch, depth, hx, hmem, hfound⟩ := h
  have hissued : s.Issued x.owner := .of_lazy? hx
  have hlocate := locate_meets hw hhook hs hissued depth fetch.1 fetch.2
  rw [hfound] at hlocate
  exact ⟨source, fetch, w.size + 1, hs.grows.pending (hs.issued_iff.mp hissued) hx, hmem, hlocate.2⟩

/-- What leads back to itself does so along a path. -/
theorem exists_path_of_circle {α : Type} {R : α → α → Prop} {a : α}
    (h : Relation.TransGen R a a) : ∃ rest, List.IsChain R (a :: rest ++ [a]) := by
  obtain ⟨b, hab, hba⟩ := Relation.TransGen.tail'_iff.mp h
  obtain ⟨rest, hchain, hlast⟩ := List.exists_isChain_cons_of_relationReflTransGen hab
  refine ⟨rest, hchain.append (.singleton a) fun x hx y hy => ?_⟩
  rw [List.getLast?_eq_some_getLast (List.cons_ne_nil a rest), hlast] at hx
  cases hx
  cases hy
  exact hba

/-- The constant of the class leads back to itself along the path, and neither it nor
anything on the path has been computed. -/
structure CircleOf (r s : Registry) (site : LazySite) (rest : List LazySite) : Prop where
  path : List.IsChain r.DependsOn (site :: rest ++ [site])
  pending : ∀ y ∈ site :: rest, ∃ source,
    r.lazy? y = some (.pending source) ∧ s.lazy? y = some (.pending source)

/-- Take a registry in any state, without a hook, in which every source is and was an
expression.  If reading a constant reports a self-reference, the constant that is
named leads back to itself, and everything on the way stays pending.  If it gives a
value, then nothing that the constant leads to leads back to itself, so that values
which are needed twice are never reported. -/
theorem Run.self_reference {config : Config} {ops : List Operation} (h : Run (new config) ops r)
    (hops : ∀ op ∈ ops, op.Supplies ClassDecl.Plain) (hhook : r.autoloader = none) (depth : Nat)
    (c : ClassId) (name : String) :
    (∀ a n s, constant depth c name r = .failure (.raised (.circularConstant a n)) s →
      ∃ p rest, r.nameText p = a ∧ (r.size ≤ UInt32.size → r.idOf? ⟨a⟩ = some p) ∧
        CircleOf r s ⟨p, .constant n⟩ rest) ∧
    (∀ v s, constant depth c name r = .value v s →
      ∃ site, locate depth c .self name r = .value site r ∧
        ∀ y, Relation.ReflTransGen r.DependsOn site y → ¬ Relation.TransGen r.DependsOn y y) := by
  have hcalm := h.calm hops
  have hw := hcalm.indexed
  by_cases hc : r.Issued c
  swap
  · rw [constant_of_unissued depth name hc]
    exact ⟨nofun, nofun⟩
  refine ⟨fun a n s hrun => ?_, fun v s hrun => ?_⟩
  · have hread := hcalm.constant hc depth name
    have hwithin := (steady_within r).constant depth c name r (.refl hhook)
    rw [hrun] at hread hwithin
    obtain ⟨p, d, hd, hname, hcircle⟩ := hread.2 _ rfl a n rfl
    have hs : r.Within s := hwithin.1
    have hp : r.Issued p := hs.issued_iff.mp (.of_decl? hd)
    have htext : r.nameText p = a := by rw [← hs.grows.nameText hp, nameText_eq hd, hname]
    obtain ⟨rest, hpath⟩ := exists_path_of_circle hcircle
    refine ⟨p, rest, htext, fun hsize => ?_, hpath.imp fun _ _ => hs.dependsOn hw hhook, ?_⟩
    · rw [← htext]
      exact h.reachable.numbered.idOf?_nameText hsize hp
    · intro y hy
      obtain ⟨z, -, e, -, -, hpending, -⟩ := exists_next hpath hy
      have hissued : r.Issued y.owner := hs.issued_iff.mp (.of_lazy? hpending)
      exact ⟨.expr e, hs.grows.pending hissued hpending, hpending⟩
  · obtain ⟨st, hst⟩ := hc.standing?
    have husable : ∀ e, st ≠ .failed e := by
      rintro e rfl
      rw [constant_of_failed depth name hst] at hrun
      cases hrun
    rw [constant_eq_fetch depth name hst husable, fetch, fetchWith_eq] at hrun
    obtain ⟨site, t, hfound, hvalue⟩ := Eval.bind_eq_value_iff.mp hrun
    have hstill := locate_still (.refl hhook) hw hc depth .self name
    rw [Still, hfound] at hstill
    obtain ⟨rfl, hsite⟩ := hstill
    refine ⟨site, hfound, fun y hreach hcircle => ?_⟩
    have havoids := force_avoiding depth site t hw hsite
    rw [Avoiding, hvalue] at havoids
    exact havoids.2 _ (deadlocked_of_circle hcircle) (hcircle.trans_right hreach)

/-- `X` of `A` and `Y` of an interface of the parent need each other, which shows when
the interface is resolved.  `P` of `D` needs `S` twice. -/
theorem Run.self_reference_in_circle_and_diamond :
    let own (name : String) : Expr := .constant .self name
    let decls : List ClassDecl :=
      [.addConstant { name := "X", value := .pending (.expr (.constant .parent "Y")) }
          { name := ⟨"A"⟩, parent := some ⟨"B"⟩ },
        { name := ⟨"B"⟩, interfaces := [⟨"I"⟩] },
        .addConstant { name := "Y", value := .pending (.expr (.constant (.named ⟨"a"⟩) "X")) }
          { name := ⟨"I"⟩, kind := .interface },
        .addConstant
          { name := "P", value := .pending (.expr (.binary .concat (own "Q") (own "R"))) }
          (.addConstant { name := "Q", value := .pending (.expr (own "S")) }
            (.addConstant { name := "R", value := .pending (.expr (own "S")) }
              (.addConstant { name := "S", value := .pending (.expr (.literal (.string "s"))) }
                { name := ⟨"D"⟩ })))]
    let ops : List Operation := decls.map .register ++ [.resolveId ⟨2⟩]
    ∃ r s t, Run (new {}) ops r ∧ (∀ op ∈ ops, op.Supplies ClassDecl.Plain) ∧
      r.autoloader = none ∧ r.size = 4 ∧
      constant 9 ⟨2⟩ "Y" r = .failure (.raised (.circularConstant "I" "Y")) s ∧
      constant 9 ⟨3⟩ "P" r = .value (.string "ss") t ∧
      (∃ rest, CircleOf r s ⟨⟨2⟩, .constant "Y"⟩ rest) ∧
      ∃ site, locate 9 ⟨3⟩ .self "P" r = .value site r ∧
        ∀ y, Relation.ReflTransGen r.DependsOn site y → ¬ Relation.TransGen r.DependsOn y y := by
  intro own decls ops
  have hrun : (performAll 9 ops (new {})).map (fun r =>
      (r.autoloader.isNone, r.size, r.idOf? ⟨"I"⟩, (constant 9 ⟨2⟩ "Y" r).answer?,
        (constant 9 ⟨3⟩ "P" r).answer?)) =
      some (true, 4, some ⟨2⟩, some (.error (.raised (.circularConstant "I" "Y"))),
        some (.ok (.string "ss"))) := by
    dsimp only [ops, decls, own]
    rfl
  obtain ⟨r, hr, hresults⟩ := Option.map_eq_some_iff.mp hrun
  simp only [Prod.mk.injEq, Option.isNone_iff_eq_none] at hresults
  obtain ⟨hhook, hsize, hbound, hcircle, hdiamond⟩ := hresults
  have hplain : ∀ d ∈ decls, d.Plain := by decide
  have hops : ∀ op ∈ ops, op.Supplies ClassDecl.Plain := by
    intro op hop
    rcases List.mem_append.mp hop with hop | hop
    · obtain ⟨d, hd, rfl⟩ := List.mem_map.mp hop
      exact ⟨fun d' hd' => by cases hd'; exact hplain d hd, fun loader hl => by cases hl⟩
    · rw [List.mem_singleton.mp hop]
      exact ⟨fun d hd => (by cases hd), fun loader hl => by cases hl⟩
  obtain ⟨s, hs⟩ := Outcome.answer?_eq_error_iff.mp hcircle
  obtain ⟨t, ht⟩ := Outcome.answer?_eq_ok_iff.mp hdiamond
  have hreported := (Run.self_reference (.of_performAll hr) hops hhook 9 ⟨2⟩ "Y").1 _ _ s hs
  have hgiven := (Run.self_reference (.of_performAll hr) hops hhook 9 ⟨3⟩ "P").2 _ t ht
  obtain ⟨p, rest, -, hp, hpath⟩ := hreported
  rw [hp (by rw [hsize]; decide), Option.some.injEq] at hbound
  subst hbound
  exact ⟨r, s, t, .of_performAll hr, hops, hhook, hsize, hs, ht, ⟨rest, hpath⟩, hgiven⟩

end Registry
end Lineage
