/-
Spelling has no part in what a registry does.

Two computations mirror each other if, run on registries that are the same but for
spelling, they end in the same way but for spelling and leave such registries behind.
Every function of a registry mirrors itself on arguments that are the same but for
spelling: names are compared by their keys only, and so every search, every check and
every evaluation goes the same way in both registries.  There is one rule for each way
to build a computation, and one lemma for each function, up to `perform_mirrors`.

The theorem of this file is `Run.spelling_irrelevant`.  It takes it that no program looks
at the spelling of an error, as an error shows a name as it was written.
-/
import Lineage.Proofs.Agreement
import Lineage.Proofs.Depth
import Lineage.Proofs.SpellingState

namespace Lineage

/-- Both computations ended, in the same way but for spelling, or both met the bound on
nesting. -/
inductive Outcome.Respelled {α α' : Type} (R : α → α' → Prop) :
    Outcome Registry α → Outcome Registry α' → Prop where
  | value {a : α} {a' : α'} {r s : Registry} (h : R a a') (hs : r.Respelled s) :
    Respelled R (.value a r) (.value a' s)
  | failure {f f' : Fault} {r s : Registry} (h : f.Respelled f') (hs : r.Respelled s) :
    Respelled R (.failure f r) (.failure f' s)
  | tooDeep : Respelled R .tooDeep .tooDeep

theorem Outcome.Respelled.state? {α α' : Type} {R : α → α' → Prop} {o : Outcome Registry α}
    {o' : Outcome Registry α'} {r s : Registry} (h : o.Respelled R o') (hr : o.state? = some r)
    (hs : o'.state? = some s) : r.Respelled s := by
  cases h with
  | value _ h => cases hr; cases hs; exact h
  | failure _ h => cases hr; cases hs; exact h
  | tooDeep => cases hr

namespace Registry

/-- Run on registries that are the same but for spelling, the computations end in the
same way but for spelling. -/
def Mirrors {α α' : Type} (R : α → α' → Prop) (x : Eval Registry α) (y : Eval Registry α') :
    Prop :=
  ∀ r s, r.Respelled s → (x r).Respelled R (y s)

namespace Mirrors

variable {α α' β β' : Type} {R : α → α' → Prop} {S : β → β' → Prop}
  {x : Eval Registry α} {y : Eval Registry α'}

/-! ## One rule for each way to build a computation -/

theorem pure {a : α} {a' : α'} (h : R a a') : Mirrors R (pure a) (pure a') :=
  fun _ _ hs => .value h hs

theorem raise {e e' : Error} (h : e.Respelled e') :
    Mirrors R (Eval.raise e : Eval Registry α) (Eval.raise e' : Eval Registry α') :=
  fun _ _ hs => .failure (.raised h) hs

theorem tooDeep : Mirrors R (Eval.tooDeep : Eval Registry α) (Eval.tooDeep : Eval Registry α') :=
  fun _ _ _ => .tooDeep

theorem get : Mirrors Respelled Eval.get Eval.get := fun _ _ hs => .value hs hs

theorem modify {f g : Registry → Registry} (h : ∀ r s, r.Respelled s → (f r).Respelled (g s)) :
    Mirrors Eq (.modify f) (.modify g) :=
  fun r s hs => .value rfl (h r s hs)

theorem ask {q : Registry → Except Fault α} {q' : Registry → Except Fault α'}
    (h : ∀ r s, r.Respelled s → Except.Related Fault.Respelled R (q r) (q' s)) :
    Mirrors R (.ask q) (.ask q') := by
  intro r s hs
  have hq := h r s hs
  unfold Eval.ask
  generalize q r = answer at hq ⊢
  generalize q' s = answer' at hq ⊢
  cases hq with
  | ok ha => exact .value ha hs
  | error hf => exact .failure hf hs

theorem bind {f : α → Eval Registry β} {g : α' → Eval Registry β'} (hx : Mirrors R x y)
    (hf : ∀ a a', R a a' → Mirrors S (f a) (g a')) : Mirrors S (x >>= f) (y >>= g) := by
  intro r s hs
  have hxy := hx r s hs
  rw [Eval.bind_apply, Eval.bind_apply]
  generalize x r = o at hxy ⊢
  generalize y s = o' at hxy ⊢
  cases hxy with
  | value ha ht => exact hf _ _ ha _ _ ht
  | failure hfault ht => exact .failure hfault ht
  | tooDeep => exact .tooDeep

theorem ofExcept {result : Except Error α} {result' : Except Error α'}
    (h : Except.Related Error.Respelled R result result') :
    Mirrors R (.ofExcept result) (.ofExcept result') := by
  cases h with
  | ok ha => exact .pure ha
  | error he => exact .raise he

theorem attempt (hx : Mirrors R x y) :
    Mirrors (Except.Related Error.Respelled R) x.attempt y.attempt := by
  intro r s hs
  have hxy := hx r s hs
  unfold Eval.attempt
  generalize x r = o at hxy ⊢
  generalize y s = o' at hxy ⊢
  cases hxy with
  | value ha ht => exact .value (.ok ha) ht
  | failure hfault ht =>
    cases hfault with
    | raised he => exact .value (.error he) ht
    | unissued id => exact .failure (.unissued id) ht
  | tooDeep => exact .tooDeep

theorem forEach {f g : α → Eval Registry Unit} (h : ∀ a, Mirrors Eq (f a) (g a)) (list : List α) :
    Mirrors Eq (.forEach f list) (.forEach g list) := by
  induction list with
  | nil => exact .pure rfl
  | cons a rest ih => exact (h a).bind fun _ _ _ => ih

theorem decl (id : ClassId) :
    Mirrors ClassDecl.Respelled (.ask (·.decl id)) (.ask (·.decl id)) :=
  .ask fun _ _ h => h.decl id

theorem links (id : ClassId) : Mirrors Links.Respelled (.ask (·.links id)) (.ask (·.links id)) :=
  .ask fun _ _ h => h.links id

end Mirrors

/-! ## Names -/

variable {d d' : ClassDecl} {n n' : QualifiedName} {q q' : Qualifier}

theorem register_mirrors (h : d.Respelled d') : Mirrors Eq (register d) (register d') := by
  intro r s hs
  unfold register
  rw [hs.contains h.name, hs.size]
  split
  · exact .failure (.raised (.duplicateClass h.name.text)) hs
  · exact .value rfl (hs.append h)

theorem lookup_mirrors (h : n.Respelled n') : Mirrors Eq (lookup n) (lookup n') := by
  intro r s hs
  rw [(Within.refl hs.hookless.1).lookup, (Within.refl hs.hookless.2).lookup, hs.idOf? h]
  cases s.idOf? n' with
  | some id => exact .value rfl hs
  | none => exact .failure (.raised (.classNotFound h.text)) hs

theorem searchReferences_mirrors
    {search : ClassId → List ClassId → Eval Registry (Option ClassId × List ClassId)}
    (hsearch : ∀ id visited, Mirrors Eq (search id visited) (search id visited))
    {names names' : List QualifiedName} (h : List.Forall₂ QualifiedName.Respelled names names')
    (visited : List ClassId) :
    Mirrors Eq (searchReferences search names visited)
      (searchReferences search names' visited) := by
  induction h generalizing visited with
  | nil => exact .pure rfl
  | cons hname _ ih =>
    refine (lookup_mirrors hname).bind fun id _ hid => ?_
    subst hid
    refine (hsearch id visited).bind fun found _ hfound => ?_
    subst hfound
    obtain ⟨owner?, between⟩ := found
    cases owner? with
    | some owner => exact .pure rfl
    | none => exact ih between

theorem searchConstant_mirrors (name : String) (depth : Nat) :
    ∀ id visited, Mirrors Eq (searchConstant name depth id visited)
      (searchConstant name depth id visited) := by
  induction depth with
  | zero => exact fun _ _ => .tooDeep
  | succ depth ih =>
    intro id visited
    unfold searchConstant
    split
    · exact .pure rfl
    · refine (Mirrors.decl id).bind fun d d' h => ?_
      rw [h.constants.contains name]
      split
      · exact .pure rfl
      · exact searchReferences_mirrors ih h.references (id :: visited)

theorem target_mirrors (id : ClassId) (h : q.Respelled q') :
    Mirrors Eq (target id q) (target id q') := by
  cases h with
  | self => exact .pure rfl
  | static => exact .pure rfl
  | named hname => exact lookup_mirrors hname
  | parent =>
    refine (Mirrors.decl id).bind fun d d' h => ?_
    obtain ⟨hp, hp'⟩ | ⟨p, p', hp, hp', hname⟩ := rel_cases h.parent
    · rw [hp, hp']
      exact .raise (.noParentScope h.name.text)
    · rw [hp, hp']
      exact lookup_mirrors hname

/-! ## Values -/

theorem fetchWith_mirrors {force : LazySite → Eval Registry Value}
    (hforce : ∀ site, Mirrors Eq (force site) (force site)) (depth : Nat) (id : ClassId)
    (h : q.Respelled q') (name : String) :
    Mirrors Eq (fetchWith force depth id q name) (fetchWith force depth id q' name) := by
  refine (target_mirrors id h).bind fun p _ hp => ?_
  subst hp
  refine (searchConstant_mirrors name depth p []).bind fun found _ hfound => ?_
  subst hfound
  obtain ⟨owner?, visited⟩ := found
  cases owner? with
  | some owner => exact hforce _
  | none => exact (Mirrors.decl p).bind fun d d' h => .raise (.undefinedConstant h.name.text name)

/-- Answers that are the same but for spelling let the programs go on in the same way. -/
theorem evaluate_mirrors {scope : Scope Registry} (hnote : scope.note = note)
    (hfetch : ∀ q q' name, q.Respelled q' → Mirrors Eq (scope.fetch q name) (scope.fetch q' name))
    {p p' : Program} (h : p.Respelled p') :
    Mirrors Eq (p.evaluate scope) (p'.evaluate scope) := by
  induction h with
  | done hresult => exact .ofExcept hresult
  | @fetch q q' name next next' hq _ ih => exact (hfetch q q' name hq).attempt.bind ih
  | note label _ ih =>
    refine Mirrors.bind (.modify fun r s hs => ?_) fun _ _ _ => ih
    rw [hnote]
    exact hs.record (.noted label)

theorem evaluateSite_mirrors {scope : Scope Registry} (hnote : scope.note = note)
    (hfetch : ∀ q q' name, q.Respelled q' → Mirrors Eq (scope.fetch q name) (scope.fetch q' name))
    (site : LazySite) (h : d.Respelled d') {source source' : Initializer}
    (hsource : source.Respelled source') :
    Mirrors Eq (evaluateSite scope site d source) (evaluateSite scope site d' source') := by
  have hvalue : Mirrors Eq (source.evaluate scope) (source'.evaluate scope) := by
    intro r s hs
    rw [Initializer.evaluate_eq, Initializer.evaluate_eq]
    exact evaluate_mirrors hnote hfetch hsource.toProgram r s hs
  refine Mirrors.get.bind fun r s hs => ?_
  rw [hs.evaluating, h.label site.member]
  split
  · exact .raise (.circularConstant h.name.text _)
  · refine (Mirrors.modify fun r s hs => hs.beginEvaluation site).bind fun _ _ _ => ?_
    refine hvalue.attempt.bind fun result result' hresult => ?_
    refine (Mirrors.modify fun r s hs => hs.endEvaluation site hresult).bind fun _ _ _ => ?_
    exact .ofExcept hresult

theorem force_mirrors (depth : Nat) : ∀ site, Mirrors Eq (force depth site) (force depth site) := by
  induction depth with
  | zero => exact fun _ => .tooDeep
  | succ depth ih =>
    intro site
    refine (Mirrors.ask fun r s h => h.registration site.owner).bind fun found found' h => ?_
    obtain ⟨d, standing, statics⟩ := found
    obtain ⟨d', standing', statics'⟩ := found'
    have hd : d.Respelled d' := h.decl
    have hstanding : standing.Respelled standing' := h.standing
    cases hstanding with
    | failed he => exact .raise he
    | unresolved | resolved _ =>
      dsimp only
      obtain ⟨hl, hl'⟩ | ⟨l, l', hl, hl', hlazy⟩ :=
        rel_cases (hd.lazy? site.member)
      · rw [hl, hl']
        exact .pure rfl
      · rw [hl, hl']
        cases hlazy with
        | settled v => exact .pure rfl
        | pending hsource =>
          refine evaluateSite_mirrors rfl (fun q q' name hq => ?_) site hd hsource
          exact fetchWith_mirrors ih depth site.owner hq name

theorem constant_mirrors (depth : Nat) (id : ClassId) (name : String) :
    Mirrors Eq (constant depth id name) (constant depth id name) := by
  refine (Mirrors.ask fun r s h => h.registration id).bind fun found found' h => ?_
  obtain ⟨d, standing, statics⟩ := found
  obtain ⟨d', standing', statics'⟩ := found'
  have hstanding : standing.Respelled standing' := h.standing
  have hfetch := fetchWith_mirrors (force_mirrors depth) depth id .self name
  cases hstanding with
  | unresolved => exact hfetch
  | resolved _ => exact hfetch
  | failed he => exact .raise he

/-! ## Linking -/

theorem reject_mirrors {a a' t t' : String} {v v' : Option Violation} (ha : Text.Recased a a')
    (ht : Text.Recased t t') (hv : Option.Rel Violation.Respelled v v') :
    Mirrors Eq (reject a t v) (reject a' t' v') := by
  refine Mirrors.get.bind fun r s hs => ?_
  cases hv with
  | none => exact .pure rfl
  | some hv =>
    dsimp only
    rw [hs.config.verify]
    split
    · exact .raise (.invalidInheritance ha ht hv)
    · exact .pure rfl

theorem inheritOne_mirrors {resolve : ClassId → Eval Registry Unit}
    (hresolve : ∀ p, Mirrors Eq (resolve p) (resolve p)) (h : d.Respelled d')
    {ref ref' : Role × QualifiedName} (hrole : ref.1 = ref'.1) (hname : ref.2.Respelled ref'.2) :
    Mirrors (fun found found' => found.1 = found'.1 ∧ found.2.Respelled found'.2)
      (inheritOne resolve d ref) (inheritOne resolve d' ref') := by
  refine (lookup_mirrors hname).bind fun p _ hp => ?_
  subst hp
  refine (hresolve p).bind fun _ _ _ => (Mirrors.decl p).bind fun b b' hb => ?_
  rw [hrole]
  refine (reject_mirrors h.name.text hb.name.text (h.violation? hb ref'.1)).bind fun _ _ _ => ?_
  exact (Mirrors.links p).bind fun l l' hl => .pure ⟨rfl, hl⟩

theorem inheritAll_mirrors {resolve : ClassId → Eval Registry Unit}
    (hresolve : ∀ p, Mirrors Eq (resolve p) (resolve p)) (h : d.Respelled d')
    {refs refs' : List (Role × QualifiedName)}
    (hrefs : List.Forall₂ (fun ref ref' => ref.1 = ref'.1 ∧ ref.2.Respelled ref'.2) refs refs')
    {l l' : Links} (hl : l.Respelled l') :
    Mirrors Links.Respelled (inheritAll resolve d refs l) (inheritAll resolve d' refs' l') := by
  induction hrefs generalizing l l' with
  | nil => exact .pure hl
  | @cons ref ref' _ _ href _ ih =>
    refine (inheritOne_mirrors hresolve h href.1 href.2).bind fun found found' hfound => ?_
    rw [href.1, hfound.1]
    exact ih (hl.extend ref'.1 found'.1 hfound.2)

theorem declareMethods_mirrors (id : ClassId) (h : d.Respelled d')
    {entries entries' : List (String × MethodDecl)}
    (hentries : List.Forall₂ (fun m m' => m.1 = m'.1 ∧ m.2.Respelled m'.2) entries entries')
    {l l' : Links} (hl : l.Respelled l') :
    Mirrors Links.Respelled (declareMethods id d entries l) (declareMethods id d' entries' l') := by
  induction hentries generalizing l l' with
  | nil => exact .pure hl
  | @cons entry entry' _ _ hentry _ ih =>
    have hrest := ih (hl.declare id hentry.1 hentry.2)
    obtain ⟨key, m⟩ := entry
    obtain ⟨key', m'⟩ := entry'
    obtain ⟨rfl, hm⟩ := hentry
    unfold declareMethods
    obtain ⟨hi, hi'⟩ | ⟨i, i', hi, hi', hinherited⟩ := rel_cases (hl.methods.get? key)
    · rw [hi, hi']
      exact hrest
    · rw [hi, hi']
      exact (reject_mirrors h.name.text hinherited.decl.qualifiedName
        hinherited.decl.overrideViolation?).bind fun _ _ _ => hrest

theorem link_mirrors {resolve : ClassId → Eval Registry Unit}
    (hresolve : ∀ p, Mirrors Eq (resolve p) (resolve p)) (depth : Nat) (id : ClassId) :
    Mirrors Links.Respelled (link resolve (force depth) id) (link resolve (force depth) id) := by
  rw [link_eq]
  refine (Mirrors.decl id).bind fun d d' h => ?_
  refine (inheritAll_mirrors hresolve h h.inheritances (.refl_of_ancestors [id])).bind ?_
  refine fun l l' hl => (declareMethods_mirrors id h h.methods hl).bind fun l l' hl => ?_
  have hvalues : Mirrors Eq (forceAll (force depth) id d) (forceAll (force depth) id d') := by
    rw [forceAll, forceAll, h.lazyMembers]
    exact .forEach (fun m => (force_mirrors depth ⟨id, m⟩).bind fun _ _ _ => .pure rfl) _
  refine hvalues.bind fun _ _ _ => Mirrors.get.bind fun r s hs => .pure ?_
  exact { hl with constructor := hl.method? hs.config.constructorName }

/-! ## Resolution -/

theorem resolveId_mirrors (depth : Nat) :
    ∀ id, Mirrors Eq (resolveId depth id) (resolveId depth id) := by
  induction depth with
  | zero => exact fun _ => .tooDeep
  | succ depth ih =>
    intro id
    refine (Mirrors.ask fun r s h => h.registration id).bind fun found found' h => ?_
    obtain ⟨d, standing, statics⟩ := found
    obtain ⟨d', standing', statics'⟩ := found'
    have hstanding : standing.Respelled standing' := h.standing
    cases hstanding with
    | resolved _ => exact .pure rfl
    | failed he => exact .raise he
    | unresolved =>
      refine Mirrors.get.bind fun r s hs => ?_
      obtain ⟨hc, hc'⟩ | ⟨e, e', hc, hc', he⟩ := rel_cases (hs.cycle? id)
      · rw [hc, hc']
        refine (Mirrors.modify fun r s hs => hs.beginLinking id).bind fun _ _ _ => ?_
        refine (link_mirrors ih depth id).attempt.bind fun result result' hresult => ?_
        refine (Mirrors.modify fun r s hs => hs.endLinking id hresult).bind fun _ _ _ => ?_
        exact .ofExcept (hresult.map fun _ _ _ => rfl)
      · rw [hc, hc']
        exact .raise he

theorem resolve_mirrors (depth : Nat) (h : n.Respelled n') :
    Mirrors Eq (resolve depth n) (resolve depth n') := by
  refine (lookup_mirrors h).bind fun id _ hid => ?_
  subst hid
  exact (resolveId_mirrors depth id).bind fun _ _ _ => .pure rfl

theorem declare_mirrors (depth : Nat) (h : d.Respelled d') :
    Mirrors Eq (declare depth d) (declare depth d') := by
  refine (register_mirrors h).bind fun id _ hid => ?_
  subst hid
  exact (resolveId_mirrors depth id).bind fun _ _ _ => .pure rfl

theorem resolveFrom_mirrors {resolve : ClassId → Eval Registry Unit}
    (hresolve : ∀ p, Mirrors Eq (resolve p) (resolve p)) (depth : Nat) :
    ∀ position, Mirrors (List.Forall₂ fun f f' => f.1 = f'.1 ∧ f.2.Respelled f'.2)
      (resolveFrom resolve depth position) (resolveFrom resolve depth position) := by
  induction depth with
  | zero => exact fun _ => .tooDeep
  | succ depth ih =>
    intro position
    refine Mirrors.get.bind fun r s hs => ?_
    rw [hs.size]
    split
    · refine (hresolve _).attempt.bind fun result result' hresult => ?_
      refine (ih (position + 1)).bind fun rest rest' hrest => ?_
      cases hresult with
      | ok _ => exact .pure hrest
      | error he => exact .pure (.cons ⟨rfl, he⟩ hrest)
    · exact .pure .nil

/-! ## Static values -/

theorem statics_mirrors (id : ClassId) : Mirrors Eq (statics id) (statics id) := by
  refine (Mirrors.links id).bind fun _ _ _ => ?_
  refine (Mirrors.ask fun r s h => h.registration id).bind fun found found' h => ?_
  rw [h.statics, h.decl.statics]
  cases found'.statics with
  | some table => exact .pure rfl
  | none => exact (Mirrors.modify fun r s hs => hs.setStatics id _).bind fun _ _ _ => .pure rfl

/-- Static values are read, and others are written in their place. -/
theorem statics_bind_mirrors {α : Type} (id : ClassId) (f : StaticTable → StaticTable)
    (answer : StaticTable → α) :
    Mirrors Eq
      (do
        let table ← statics id
        .modify (setStatics id (f table))
        pure (answer table) : Eval Registry α)
      (do
        let table ← statics id
        .modify (setStatics id (f table))
        pure (answer table) : Eval Registry α) := by
  refine (statics_mirrors id).bind fun table _ htable => ?_
  subst htable
  exact (Mirrors.modify fun r s hs => hs.setStatics id _).bind fun _ _ _ => .pure rfl

theorem staticOwner_mirrors (name : String) (depth : Nat) :
    ∀ id, Mirrors Eq (staticOwner name depth id) (staticOwner name depth id) := by
  induction depth with
  | zero => exact fun _ => .tooDeep
  | succ depth ih =>
    intro id
    refine (Mirrors.links id).bind fun l l' hl => (Mirrors.decl id).bind fun d d' h => ?_
    rw [h.declaresStatic name, hl.parent]
    split
    · exact .pure rfl
    · split
      · exact ih _
      · exact .pure rfl

theorem staticProperty_mirrors (depth : Nat) (id : ClassId) (name : String) :
    Mirrors Eq (staticProperty depth id name) (staticProperty depth id name) := by
  refine (staticOwner_mirrors name depth id).bind fun owner _ howner => ?_
  subst howner
  cases owner with
  | none => exact .pure rfl
  | some owner => exact (statics_mirrors owner).bind fun _ _ htable => .pure (by rw [htable])

theorem setStaticProperty_mirrors (depth : Nat) (id : ClassId) (name : String) (v : Value) :
    Mirrors Eq (setStaticProperty depth id name v) (setStaticProperty depth id name v) := by
  refine (staticOwner_mirrors name depth id).bind fun owner _ howner => ?_
  subst howner
  cases owner with
  | none => exact .pure rfl
  | some owner => exact statics_bind_mirrors owner (·.replace name v) (·.get? name)

/-! ## Operations and runs -/

/-- A result that is the same is answered in the same way. -/
theorem Mirrors.answer {α : Type} {x y : Eval Registry α} (h : Mirrors Eq x y)
    (f : α → Answer) (hf : ∀ a, (f a).Respelled (f a)) :
    Mirrors Answer.Respelled (do return f (← x)) (do return f (← y)) :=
  h.bind fun a _ ha => .pure (ha ▸ hf a)

theorem perform_mirrors (depth : Nat) {op op' : Operation} (h : op.Respelled op') :
    Mirrors Answer.Respelled (perform depth op) (perform depth op') := by
  cases h with
  | register h => exact (register_mirrors h).answer .id .id
  | declare h => exact (declare_mirrors depth h).answer .id .id
  | clearAutoloader =>
    refine (Mirrors.modify fun r s hs => ?_).bind fun _ _ _ => .pure .nothing
    exact { hs with hookless := ⟨rfl, rfl⟩ }
  | find h => exact Mirrors.get.bind fun r s hs => .pure (hs.idOf? h ▸ .id? _)
  | contains h => exact Mirrors.get.bind fun r s hs => .pure (hs.contains h ▸ .flag _)
  | lookup h => exact (lookup_mirrors h).answer .id .id
  | resolve h => exact (resolve_mirrors depth h).answer .id .id
  | resolveId id => exact (resolveId_mirrors depth id).bind fun _ _ _ => .pure .nothing
  | resolveAll =>
    exact (resolveFrom_mirrors (resolveId_mirrors depth) depth 0).bind fun _ _ hl =>
      .pure (.failures hl)
  | isResolved id => exact (Mirrors.ask fun r s hs => hs.isResolved id).answer .flag .flag
  | resolutionError id =>
    exact (Mirrors.ask fun r s hs => hs.resolutionError id).bind fun _ _ he => .pure (.error? he)
  | links id => exact (Mirrors.links id).bind fun _ _ hl => .pure (.links hl)
  | decl id => exact Mirrors.get.bind fun r s hs => .pure (.decl? (hs.decl? id))
  | classes => exact Mirrors.get.bind fun r s hs => .pure (.classes hs.classes)
  | size => exact Mirrors.get.bind fun r s hs => .pure (hs.size ▸ .size _)
  | config => exact Mirrors.get.bind fun r s hs => .pure (.config hs.config)
  | text => exact Mirrors.get.bind fun r s hs => .pure (.text hs.text)
  | isInstanceOf id candidate =>
    exact (Mirrors.ask fun r s hs => hs.isInstanceOf id candidate).answer .flag .flag
  | findMethod id hm =>
    exact (Mirrors.ask fun r s hs => hs.findMethod id hm).bind fun _ _ hm => .pure (.method? hm)
  | constructor id =>
    exact (Mirrors.ask fun r s hs => hs.constructor id).bind fun _ _ hm => .pure (.method? hm)
  | sameMethod id p hm hn =>
    exact (Mirrors.ask fun r s hs => hs.sameMethod id p hm hn).answer .sameness .sameness
  | constant id name => exact (constant_mirrors depth id name).answer .value .value
  | statics id => exact (statics_mirrors id).answer .statics .statics
  | setStatic id name v =>
    exact (statics_bind_mirrors id (·.put name v) (·.get? name)).answer .value? .value?
  | replaceStatics id table =>
    exact (statics_bind_mirrors id (fun _ => table) fun before => before).answer .statics .statics
  | staticOwner id name => exact (staticOwner_mirrors name depth id).answer .id? .id?
  | staticProperty id name => exact (staticProperty_mirrors depth id name).answer .value? .value?
  | setStaticProperty id name v =>
    exact (setStaticProperty_mirrors depth id name v).answer .value? .value?

/-- What one operation leaves behind is the same but for spelling, also if the bounds on
nesting differ. -/
theorem Respelled.perform {r s t u : Registry} {op op' : Operation} {depth depth' : Nat}
    (h : r.Respelled s) (hop : op.Respelled op')
    (ht : (Registry.perform depth op r).state? = some t)
    (hu : (Registry.perform depth' op' s).state? = some u) : t.Respelled u := by
  have hends : Registry.perform depth' op' s ≠ .tooDeep := by
    intro hspent
    rw [hspent] at hu
    cases hu
  have hmirrors := perform_mirrors depth hop r s h
  rcases perform_eq_or_eq depth hends with hspent | heq
  · rw [hspent] at hmirrors
    generalize Registry.perform depth op r = o at hmirrors ht
    cases hmirrors
    cases ht
  · rw [heq] at hmirrors
    exact hmirrors.state? ht hu

theorem Run.respelled {r s t u : Registry} {ops ops' : List Operation} (hrs : r.Respelled s)
    (hops : List.Forall₂ Operation.Respelled ops ops') (h : Run r ops t) (h' : Run s ops' u) :
    t.Respelled u := by
  induction h generalizing s ops' with
  | nil r =>
    cases hops
    cases h'
    exact hrs
  | cons depth first rest ih =>
    cases hops with
    | cons hop hrest =>
      cases h' with
      | cons depth' first' rest' => exact ih (hrs.perform hop first first') hrest rest'

/-- Take two sequences of operations that differ only in how names are spelled, and none
of which puts a hook in place, on new registries whose configurations differ in that
only.  No value comes from a program that looks at the spelling of an error.  After any
number of operations the registries are the same but for spelling, and the next operation
ends in both of them in the same way. -/
theorem Run.spelling_irrelevant {config config' : Config} {ops ops' : List Operation}
    {r s : Registry} (hconfig : config.Respelled config')
    (hops : List.Forall₂ Operation.Rewritten ops ops')
    (hsources : ∀ op ∈ ops, op.Supplies ClassDecl.IgnoresSpelling) (h : Run (new config) ops r)
    (h' : Run (new config') ops' s) :
    r.Respelled s ∧ ∀ op op' depth, op.Rewritten op' → op.Supplies ClassDecl.IgnoresSpelling →
      (perform depth op r).Respelled Answer.Respelled (perform depth op' s) := by
  have hrespelled : List.Forall₂ Operation.Respelled ops ops' :=
    forall₂_imp_getElem? hops fun i op op' hget hop =>
      hop.respelled (hsources op (List.mem_of_getElem? hget))
  have hrs : r.Respelled s := Run.respelled (.new hconfig) hrespelled h h'
  exact ⟨hrs, fun op op' depth hop hi => perform_mirrors depth (hop.respelled hi) r s hrs⟩

/-- `B` inherits from `N\A`, which is declared with a leading separator the second
time, and all names are spelled otherwise.  The constant falls back on that of the parent,
as a class is missing. -/
theorem Run.spelling_irrelevant_with_fallback :
    let base (name construct : String) : ClassDecl :=
      .addConstant { name := "X", value := .pending (.expr (.literal (.int 1))) }
        (.addMethod { name := construct } { name := .parse name })
    let missing (name : String) : Initializer := .expr (.constant (.named (.parse name)) "Z")
    let child (name parent other greet : String) : ClassDecl :=
      .addConstant
        { name := "Y", value := .pending ((missing other).orElse (.expr (.constant .parent "X"))) }
        (.addMethod { name := greet } (.withParent (.parse parent) { name := .parse name }))
    let ops : List Operation :=
      [.register (base "N\\A" "__construct"),
        .declare (child "B" "n\\a" "M" "Greet")]
    let ops' : List Operation :=
      [.register (base "\\n\\A" "__Construct"),
        .declare (child "b" "N\\a" "m" "greet")]
    ∃ r s, Run (new {}) ops r ∧ Run (new { constructorName := "__CONSTRUCT" }) ops' s ∧
      List.Forall₂ Operation.Rewritten ops ops' ∧
      (∀ op ∈ ops, op.Supplies ClassDecl.IgnoresSpelling) ∧
      (constant 9 ⟨1⟩ "Y" r).answer? = some (.ok (.int 1)) ∧
      (constant 9 ⟨1⟩ "Y" s).answer? = some (.ok (.int 1)) ∧ r.Respelled s ∧
      (perform 9 (.findMethod ⟨1⟩ "GREET") r).Respelled Answer.Respelled
        (perform 9 (.findMethod ⟨1⟩ "gREET") s) := by
  intro base missing child ops ops'
  have hname : ∀ v w : String, Text.Recased v w →
      (QualifiedName.parse v).Respelled (.parse w) :=
    fun v w h => ⟨v, w, v, w, h, .asIs v, .asIs w, rfl, rfl⟩
  have hled : (QualifiedName.parse "N\\A").Respelled (.parse "\\n\\A") :=
    ⟨"N\\A", "n\\A", _, _, by decide, .asIs _, .led (by decide), rfl,
      congrArg QualifiedName.parse (by decide)⟩
  have hbase : (base "N\\A" "__construct").Rewritten (base "\\n\\A" "__Construct") := by
    refine .addConstant (.addMethod (.named hled) ?_) ?_
    · exact ⟨by decide, rfl, rfl, rfl, .none⟩
    · exact ⟨rfl, rfl, .pending (.expr (.literal _))⟩
  have hmissing : (missing "M").Rewritten (missing "m") :=
    .expr (.constant (.named (hname _ _ (by decide))) "Z")
  have hchild : (child "B" "n\\a" "M" "Greet").Rewritten (child "b" "N\\a" "m" "greet") := by
    refine .addConstant (.addMethod (.withParent (.named ?_) ?_) ?_) ?_
    · exact hname "B" "b" (by decide)
    · exact hname "n\\a" "N\\a" (by decide)
    · exact ⟨by decide, rfl, rfl, rfl, .none⟩
    · exact ⟨rfl, rfl, .pending (hmissing.orElse (.expr (.constant .parent "X")))⟩
  have hops : List.Forall₂ Operation.Rewritten ops ops' :=
    .cons (.register hbase) (.cons (.declare hchild) .nil)
  have hsources : ∀ op ∈ ops, op.Supplies ClassDecl.IgnoresSpelling := by
    refine List.forall_mem_cons.mpr ⟨⟨fun d hd => ?_, fun loader hl => by cases hl⟩,
      List.forall_mem_singleton.mpr ⟨fun d hd => ?_, fun loader hl => by cases hl⟩⟩
    · cases hd
      exact ClassDecl.Plain.ignoresSpelling (by decide)
    · cases hd
      intro m source hm
      rw [ClassDecl.lazy?_addConstant] at hm
      split at hm
      · cases hm
        exact Combination.ignoresSpelling (.orElse (.expr _) (.expr _))
      · cases m <;> cases hm
  have hconfig : Config.Respelled {} { constructorName := "__CONSTRUCT" } := ⟨by decide, rfl⟩
  have hleft : (performAll 9 ops (new {})).map (fun r => (constant 9 ⟨1⟩ "Y" r).answer?) =
      some (some (.ok (.int 1))) := by
    dsimp only [ops, base, missing, child]
    rfl
  have hright : (performAll 9 ops' (new { constructorName := "__CONSTRUCT" })).map
      (fun r => (constant 9 ⟨1⟩ "Y" r).answer?) = some (some (.ok (.int 1))) := by
    dsimp only [ops', base, missing, child]
    rfl
  obtain ⟨r, hr, hvalue⟩ := Option.map_eq_some_iff.mp hleft
  obtain ⟨s, hs, hvalue'⟩ := Option.map_eq_some_iff.mp hright
  obtain ⟨hrs, hnext⟩ := Run.spelling_irrelevant hconfig hops hsources (.of_performAll hr)
    (.of_performAll hs)
  have hquery : (Operation.findMethod ⟨1⟩ "GREET").Supplies ClassDecl.IgnoresSpelling :=
    ⟨fun d hd => (by cases hd), fun loader hl => by cases hl⟩
  exact ⟨r, s, .of_performAll hr, .of_performAll hs, hops, hsources, hvalue, hvalue', hrs,
    hnext _ _ 9 (.findMethod ⟨1⟩ (by decide)) hquery⟩

/-- A program that fetches a constant which its class lacks, and returns the name of the
class out of the error, returns the name as it is written in the declaration. -/
theorem Run.spelling_shown :
    let spelled : Except Error Value → Value
      | .error (.undefinedConstant owner _) => .string owner
      | _ => .null
    let peek : Program := .fetch .self "Nope" fun answer => .done (.ok (spelled answer))
    let declared (name : String) : ClassDecl :=
      .addConstant { name := "K", value := .pending (.program peek) } { name := .parse name }
    ∃ r s, Run (new {}) [.register (declared "A")] r ∧ Run (new {}) [.register (declared "a")] s ∧
      Operation.Rewritten (.register (declared "A")) (.register (declared "a")) ∧
      (constant 9 ⟨0⟩ "K" r).answer? = some (.ok (.string "A")) ∧
      (constant 9 ⟨0⟩ "K" s).answer? = some (.ok (.string "a")) ∧ ¬ peek.IgnoresSpelling := by
  intro spelled peek declared
  have hclass : (declared "A").Rewritten (declared "a") := by
    refine .addConstant (.named ⟨"A", "a", "A", "a", by decide, .asIs _, .asIs _, rfl, rfl⟩) ?_
    refine ⟨rfl, rfl, .pending (.program (.fetch .self ?_))⟩
    rintro answer - rfl
    exact .done rfl
  have hleft : (performAll 9 [.register (declared "A")] (new {})).map
      (fun r => (constant 9 ⟨0⟩ "K" r).answer?) = some (some (.ok (.string "A"))) := by
    dsimp only [declared, peek, spelled]
    rfl
  have hright : (performAll 9 [.register (declared "a")] (new {})).map
      (fun r => (constant 9 ⟨0⟩ "K" r).answer?) = some (some (.ok (.string "a"))) := by
    dsimp only [declared, peek, spelled]
    rfl
  obtain ⟨r, hr, hvalue⟩ := Option.map_eq_some_iff.mp hleft
  obtain ⟨s, hs, hvalue'⟩ := Option.map_eq_some_iff.mp hright
  have hlooks : ¬ peek.IgnoresSpelling := by
    intro h
    dsimp only [peek, Program.IgnoresSpelling] at h
    cases h with
    | fetch _ hnext =>
      have halike : AnsweredAlike (.error (.undefinedConstant "A" "Nope"))
          (.error (.undefinedConstant "a" "Nope")) := .error (.undefinedConstant (by decide) _)
      cases hnext _ _ halike with
      | done hresult =>
        cases hresult with
        | ok heq => simp [spelled] at heq
  exact ⟨r, s, .of_performAll hr, .of_performAll hs, .register hclass, hvalue, hvalue', hlooks⟩

end Registry
end Lineage
