/-
Resolution and evaluation end.

References and constants may form any graph, and the hook may add to it on the
way.  The theorem of this file, `Reachable.terminates`, says that every operation
that declares nothing ends nevertheless, if the hook has finitely many names and
sources to supply: there is a bound on nesting that suffices, and it is stated in
terms of the classes that can be registered and of the constants that their sources
mention.

A class that is resolved is not on the stack, so there are as many levels of
resolution as classes, and below them those of one evaluation (`resolveId_ends`).
-/
import Lineage.Proofs.Dispatch
import Lineage.Proofs.Finishing
import Lineage.Proofs.Guard
import Lineage.Proofs.SettledRead

namespace Lineage
namespace Registry

variable {r s : Registry} {names constants : List String}

/-! ## Resolution -/

/-- Resolution leads from a fit state to a fit state. -/
theorem resolveId_fit (depth : Nat) (p : ClassId) (h : r.Fit names constants) :
    (resolveId depth p r).Meets (fun _ s => Advances r s ∧ s.Fit names constants)
      (fun _ s => Advances r s ∧ s.Fit names constants) True :=
  (Outcome.Meets.and (resolveId_advancing depth p h.reachable.indexed)
    ((stable_confined names constants).resolveId depth p r h.toConfined)).imp
    (fun _ _ hs => ⟨hs.1, h.of_steps hs.1.steps hs.2⟩)
    (fun _ _ hs => ⟨hs.1, h.of_steps hs.1.steps hs.2.1⟩) And.left

/-- The own values of a class are computed one after the other. -/
theorem forceAll_ends (depth : Nat) {id : ClassId} (d : ClassDecl) (h : r.Fit names constants)
    (hi : r.Issued id) (hspent : forceAll (force depth) id d r = .tooDeep) :
    depth ≤ valueDepth names constants := by
  refine Outcome.Meets.of_tooDeep (Q := fun _ s => Computes r s ∧ s.Fit names constants)
    (E := fun _ _ => True)
    (Eval.meets_forEach (I := fun _ s => Computes r s ∧ s.Fit names constants)
      ?_ d.lazyMembers [] r rfl ⟨.refl r, h⟩) hspent
  rintro before m after s - ⟨hs, hfit⟩
  have hvalue : Finishes names constants (force depth ⟨id, m⟩) s (fun _ _ => True)
      (depth ≤ valueDepth names constants) := force_finishes depth hfit (hs.grows.issued hi)
  refine Eval.meets_bind (Outcome.Meets.imp hvalue (fun _ _ h => h) (fun _ _ _ => trivial)
    fun h => h) ?_
  rintro _ t ⟨ht, hfit', -⟩
  exact ⟨hs.trans ht, hfit'⟩

/-- What each step of linking a class needs. -/
theorem linkSteps_fit {depth : Nat} {id : ClassId} {stack : List ClassId} {d : ClassDecl}
    {small : Prop}
    (hresolve : ∀ p s, Fit names constants s → s.Issued p → s.resolving = id :: stack →
      resolveId depth p s = .tooDeep → small)
    (hvalues : depth ≤ valueDepth names constants → small) :
    LinkSteps (fun s => s.Fit names constants ∧ s.resolving = id :: stack) (fun _ _ => True)
      (fun _ => True) (fun _ _ _ => True) (fun _ _ _ => True) small
      (resolveId depth) (force depth) id d where
  indexed s hs := hs.1.reachable.indexed
  weaken _ _ _ _ := trivial
  lookup name s hs := by
    have hkeep := ((stable_confined names constants).lookup name) s hs.1.toConfined
    refine ((lookup_advances name s).and hkeep).imp ?_ ?_ fun h => h.1.elim
    · rintro q t ⟨⟨hadv, hq⟩, hconf⟩
      exact ⟨⟨hs.1.of_steps hadv.steps hconf, hadv.resolving.trans hs.2⟩, hadv.grows, hq⟩
    · rintro f t ⟨⟨hadv, hq⟩, hconf, -⟩
      exact ⟨⟨hs.1.of_steps hadv.steps hconf, hadv.resolving.trans hs.2⟩, hadv.grows, hq⟩
  resolve q s hs hq hawaits := by
    refine (((resolveId_advances depth q s hs.1.reachable.indexed hq).and
      (resolveId_fit depth q hs.1)).bounded (hresolve q s hs.1 hq hs.2)).imp ?_ ?_ fun h => h
    · rintro _ t ⟨⟨hadv, hlinks⟩, -, hfit⟩
      exact ⟨⟨hfit, hadv.resolving.trans hs.2⟩, hadv.grows, hlinks⟩
    · rintro f t ⟨⟨hadv, -⟩, -⟩
      exact ⟨trivial, hadv.grows, trivial⟩
  members s hs hinh := by
    have hi := hinh.declares.issued
    refine ((forceAll_meets depth d hs.1.reachable.indexed hi).bounded
      fun hspent => hvalues (forceAll_ends depth d hs.1 hi hspent)).imp ?_ ?_ fun h => h
    · exact fun _ t ht => ⟨trivial, ht.1.grows, ht.2⟩
    · exact fun f t ht => ⟨trivial, ht.1.grows, trivial⟩

/-- How deep an operation can nest. -/
def operationDepth (names constants : List String) : Nat :=
  names.length + valueDepth names constants

/-- Linking a class resolves others and computes values. -/
theorem link_ends {depth : Nat} {id : ClassId} {stack : List ClassId} {d : ClassDecl}
    (hresolve : ∀ p s, Fit names constants s → resolveId depth p s = .tooDeep →
      depth + s.resolving.length ≤ operationDepth names constants)
    (h : r.Fit names constants) (hstack : r.resolving = id :: stack) (hd : r.decl? id = some d)
    (hspent : link (resolveId depth) (force depth) id r = .tooDeep) :
    depth + r.resolving.length ≤ operationDepth names constants := by
  have hroom : r.resolving.length ≤ names.length :=
    Nat.le_trans h.reachable.nested.length_resolving_le h.size_le
  refine (link_meets (linkSteps_fit (fun p s hs _ hsame hdeep => ?_) fun hvalues => ?_)
    ⟨h, hstack⟩ hd).of_tooDeep hspent
  · rw [hstack, ← hsame]
    exact hresolve p s hs hdeep
  · unfold operationDepth
    omega

/-- Each level of resolution has one more class on the stack, and at the innermost
one a value is computed. -/
theorem resolveId_ends (depth : Nat) :
    ∀ p r, Fit names constants r → resolveId depth p r = .tooDeep →
      depth + r.resolving.length ≤ operationDepth names constants := by
  induction depth with
  | zero =>
    intro p r h _
    have hle := h.reachable.nested.length_resolving_le
    have hsize := h.size_le
    unfold operationDepth
    omega
  | succ depth ih =>
    intro p r h hspent
    by_cases hp : r.Issued p
    · obtain ⟨st, hst⟩ := hp.standing?
      cases st with
      | resolved links =>
        rw [resolveId_of_resolved depth hst] at hspent
        cases hspent
      | failed e =>
        rw [resolveId_of_failed depth hst] at hspent
        cases hspent
      | unresolved =>
        cases hc : r.cycle? p with
        | some e =>
          rw [resolveId_of_cycle depth hst hc] at hspent
          cases hspent
        | none =>
          have hfresh := cycle?_eq_none_iff.mp hc
          obtain ⟨d, hd⟩ := issued_iff_decl?.mp hp
          have hbegin : (r.beginLinking p).Fit names constants :=
            h.of_steps (.single (.beganLinking hst hfresh))
              ((stable_confined _ _).beganLinking p r h.toConfined)
          rw [resolveId_of_fresh depth hst hfresh, Eval.bind_eq_tooDeep_iff,
            Eval.attempt_eq_tooDeep_iff] at hspent
          rcases hspent with hspent | ⟨result, s, -, hspent⟩
          · have hle := link_ends ih hbegin rfl hd hspent
            have hlength : (r.beginLinking p).resolving.length = r.resolving.length + 1 := rfl
            omega
          · cases result <;> cases hspent
    · rw [resolveId_of_unissued depth hp] at hspent
      cases hspent

/-- Every position stands for a class, and there are no more than names. -/
theorem resolveFrom_ends (h : r.Fit names constants) (depth depth' : Nat)
    (hspent : resolveFrom (resolveId depth) depth' 0 r = .tooDeep) :
    depth ≤ operationDepth names constants ∨ depth' ≤ names.length := by
  suffices ∀ position r, Fit names constants r → position ≤ r.size →
      resolveFrom (resolveId depth) depth' position r = .tooDeep →
      depth ≤ operationDepth names constants ∨ depth' + position ≤ names.length from
    this 0 r h (Nat.zero_le _) hspent
  clear hspent h
  induction depth' with
  | zero =>
    intro position r h hle _
    exact .inr ((Nat.zero_add position).symm ▸ Nat.le_trans hle h.size_le)
  | succ depth' ih =>
    intro position r h hle hspent
    unfold resolveFrom at hspent
    rw [Eval.bind_apply, Eval.get_apply] at hspent
    dsimp only at hspent
    split at hspent
    · rename_i hlt
      rcases Eval.bind_eq_tooDeep_iff.mp hspent with hspent | ⟨result, s, hs, hspent⟩
      · have hle := resolveId_ends depth _ r h (Eval.attempt_eq_tooDeep_iff.mp hspent)
        exact .inl (Nat.le_trans (Nat.le_add_right _ _) hle)
      have hnext := Eval.meets_attempt (R := fun _ t => Advances r t ∧ t.Fit names constants)
        (F := fun _ _ => True) (resolveId_fit depth (.ofIndex position) h) (fun _ _ h => h)
        (fun _ _ h => h) fun _ _ _ => trivial
      rw [hs] at hnext
      obtain ⟨hadv, hfit⟩ := hnext
      rcases Eval.bind_eq_tooDeep_iff.mp hspent with hspent | ⟨rest, t, -, hspent⟩
      · refine (ih (position + 1) s hfit (Nat.le_trans hlt hadv.grows.size_le) hspent).imp id ?_
        omega
      · cases result <;> cases hspent
    · cases hspent

/-! ## Static values -/

/-- Up the parents, every class has fewer ancestors. -/
theorem Founded.staticOwner_ends (h : r.Founded) (name : String) (depth : Nat) :
    ∀ id links, r.Resolved id links → staticOwner name depth id r = .tooDeep →
      depth ≤ links.ancestors.toFinset.card := by
  induction depth with
  | zero => exact fun _ _ _ _ => Nat.zero_le _
  | succ depth ih =>
    intro id links hl hspent
    obtain ⟨d, hd⟩ := issued_iff_decl?.mp (.of_standing? hl)
    unfold staticOwner at hspent
    rw [Eval.bind_apply, Eval.ask, links_eq_ok_iff.mpr hl] at hspent
    dsimp only at hspent
    rw [decl_bind hd] at hspent
    split at hspent
    · cases hspent
    · cases hparent : links.parent with
      | none =>
        rw [hparent] at hspent
        cases hspent
      | some p =>
        rw [hparent] at hspent
        have hp := h.refers_parent hl hparent
        obtain ⟨base, hbase⟩ := h.resolved_of_refers hl hp
        exact Nat.lt_of_le_of_lt (ih p base hbase hspent) (h.card_ancestors_lt hl hp hbase)

theorem staticOwner_ends (h : r.Fit names constants) (name : String) (depth : Nat) (id : ClassId)
    (hspent : staticOwner name depth id r = .tooDeep) : depth ≤ names.length := by
  have hfounded := h.reachable.founded
  cases depth with
  | zero => exact Nat.zero_le _
  | succ depth =>
    cases hl : r.links id with
    | error f =>
      unfold staticOwner at hspent
      rw [Eval.bind_apply, Eval.ask, hl] at hspent
      cases hspent
    | ok links =>
      have hresolved := links_eq_ok_iff.mp hl
      exact Nat.le_trans (hfounded.staticOwner_ends name _ id links hresolved hspent)
        (Nat.le_trans (hfounded.card_ancestors_le hresolved) h.size_le)

theorem statics_prompt (id : ClassId) : (statics id).Prompt := by
  refine Eval.Prompt.bind (.ask _) fun _ => Eval.Prompt.bind (.ask _) fun found => ?_
  cases found.statics with
  | some table => exact .pure table
  | none => exact Eval.Prompt.bind (.modify _) fun _ => .pure _

theorem statics_bind_prompt {α : Type} (id : ClassId) (f : StaticTable → StaticTable)
    (answer : StaticTable → α) :
    (do
      let table ← statics id
      .modify (setStatics id (f table))
      pure (answer table) : Eval Registry α).Prompt :=
  (statics_prompt id).bind fun _ => Eval.Prompt.bind (.modify _) fun _ => .pure _

/-! ## Operations -/

/-- What an operation that declares nothing can need. -/
theorem perform_ends (depth : Nat) {op : Operation} (hop : op.declaration? = none)
    (h : r.Fit names constants) (hspent : perform depth op r = .tooDeep) :
    depth ≤ operationDepth names constants := by
  have hvalue : valueDepth names constants ≤ operationDepth names constants := Nat.le_add_left _ _
  have hsearch : names.length ≤ operationDepth names constants := Nat.le_add_right _ _
  have hresolve : ∀ id s, Fit names constants s → resolveId depth id s = .tooDeep →
      depth ≤ operationDepth names constants := fun id s hs hdeep =>
    Nat.le_trans (Nat.le_add_right _ _) (resolveId_ends depth id s hs hdeep)
  cases op with
  | register d => cases hop
  | declare d => cases hop
  | resolveId id => exact hresolve id r h (Eval.Prompt.spent (fun _ => .pure _) hspent)
  | resolve name =>
    have hspent := Eval.Prompt.spent (fun _ => .pure _) hspent
    rcases Eval.bind_eq_tooDeep_iff.mp hspent with hspent | ⟨id, s, hs, hspent⟩
    · exact absurd hspent (lookup_prompt name r)
    · have hlookup :
          Finishes names constants (Registry.lookup name) r (fun q t => t.Issued q) True :=
        .lookup name h
      exact hresolve id s (hlookup.of_value hs).2.1 (Eval.Prompt.spent (fun _ => .pure _) hspent)
  | resolveAll =>
    have hends := resolveFrom_ends h depth depth (Eval.Prompt.spent (fun _ => .pure _) hspent)
    rcases hends with hle | hle
    · exact hle
    · exact Nat.le_trans hle hsearch
  | constant id name =>
    have hdeep := Eval.Prompt.spent (fun _ => .pure _) hspent
    exact Nat.le_trans (constant_ends depth id name h hdeep) hvalue
  | staticOwner id name =>
    have hdeep := Eval.Prompt.spent (fun _ => .pure _) hspent
    exact Nat.le_trans (staticOwner_ends h name depth id hdeep) hsearch
  | staticProperty id name =>
    have hdeep := Eval.Prompt.spent (fun _ => .pure _) hspent
    refine Nat.le_trans (staticOwner_ends h name depth id (Eval.Prompt.spent ?_ hdeep)) hsearch
    rintro (_ | owner)
    · exact .pure none
    · exact (statics_prompt owner).bind fun _ => .pure _
  | setStaticProperty id name value =>
    have hdeep := Eval.Prompt.spent (fun _ => .pure _) hspent
    refine Nat.le_trans (staticOwner_ends h name depth id (Eval.Prompt.spent ?_ hdeep)) hsearch
    rintro (_ | owner)
    · exact .pure none
    · exact statics_bind_prompt owner (·.replace name value) (·.get? name)
  | statics id => exact absurd hspent ((statics_prompt id).bind (fun _ => .pure _) r)
  | setStatic id name value =>
    exact absurd hspent ((statics_bind_prompt id (·.put name value) (·.get? name)).bind
      (fun _ => .pure _) r)
  | replaceStatics id table =>
    exact absurd hspent ((statics_bind_prompt id (fun _ => table) fun before => before).bind
      (fun _ => .pure _) r)
  | lookup name => exact absurd hspent ((lookup_prompt name).bind (fun _ => .pure _) r)
  | setAutoloader | clearAutoloader =>
    exact absurd hspent ((Eval.Prompt.modify _).bind (fun _ => .pure _) r)
  | find | contains | decl | classes | size | config | text =>
    exact absurd hspent (Eval.Prompt.get.bind (fun _ => .pure _) r)
  | isResolved | resolutionError | links | isInstanceOf | findMethod | constructor | sameMethod =>
    exact absurd hspent ((Eval.Prompt.ask _).bind (fun _ => .pure _) r)

/-- Such an operation registers no other classes. -/
theorem perform_fit (depth : Nat) {op : Operation} (hop : op.declaration? = none)
    (hhook : op.hook? = none) (h : r.Fit names constants) :
    (perform depth op r).Meets (fun _ s => s.Fit names constants)
      (fun _ s => s.Fit names constants) True := by
  have hbrings : Brings (Confined names constants) op := by
    refine ⟨fun d hd => ?_, fun loader? hl => ?_, fun _ id table s hs => ?_⟩
    · rw [hop] at hd
      cases hd
    · rw [hhook] at hl
      cases hl
    · exact ⟨hs.supplied.of_eq rfl fun c => decl?_setStatics id c table s, hs.bound⟩
  have hkeep := (stable_confined names constants).perform hbrings depth r h.toConfined
  have hboth := Outcome.Meets.and (perform_advances depth op h.reachable.indexed) hkeep
  refine hboth.imp ?_ ?_ And.left
  · exact fun _ s hs => h.of_steps hs.1.steps hs.2
  · exact fun _ s hs => h.of_steps hs.1.steps hs.2.1

/-! ## Termination -/

/-- Every operation that declares nothing ends.  Without another declaration or
another hook there are never more than `classes` classes, and `values` is how many
values of theirs may be computed for one another. -/
structure Terminates (r : Registry) (classes values : Nat) : Prop where
  /-- One bound on nesting suffices, and no other bound leads to another end. -/
  ends : ∀ op, op.declaration? = none → ∃ o, o ≠ .tooDeep ∧ ∀ depth,
    (2 * classes + values + 1 < depth → perform depth op r = o) ∧
      (perform depth op r = .tooDeep ∨ perform depth op r = o)
  size : ∀ op, op.declaration? = none → op.hook? = none → ∀ depth s,
    (perform depth op r).state? = some s → s.size ≤ classes
  /-- An operation that would end at once if a class were being linked twice or a value
  were in progress twice on the way ends like the operation. -/
  nested : ∀ depth op, performGuarded Unrepeated depth op r = perform depth op r

theorem Terminates.of_fit (h : r.Fit names constants) :
    r.Terminates names.length (names.length * constants.length) where
  ends op hop := by
    have hdepth : operationDepth names constants =
        2 * names.length + names.length * constants.length + 1 := by
      unfold operationDepth valueDepth
      omega
    have hends : ∀ depth, operationDepth names constants < depth → perform depth op r ≠ .tooDeep :=
      fun depth hlt hspent => Nat.not_lt.mpr (perform_ends depth hop h hspent) hlt
    have hfirst := hends _ (Nat.lt_succ_self _)
    refine ⟨_, hfirst, fun depth => ⟨fun hlt => ?_, perform_eq_or_eq depth hfirst⟩⟩
    exact (perform_eq_or_eq depth hfirst).resolve_left (hends depth (hdepth ▸ hlt))
  size op hop hhook depth s hs :=
    (Outcome.Meets.of_state? (perform_fit depth hop hhook h) hs).size_le
  nested depth op := performGuarded_eq (fun _ hs => hs.unrepeated) depth op h.reachable

/-- The constant is mentioned by a source that is there or by one of a list. -/
def Involves (r : Registry) (listed : List Combination) (name : String) : Prop :=
  ∃ k, name ∈ k.constants ∧ (k ∈ listed ∨ ∃ site, r.lazy? site = some (.pending k.source))

/-- Whatever refers to whatever, and whichever constants need one another: in every
state that a registry gets into, every operation that declares nothing ends, as
long as the hook has finitely many names and sources to supply. -/
theorem Reachable.terminates {names : List String} {listed : List Combination}
    (h : r.Reachable)
    (hsources : ∀ site source, r.lazy? site = some (.pending source) →
      ∃ k : Combination, source = k.source)
    (hhook : ∀ loader, r.autoloader = some loader →
      loader.Supplies (ClassDecl.MadeFrom names listed)) :
    ∃ constants : List String, constants.Nodup ∧ (∀ name ∈ constants, r.Involves listed name) ∧
      r.Terminates (r.size + names.length) ((r.size + names.length) * constants.length) := by
  obtain ⟨present, hall, hback⟩ := exists_combinations hsources
  let constants := ((present ++ listed).flatMap Combination.constants).dedup
  have hfetches : ∀ k ∈ present ++ listed, k.source.toProgram.FetchesOnly constants := by
    intro k hk
    refine k.fetchesOnly.mono fun name hname => ?_
    exact List.mem_dedup.mpr (List.mem_flatMap.mpr ⟨k, hk, hname⟩)
  have hlisted := h.listed
  have hfit : r.Fit (r.index.names ++ names) constants := by
    refine ⟨⟨⟨fun loader hl asked name d hd => ?_, fun c d hd => ⟨d, ⟨?_, ?_⟩, .refl d⟩⟩, ?_⟩, h⟩
    · obtain ⟨hname, hs⟩ := hhook loader hl asked name d hd
      refine ⟨List.mem_append_right _ hname, fun m source hm => ?_⟩
      obtain ⟨k, hk, rfl⟩ := hs m source hm
      exact hfetches k (List.mem_append_right _ hk)
    · exact List.mem_append_left _ (hlisted.key_mem hd)
    · intro m source hm
      obtain ⟨k, hk, rfl⟩ := hall ⟨c, m⟩ source (by rw [lazy?, hd]; exact hm)
      exact hfetches k (List.mem_append_left _ hk)
    · exact fun key hkey => List.mem_append_left _ hkey
  have hterminates := Terminates.of_fit hfit
  rw [List.length_append, hlisted.length_names] at hterminates
  refine ⟨constants, List.nodup_dedup _, fun name hname => ?_, hterminates⟩
  obtain ⟨k, hk, hmem⟩ := List.mem_flatMap.mp (List.mem_dedup.mp hname)
  rcases List.mem_append.mp hk with hk | hk
  · exact ⟨k, hmem, .inr (hback k hk)⟩
  · exact ⟨k, hmem, .inl hk⟩

/-- A class whose parent is its own child, with a constant that needs itself, and a
hook that supplies a class whose constant leads back, with something to fall back
on. -/
theorem Reachable.terminates_in_circles :
    let decls : List ClassDecl :=
      [.addConstant { name := "X", value := .pending (.expr (.constant .self "X")) }
          { name := ⟨"A"⟩, parent := some ⟨"B"⟩ },
        .addConstant { name := "Y", value := .pending (.expr (.constant (.named ⟨"H"⟩) "Z")) }
          { name := ⟨"B"⟩, parent := some ⟨"A"⟩ }]
    let back : Combination :=
      .orElse (.noted "back" (.expr (.constant (.named ⟨"B"⟩) "Y"))) (.expr (.literal (.int 1)))
    let loader : Autoloader :=
      { reply := fun _ name =>
          if name.key = "h" then
            some (.addConstant { name := "Z", value := .pending back.source } { name := ⟨"H"⟩ })
          else none }
    let ops : List Operation := decls.map .register ++ [.setAutoloader loader]
    ∃ (r : Registry) (constants : List String), Run (new {}) ops r ∧ r.autoloader = some loader ∧
      constants.Nodup ∧ (∀ name ∈ constants, r.Involves [back] name) ∧
      r.Terminates 3 (3 * constants.length) := by
  intro decls back loader ops
  have hrun : (performAll 1 ops (new {})).map (fun r => (r.autoloader, r.size)) =
      some (some loader, 2) := rfl
  obtain ⟨r, hr, hresults⟩ := Option.map_eq_some_iff.mp hrun
  rw [Prod.mk.injEq] at hresults
  obtain ⟨hhook, hsize⟩ := hresults
  have hrun : Run (new {}) ops r := .of_performAll hr
  have hplain : ∀ d ∈ decls, d.Plain := by decide
  have hloader : loader.Supplies (ClassDecl.MadeFrom ["h"] [back]) := by
    intro asked name d hd
    replace hd : (if name.key = "h" then
      some (ClassDecl.addConstant { name := "Z", value := .pending back.source } { name := ⟨"H"⟩ })
      else none) = some d := hd
    split at hd
    · cases hd
      refine ⟨by decide, fun m source hm => ⟨back, List.mem_singleton_self _, ?_⟩⟩
      rw [ClassDecl.lazy?_addConstant] at hm
      split at hm
      · cases hm
        rfl
      · cases m <;> cases hm
    · cases hd
  have hops : ∀ op ∈ ops, op.Supplies fun d =>
      ∀ m source, d.lazy? m = some (.pending source) → ∃ k : Combination, source = k.source := by
    intro op hop
    rcases List.mem_append.mp hop with hop | hop
    · obtain ⟨d, hd, rfl⟩ := List.mem_map.mp hop
      refine ⟨fun d' hd' m source hm => ?_, fun loader hl => by cases hl⟩
      cases hd'
      obtain ⟨e, rfl⟩ := hplain d hd m source hm
      exact ⟨.expr e, rfl⟩
    · rw [List.mem_singleton.mp hop]
      refine ⟨fun d hd => (by cases hd), fun loader' hl asked name d hd m source hm => ?_⟩
      cases hl
      obtain ⟨k, -, hk⟩ := (hloader asked name d hd).sources m source hm
      exact ⟨k, hk⟩
  have hsources : ∀ site source, r.lazy? site = some (.pending source) →
      ∃ k : Combination, source = k.source := by
    intro site source hp
    obtain ⟨d', hd', hm⟩ := Option.bind_eq_some_iff.mp hp
    obtain ⟨d, hd, hset⟩ := (hrun.supplied hops).declared _ d' hd'
    exact hd _ source (hset.lazy?_pending hm)
  obtain ⟨constants, hnodup, hinvolved, hends⟩ := Reachable.terminates hrun.reachable hsources
    fun loader' hl => by
      rw [hhook] at hl
      cases hl
      exact hloader
  rw [hsize] at hends
  exact ⟨r, constants, hrun, hhook, hnodup, hinvolved, hends⟩

end Registry
end Lineage
