/-
What cannot happen.

A registry reads classes by their numbers and values by their sites, and takes both to be
there.  The numbers that it holds itself are those of classes, and only resolved classes
have storages of static values (`Coherent`), also in the middle of an operation, so no
operation stops at a number unless the caller has made it up.  This is said of the guarded
operations, which look up everything that they name or change and stop where a site is
missing.

Linking asks for the links of a class that it has just resolved, and they are there:
resolution ends with a value only if the class is resolved, wherever it was on the way.
So where sources are expressions, neither the error of a class that was not resolved nor
that of a taken name comes out of resolution or of a read.  The theorem of this file is
`Reachable.safe`.
-/
import Lineage.Proofs.Dispatch
import Lineage.Proofs.Guard
import Lineage.Proofs.StaticCell
import Lineage.Proofs.StoredError

namespace Lineage

/-- The class numbers that an operation is given. -/
def Operation.ids : Operation → List ClassId
  | .resolveId id => [id]
  | .isResolved id => [id]
  | .resolutionError id => [id]
  | .links id => [id]
  | .decl id => [id]
  | .isInstanceOf id candidate => [id, candidate]
  | .findMethod id _ => [id]
  | .constructor id => [id]
  | .sameMethod first _ second _ => [first, second]
  | .constant id _ => [id]
  | .statics id => [id]
  | .setStatic id _ _ => [id]
  | .replaceStatics id _ => [id]
  | .staticOwner id _ => [id]
  | .staticProperty id _ => [id]
  | .setStaticProperty id _ _ => [id]
  | _ => []

/-- The errors that cannot come out of resolution. -/
theorem Error.ne_of_isOfResolution {e : Error} (h : e.isOfResolution = true) (n : String) :
    e ≠ .notResolved n ∧ e ≠ .duplicateClass n := by
  constructor <;> rintro rfl <;> cases h

namespace Registry

variable {α β : Type} {r s : Registry} {c id : ClassId} {site : LazySite} {l : Links}
  {table : StaticTable}

/-! ## What a registry holds -/

/-- Only resolved classes have a storage. -/
def Seated (r : Registry) : Prop :=
  ∀ c table, r.table? c = some table → ∃ links, r.Resolved c links

/-- Every number that the registry holds is that of a class, the values in progress are
values of classes, and the classes with a storage are resolved.  The report of a cycle
names the classes on the stack, and a value is stored at a site in progress, without
asking whether they are there. -/
structure Coherent (r : Registry) : Prop where
  bound : ∀ key c, r.index.get? key = some c → r.Issued c
  resolving : ∀ c ∈ r.resolving, r.Issued c
  evaluating : ∀ site ∈ r.evaluating, r.HasSite site
  parent : ∀ c links p, r.Resolved c links → links.parent = some p → r.Issued p
  interfaces : ∀ c links, r.Resolved c links → ∀ p ∈ links.interfaces, r.Issued p
  ancestors : ∀ c links, r.Resolved c links → ∀ p ∈ links.ancestors, r.Issued p
  seated : r.Seated

theorem Coherent.indexed (h : r.Coherent) : r.Indexed := fun name c hn => h.bound name.key c hn

theorem Resolved.issued (h : r.Resolved c l) : r.Issued c := .of_standing? h

/-- A key in use is the key of a name, so it is bound like one. -/
theorem Reachable.issued_of_key (hr : r.Reachable) {key : String}
    (h : r.index.get? key = some c) : r.Issued c := by
  have hused : key ∈ r.index.names := Catalog.get?_isSome_iff.mp (by rw [h]; rfl)
  rw [hr.listed] at hused
  obtain ⟨found, -, rfl⟩ := List.mem_map.mp hused
  exact hr.indexed found.decl.name c h

theorem Seated.of_extends (h : r.Seated) (hs : r.Extends s) (htable : s.table? = r.table?) :
    s.Seated := by
  intro c table hc
  rw [htable] at hc
  obtain ⟨links, hl⟩ := h c table hc
  exact ⟨links, hs.resolved hl⟩

theorem Seated.setStatics (h : r.Seated) (hc : r.Resolved c l) :
    (r.setStatics c table).Seated := by
  intro other table' hother
  rw [table?_setStatics hc.issued] at hother
  simp only [Resolved, standing?_setStatics]
  by_cases heq : other = c
  · exact ⟨l, heq ▸ hc⟩
  · rw [if_neg heq] at hother
    exact h other table' hother

/-- A storage is created for a resolved class, and classes stay resolved. -/
theorem Change.seated (h : Change r s) (hr : r.Seated) : s.Seated := by
  have hext := h.grows
  have hkept : ∀ {id found table}, r.registration? id = some found → found.statics = some table →
      ∃ links, r.Resolved id links := fun {id found table} hf ht =>
    hr id table (by rw [table?, hf, Option.bind_some, ht])
  cases h with
  | compute h => exact hr.of_extends hext h.table?
  | hooked loader => exact hr.of_extends hext rfl
  | beganLinking unresolved fresh => exact hr.of_extends hext rfl
  | linked innermost unresolved assembled => exact hr.of_extends hext (table?_endLinking _ _ r)
  | refused innermost unresolved cause => exact hr.of_extends hext (table?_endLinking _ _ r)
  | seeded resolved registered untouched => exact hr.setStatics resolved
  | assigned registered touched table' =>
    obtain ⟨links, hl⟩ := hkept registered touched
    exact hr.setStatics hl

theorem Reachable.seated (hr : r.Reachable) : r.Seated := by
  obtain ⟨config, hsteps⟩ := hr
  induction hsteps with
  | refl => exact fun c table hc => by cases hc
  | tail _ hstep ih => exact hstep.seated ih

theorem Reachable.coherent (hr : r.Reachable) : r.Coherent where
  bound _ _ h := hr.issued_of_key h
  resolving := hr.nested.linked
  evaluating site hsite := by
    obtain ⟨l, hl⟩ := hr.nested.valued site hsite
    exact .of_lazy? hl
  parent c links p hc hp := by
    obtain ⟨base, hbase⟩ := hr.founded.resolved_of_refers hc (hr.founded.refers_parent hc hp)
    exact hbase.issued
  interfaces c links hc p hp := by
    obtain ⟨d, hd⟩ := issued_iff_decl?.mp hc.issued
    have hbound := (Hierarchy.of_founded hr.founded).interfaces (links_eq_ok_iff.mpr hc) hd
    have hmem : some p ∈ d.interfaces.map r.idOf? := hbound ▸ List.mem_map_of_mem hp
    obtain ⟨name, -, hname⟩ := List.mem_map.mp hmem
    exact hr.indexed name p hname
  ancestors c links hc p hp := by
    obtain ⟨⟨base, hbase⟩, -⟩ :=
      hr.founded.mem_ancestors_of_reaches (hr.founded.reached c links hc p hp) hc
    exact hbase.issued
  seated := hr.seated

/-! ## Numbers that were issued -/

/-- There is an answer, or an error says why there is none. -/
def Answered (answer : Except Fault α) : Prop :=
  ∀ f, answer = .error f → ∃ e, f = .raised e

namespace Answered

variable {answer : Except Fault α}

theorem pure (a : α) : Answered (pure a) := fun _ h => by cases h

theorem map (h : Answered answer) (f : α → β) : Answered (answer.map f) := by
  cases answer with
  | ok a => exact .pure (f a)
  | error fault =>
    obtain ⟨e, rfl⟩ := h fault rfl
    intro _ hf
    cases hf
    exact ⟨e, rfl⟩

theorem bind {f : α → Except Fault β} (h : Answered answer) (hf : ∀ a, Answered (f a)) :
    Answered (answer >>= f) := by
  cases answer with
  | ok a => exact hf a
  | error fault =>
    obtain ⟨e, rfl⟩ := h fault rfl
    intro _ h
    cases h
    exact ⟨e, rfl⟩

theorem registration (hc : r.Issued c) : Answered (r.registration c) := by
  obtain ⟨found, hf⟩ := issued_iff.mp hc
  rw [registration_eq_ok_iff.mpr hf]
  exact .pure found

/-- A class has links, or it has failed or was never resolved. -/
theorem links (hc : r.Issued c) : Answered (r.links c) := by
  obtain ⟨found, hf⟩ := issued_iff.mp hc
  rw [Registry.links, registration_eq_ok_iff.mpr hf]
  dsimp only
  split
  · exact .pure _
  · intro _ h
    cases h
    exact ⟨_, rfl⟩

theorem sameMethod {other : ClassId} (hc : r.Issued c) (hother : r.Issued other) (m n : String) :
    Answered (r.sameMethod c m other n) :=
  (registration hc).bind fun _ => (registration hother).bind fun _ =>
    ((links hc).map _).bind fun _ => ((links hother).map _).bind fun _ => .pure _

end Answered

/-- The computation does not stop at a number. -/
def Orderly (x : Eval Registry α) (r : Registry) (Q : α → Registry → Prop) : Prop :=
  (x r).Meets Q (fun f _ => ∃ e, f = .raised e) True

namespace Orderly

variable {x : Eval Registry α} {Q Q' : α → Registry → Prop}

theorem pure {a : α} (h : Q a r) : Orderly (pure a) r Q := h

theorem get : Orderly Eval.get r fun a s => r = a ∧ r = s := ⟨rfl, rfl⟩

theorem bind {f : α → Eval Registry β} {R : β → Registry → Prop} (hx : Orderly x r Q)
    (hf : ∀ a s, Q a s → Orderly (f a) s R) : Orderly (x >>= f) r R :=
  Eval.meets_bind hx hf

theorem imp (h : Orderly x r Q) (hq : ∀ a s, Q a s → Q' a s) : Orderly x r Q' :=
  Outcome.Meets.imp h hq (fun _ _ h => h) id

theorem ask {question : Registry → Except Fault α} (h : Answered (question r)) :
    Orderly (.ask question) r fun a s => r = s ∧ question r = .ok a :=
  Eval.meets_ask (fun _ ha => ⟨rfl, ha⟩) h

/-- An operation that gives what a computation gives. -/
theorem answer {f : α → Answer} (hx : Orderly x r Q) :
    Orderly (do return f (← x)) r fun _ _ => True :=
  hx.bind fun _ _ _ => .pure trivial

theorem of_computing (hr : r.Indexed) (h : Computing x r Q) :
    Orderly x r fun a s => s.Indexed ∧ Q a s :=
  Outcome.Meets.imp h (fun _ _ ⟨hs, hq⟩ => ⟨hs.indexed hr, hq⟩) (fun _ _ h => h.2) id

theorem ne_unissued (h : Orderly x r Q) (c : ClassId) (s : Registry) :
    x r ≠ .failure (.unissued c) s := by
  intro hrun
  rw [Orderly, hrun] at h
  obtain ⟨e, he⟩ := h
  cases he

end Orderly

theorem orderly_lookup (hr : r.Indexed) (name : QualifiedName) :
    Orderly (lookup name) r fun c s => s.Indexed ∧ s.Issued c :=
  .of_computing hr (lookup_computing name hr)

theorem orderly_resolveId (hr : r.Indexed) (hc : r.Issued c) (depth : Nat) :
    Orderly (resolveId depth c) r fun _ s => s.Indexed := by
  refine (resolveId_advances depth c r hr hc).imp ?_ ?_ id
  · exact fun _ s ⟨hs, _⟩ => hs.indexed hr
  · exact fun f s ⟨_, e, hf, _⟩ => ⟨e, hf⟩

theorem orderly_register (hr : r.Indexed) (d : ClassDecl) :
    Orderly (register d) r fun c s => s.Indexed ∧ s.Issued c := by
  unfold Orderly register
  split
  · exact ⟨_, rfl⟩
  · rename_i hfree
    refine ⟨Load.indexed (.registered (by simpa using hfree)) hr, issued_ofIndex ?_⟩
    rw [size_append]
    exact Nat.lt_succ_self r.size

/-- The pass comes to numbers of classes only. -/
theorem orderly_resolveFrom (depth n : Nat) :
    ∀ position r, Indexed r →
      Orderly (resolveFrom (resolveId depth) n position) r fun _ _ => True := by
  induction n with
  | zero => exact fun _ _ _ => trivial
  | succ n ih =>
    intro position r hr
    refine Orderly.get.bind ?_
    rintro _ _ ⟨rfl, rfl⟩
    split
    · rename_i hposition
      have hattempt : Orderly (resolveId depth (.ofIndex position)).attempt r
          fun _ s => s.Indexed :=
        Eval.meets_attempt (resolveId_advances depth _ r hr (issued_ofIndex hposition))
          (fun _ _ h => h.1.indexed hr) (fun _ _ h => h.1.indexed hr)
          fun _ _ ⟨_, e, he, _⟩ => ⟨e, he⟩
      refine hattempt.bind fun result s hs => ?_
      refine (ih (position + 1) s hs).bind fun rest t _ => ?_
      cases result <;> exact .pure trivial
    · exact .pure trivial

theorem orderly_constant (hr : r.Indexed) (hc : r.Issued c) (depth : Nat) (name : String) :
    Orderly (constant depth c name) r fun _ _ => True := by
  obtain ⟨st, hst⟩ := hc.standing?
  by_cases hfailed : ∃ e, st = .failed e
  · obtain ⟨e, rfl⟩ := hfailed
    unfold Orderly
    rw [constant_of_failed depth name hst]
    exact ⟨e, rfl⟩
  · unfold Orderly
    rw [constant_eq_fetch depth name hst fun e he => hfailed ⟨e, he⟩]
    exact (Orderly.of_computing hr
      (fetchWith_computing (force_computes depth) .self name r hr hc)).imp fun _ _ _ => trivial

/-! ## Static values -/

theorem orderly_statics (hc : r.Issued c) : Orderly (statics c) r fun _ _ => True := by
  refine (Orderly.ask (.links hc)).bind ?_
  rintro links _ ⟨rfl, -⟩
  refine (Orderly.ask (.registration hc)).bind ?_
  rintro found _ ⟨rfl, -⟩
  cases found.statics with
  | some table => exact .pure trivial
  | none => exact Orderly.pure trivial

theorem orderly_statics_bind (hc : r.Issued c) (f : StaticTable → StaticTable)
    (answer : StaticTable → α) :
    Orderly (do
      let table ← statics c
      .modify (setStatics c (f table))
      pure (answer table) : Eval Registry α) r fun _ _ => True :=
  (orderly_statics hc).bind fun table _ _ => Orderly.pure (a := answer table) trivial

/-- The search for the owner goes up the parents, which were issued. -/
theorem orderly_staticOwner (hr : r.Coherent) (name : String) (depth : Nat) :
    ∀ c, r.Issued c → Orderly (staticOwner name depth c) r
      fun owner s => r = s ∧ ∀ o ∈ owner, r.Issued o := by
  induction depth with
  | zero => exact fun _ _ => trivial
  | succ depth ih =>
    intro c hc
    refine (Orderly.ask (.links hc)).bind ?_
    rintro links _ ⟨rfl, hl⟩
    refine (Orderly.ask ((Answered.registration hc).map _)).bind ?_
    rintro d _ ⟨rfl, -⟩
    split
    · refine .pure ⟨rfl, fun o ho => ?_⟩
      cases ho
      exact hc
    · cases hp : links.parent with
      | some parent => exact ih parent (hr.parent c links parent (links_eq_ok_iff.mp hl) hp)
      | none => exact .pure ⟨rfl, nofun⟩

theorem orderly_staticProperty (hr : r.Coherent) (hc : r.Issued c) (depth : Nat) (name : String) :
    Orderly (staticProperty depth c name) r fun _ _ => True := by
  refine (orderly_staticOwner hr name depth c hc).bind ?_
  rintro owner s ⟨rfl, howner⟩
  cases owner with
  | none => exact .pure trivial
  | some o => exact (orderly_statics (howner o rfl)).bind fun _ _ _ => .pure trivial

theorem orderly_setStaticProperty (hr : r.Coherent) (hc : r.Issued c) (depth : Nat) (name : String)
    (value : Value) : Orderly (setStaticProperty depth c name value) r fun _ _ => True := by
  refine (orderly_staticOwner hr name depth c hc).bind ?_
  rintro owner s ⟨rfl, howner⟩
  cases owner with
  | none => exact .pure trivial
  | some o => exact orderly_statics_bind (howner o rfl) (·.replace name value) (·.get? name)

/-! ## Operations -/

/-- Given numbers that were issued, no operation stops at one. -/
theorem orderly_perform (h : r.Coherent) (depth : Nat) (op : Operation)
    (hids : ∀ c ∈ op.ids, r.Issued c) : Orderly (perform depth op) r fun _ _ => True := by
  have hr := h.indexed
  cases op with
  | register d => exact (orderly_register hr d).answer
  | declare d =>
    refine Orderly.answer (Q := fun _ _ => True) ?_
    exact (orderly_register hr d).bind fun c s ⟨hs, hc⟩ =>
      (orderly_resolveId hs hc depth).bind fun _ _ _ => .pure trivial
  | setAutoloader loader => exact Orderly.pure trivial
  | clearAutoloader => exact Orderly.pure trivial
  | find name => exact Orderly.get.answer
  | contains name => exact Orderly.get.answer
  | lookup name => exact (orderly_lookup hr name).answer
  | resolve name =>
    refine Orderly.answer (Q := fun _ _ => True) ?_
    exact (orderly_lookup hr name).bind fun c s ⟨hs, hc⟩ =>
      (orderly_resolveId hs hc depth).bind fun _ _ _ => .pure trivial
  | resolveId id =>
    exact (orderly_resolveId hr (hids id List.mem_cons_self) depth).bind fun _ _ _ => .pure trivial
  | resolveAll => exact (orderly_resolveFrom depth depth 0 r hr).answer
  | isResolved id =>
    exact (Orderly.ask ((Answered.registration (hids id List.mem_cons_self)).map _)).answer
  | resolutionError id =>
    exact (Orderly.ask ((Answered.registration (hids id List.mem_cons_self)).map _)).answer
  | links id => exact (Orderly.ask (.links (hids id List.mem_cons_self))).answer
  | decl id => exact Orderly.get.answer
  | classes => exact Orderly.get.answer
  | size => exact Orderly.get.answer
  | config => exact Orderly.get.answer
  | text => exact Orderly.get.answer
  | isInstanceOf id candidate =>
    exact (Orderly.ask ((Answered.links (hids id List.mem_cons_self)).map _)).answer
  | findMethod id name =>
    exact (Orderly.ask ((Answered.links (hids id List.mem_cons_self)).map _)).answer
  | constructor id =>
    exact (Orderly.ask ((Answered.links (hids id List.mem_cons_self)).map _)).answer
  | sameMethod a m b n =>
    exact (Orderly.ask (.sameMethod (hids a List.mem_cons_self)
      (hids b (List.mem_cons_of_mem a List.mem_cons_self)) m n)).answer
  | constant id name =>
    exact (orderly_constant hr (hids id List.mem_cons_self) depth name).answer
  | statics id => exact (orderly_statics (hids id List.mem_cons_self)).answer
  | setStatic id name value =>
    exact (orderly_statics_bind (hids id List.mem_cons_self) (·.put name value)
      (·.get? name)).answer
  | replaceStatics id table =>
    exact (orderly_statics_bind (hids id List.mem_cons_self) (fun _ => table)
      fun before => before).answer
  | staticOwner id name =>
    exact (orderly_staticOwner h name depth id (hids id List.mem_cons_self)).answer
  | staticProperty id name =>
    exact (orderly_staticProperty h (hids id List.mem_cons_self) depth name).answer
  | setStaticProperty id name value =>
    exact (orderly_setStaticProperty h (hids id List.mem_cons_self) depth name value).answer

open Classical in
/-- Nothing is out of range and no impossible error comes out.  The registry holds numbers
of classes only, and storages of resolved classes only; operations that are given numbers
that were issued never stop at a number, also if every class is looked up before it is
named or changed, every value has to be declared by its class before it is asked for or
stored, and the registry is gone over again at each step; and a class whose resolution
ends with a value has links to be read.  Where sources are expressions, no error says that
a class was not resolved or that a name is taken. -/
theorem Reachable.safe (hr : r.Reachable) :
    r.Coherent ∧
      (∀ depth op, performGuarded Coherent depth op r = perform depth op r) ∧
      (∀ depth op, (∀ c ∈ op.ids, r.Issued c) →
        ∀ c s, performGuarded Coherent depth op r ≠ .failure (.unissued c) s) ∧
      (∀ depth c s, resolveId depth c r = .value () s → ∃ links, s.links c = .ok links) ∧
      ∀ config ops, Run (new config) ops r → (∀ op ∈ ops, op.Supplies ClassDecl.Plain) →
        ∀ depth c name e s, resolveId depth c r = .failure (.raised e) s ∨
          constant depth c name r = .failure (.raised e) s →
          ∀ n, e ≠ .notResolved n ∧ e ≠ .duplicateClass n := by
  have hguarded : ∀ depth op, performGuarded Coherent depth op r = perform depth op r :=
    fun depth op => performGuarded_eq (fun _ hs => hs.coherent) depth op hr
  refine ⟨hr.coherent, hguarded, fun depth op hids => ?_, fun depth c s hrun => ?_, ?_⟩
  · rw [hguarded]
    exact (orderly_perform hr.coherent depth op hids).ne_unissued
  · have hresolved := resolveId_advances depth c r hr.indexed (.of_resolveId hrun)
    rw [hrun] at hresolved
    obtain ⟨-, links, hl⟩ := hresolved
    exact ⟨links, links_eq_ok_iff.mpr hl⟩
  · intro config ops hrun hops depth c name e s hfailed
    have hproper := hrun.proper hops
    refine Error.ne_of_isOfResolution ?_
    rcases hfailed with hfailed | hfailed
    · have hends := resolveId_proper depth c r hproper
      rw [hfailed] at hends
      exact hends.2 e rfl
    · have hends := hproper.steady.constant depth c name r hproper.supplied.since
      rw [hfailed] at hends
      exact hends.2 e rfl

open Classical in
/-- Two classes have failed, as each is the parent of the other, and a third one has been
asked for its static values. -/
theorem Reachable.safe_beside_cycle :
    let decls : List ClassDecl :=
      [{ name := ⟨"A"⟩, parent := some ⟨"B"⟩ }, { name := ⟨"B"⟩, parent := some ⟨"A"⟩ },
        .addConstant { name := "X", value := .pending (.expr (.literal (.int 1))) }
          { name := ⟨"C"⟩ }]
    let ops : List Operation := decls.map .register ++ [.resolveAll, .statics ⟨2⟩]
    ∃ r table s, Run (new {}) ops r ∧ (∀ op ∈ ops, op.Supplies ClassDecl.Plain) ∧
      r.table? ⟨2⟩ = some table ∧ (∃ links, r.Resolved ⟨2⟩ links) ∧
      performGuarded Coherent 5 (.isInstanceOf ⟨2⟩ ⟨0⟩) r = perform 5 (.isInstanceOf ⟨2⟩ ⟨0⟩) r ∧
      (∀ c t, performGuarded Coherent 5 (.isInstanceOf ⟨2⟩ ⟨0⟩) r ≠ .failure (.unissued c) t) ∧
      resolveId 5 ⟨1⟩ r = .failure (.raised (.inheritanceCycle "A" ["A", "B", "A"])) s ∧
      ∀ n, Error.inheritanceCycle "A" ["A", "B", "A"] ≠ .notResolved n ∧
        Error.inheritanceCycle "A" ["A", "B", "A"] ≠ .duplicateClass n := by
  intro decls ops
  have hresults : (performAll 5 ops (new {})).map (fun r =>
      ((r.table? ⟨2⟩).isSome, r.size, (resolveId 5 ⟨1⟩ r).answer?)) =
      some (true, 3, some (.error (.raised (.inheritanceCycle "A" ["A", "B", "A"])))) := by
    dsimp only [ops, decls]
    rfl
  obtain ⟨r, hr, hresults⟩ := Option.map_eq_some_iff.mp hresults
  simp only [Prod.mk.injEq] at hresults
  obtain ⟨htable, hsize, hanswer⟩ := hresults
  obtain ⟨table, htable⟩ := Option.isSome_iff_exists.mp htable
  obtain ⟨s, hs⟩ := Outcome.answer?_eq_error_iff.mp hanswer
  have hrun : Run (new {}) ops r := .of_performAll hr
  have hissued : ∀ c : ClassId, c.index < 3 → r.Issued c := fun c hc => by rwa [Issued, hsize]
  have hplain : ∀ d ∈ decls, d.Plain := by decide
  have hops : ∀ op ∈ ops, op.Supplies ClassDecl.Plain := by
    intro op hop
    rcases List.mem_append.mp hop with hop | hop
    · obtain ⟨d, hd, rfl⟩ := List.mem_map.mp hop
      exact ⟨fun d' hd' => by cases hd'; exact hplain d hd, fun loader hl => by cases hl⟩
    · rcases List.mem_pair.mp hop with rfl | rfl <;>
        exact ⟨fun d hd => (by cases hd), fun loader hl => by cases hl⟩
  obtain ⟨hcoherent, hguarded, hnumbers, -, herrors⟩ := Reachable.safe hrun.reachable
  refine ⟨r, table, s, hrun, hops, htable, hcoherent.seated ⟨2⟩ table htable,
    hguarded 5 (.isInstanceOf ⟨2⟩ ⟨0⟩), ?_, hs, ?_⟩
  · refine hnumbers 5 (.isInstanceOf ⟨2⟩ ⟨0⟩) fun c hc => hissued c ?_
    rcases List.mem_pair.mp hc with rfl | rfl <;> decide
  · exact herrors _ ops hrun hops 5 ⟨1⟩ "X" _ s (.inl hs)

end Registry
end Lineage
