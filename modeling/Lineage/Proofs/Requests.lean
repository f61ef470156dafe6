/-
What the hook is asked for.

A class is registered by an operation, or on an occasion to ask the hook: a name that is
not bound is looked up.  `Log` is the list of these occasions between two registries, with
the registry before and after each; in between, names and requests stay as they are.  On
each occasion at most one class is registered, under the next number, and no binding is
changed, so a name that has become bound is not asked for again (`Discipline`).

Where all sources are expressions, a name that stays unbound ends the resolution of a class
or the reading of a constant at once, so each of them asks for a name only once
(`Frugal`).  The theorem of this file is `Run.autoload_discipline`.
-/
import Lineage.Proofs.PassOn
import Lineage.Proofs.Supply

namespace Lineage

/-- The name that the hook was asked for. -/
def Event.request? : Event → Option QualifiedName
  | .requested name => some name
  | _ => none

/-- The operation resolves one class or reads one constant. -/
def Operation.isSingle : Operation → Bool
  | .resolveId _ => true
  | .constant _ _ => true
  | _ => false

namespace Registry

variable {r s t : Registry} {name : QualifiedName} {ops : List Operation}

/-- The names that the hook was asked for, latest first. -/
def requests (r : Registry) : List QualifiedName :=
  r.events.filterMap Event.request?

/-! ## Names -/

/-- The same names are bound and have been asked for, and the hook is the same. -/
structure SameNames (r s : Registry) : Prop where
  index : s.index = r.index
  size : s.size = r.size
  requests : s.requests = r.requests
  hook : s.autoloader = r.autoloader

theorem SameNames.refl (r : Registry) : SameNames r r := ⟨rfl, rfl, rfl, rfl⟩

theorem SameNames.trans (h : SameNames r s) (h' : SameNames s t) : SameNames r t :=
  ⟨h'.index.trans h.index, h'.size.trans h.size, h'.requests.trans h.requests,
    h'.hook.trans h.hook⟩

theorem sameNames_endEvaluation (site : LazySite) (result : Except Error Value) (r : Registry) :
    SameNames r (r.endEvaluation site result) := by
  cases result with
  | ok v => exact ⟨rfl, size_updateAt _ _ _, rfl, rfl⟩
  | error e => exact ⟨rfl, rfl, rfl, rfl⟩

theorem sameNames_endLinking (id : ClassId) (result : Except Error Links) (r : Registry) :
    SameNames r (r.endLinking id result) := by
  cases result with
  | ok links => exact ⟨rfl, size_updateAt _ _ _, rfl, rfl⟩
  | error e => exact ⟨rfl, size_updateAt _ _ _, rfl, rfl⟩

/-- What is bound stays bound to the same number. -/
structure KeepsNames (r s : Registry) : Prop where
  size_le : r.size ≤ s.size
  bound : ∀ {name id}, r.idOf? name = some id → s.idOf? name = some id

theorem KeepsNames.trans (h : r.KeepsNames s) (h' : s.KeepsNames t) : r.KeepsNames t :=
  ⟨Nat.le_trans h.size_le h'.size_le, fun hn => h'.bound (h.bound hn)⟩

theorem KeepsNames.unbound (h : r.KeepsNames s) (hs : s.idOf? name = none) :
    r.idOf? name = none := by
  cases hr : r.idOf? name with
  | none => rfl
  | some id =>
    rw [h.bound hr] at hs
    cases hs

theorem SameNames.keeps (h : SameNames r s) : r.KeepsNames s where
  size_le := Nat.le_of_eq h.size.symm
  bound hn := by
    rw [idOf?, h.index]
    exact hn

/-! ## One occasion -/

/-- Nothing is registered, or one of the declarations that are offered, whose name is free;
it gets the next number, and nothing else is bound. -/
def TakesIn (offered : ClassDecl → Prop) (r s : Registry) : Prop :=
  (s.registrations = r.registrations ∧ s.index = r.index) ∨
    ∃ d, offered d ∧ r.contains d.name = false ∧
      s.registrations = r.registrations ++ [{ decl := d }] ∧
      s.index = r.index.put d.name.key (.ofIndex r.size)

theorem TakesIn.keeps {offered : ClassDecl → Prop} (h : TakesIn offered r s) : r.KeepsNames s := by
  rcases h with ⟨hregs, hindex⟩ | ⟨d, -, hfree, hregs, hindex⟩
  · exact ⟨Nat.le_of_eq (by rw [size, size, hregs]), fun hn => by rw [idOf?, hindex]; exact hn⟩
  · have hext : r.Extends (r.append d) := extends_append hfree
    refine ⟨?_, fun hn => ?_⟩
    · rw [show s.size = (r.append d).size by rw [size, size, hregs]; rfl]
      exact hext.size_le
    · rw [show s.idOf? = (r.append d).idOf? by funext name; rw [idOf?, hindex]; rfl]
      exact hext.bound hn

theorem takesIn_append {offered : ClassDecl → Prop} {d : ClassDecl} (hd : offered d)
    (hfree : r.contains d.name = false) : TakesIn offered r (r.append d) :=
  .inr ⟨d, hd, hfree, rfl, rfl⟩

theorem autoload_of_hook {loader : Autoloader} (hook : r.autoloader = some loader)
    (name : QualifiedName) :
    (r.autoload name).requests = name :: r.requests ∧
      TakesIn (fun d => loader.reply loader.asked name = some d) r (r.autoload name) := by
  rw [autoload, hook]
  dsimp only [Autoloader.ask]
  cases hreply : loader.reply loader.asked name with
  | none => exact ⟨rfl, .inl ⟨rfl, rfl⟩⟩
  | some d =>
    dsimp only [registerIfFree]
    split
    · exact ⟨rfl, .inl ⟨rfl, rfl⟩⟩
    · rename_i hfree
      exact ⟨rfl, .inr ⟨d, rfl, Bool.eq_false_iff.mpr hfree, rfl, rfl⟩⟩

theorem autoload_of_hookless (hook : r.autoloader = none) (name : QualifiedName) :
    r.autoload name = r := by
  rw [autoload, hook]

/-- An occasion on which a class may be registered: the name that the hook is asked for, if
it is asked, and the registry before and after. -/
structure Occasion where
  asked : Option QualifiedName
  before : Registry
  after : Registry

/-- The hook is asked for a name that is not bound, or one of the operations registers a
class whose name is free, or puts a hook in place or takes it away. -/
inductive Occasion.Legal (ops : List Operation) : Occasion → Prop where
  | asked {r : Registry} {loader : Autoloader} {name : QualifiedName}
      (hook : r.autoloader = some loader) (unbound : r.idOf? name = none) :
      Legal ops ⟨some name, r, r.autoload name⟩
  | declared {r : Registry} {op : Operation} {d : ClassDecl} (mem : op ∈ ops)
      (declares : op.declaration? = some d) (free : r.contains d.name = false) :
      Legal ops ⟨none, r, r.append d⟩
  | hooked {r : Registry} {op : Operation} {loader : Option Autoloader} (mem : op ∈ ops)
      (hooks : op.hook? = some loader) : Legal ops ⟨none, r, { r with autoloader := loader }⟩

/-- The name that is asked for is bound afterwards. -/
def Occasion.Served (o : Occasion) : Prop :=
  ∀ name, o.asked = some name → ∃ id, o.after.idOf? name = some id

theorem Occasion.Served.bound {o : Occasion} (h : o.Served) (ha : o.asked = some name) :
    o.after.idOf? name ≠ none := by
  obtain ⟨id, hid⟩ := h name ha
  rw [hid]
  exact Option.some_ne_none id

theorem Occasion.Legal.keeps {o : Occasion} (h : o.Legal ops) : o.before.KeepsNames o.after := by
  cases h with
  | asked hook unbound => exact (autoload_of_hook hook _).2.keeps
  | @declared r op d mem declares free =>
    have htaken : TakesIn (fun d' => d' = d) r (r.append d) := takesIn_append rfl free
    exact htaken.keeps
  | hooked mem hooks => exact ⟨Nat.le_refl _, fun hn => hn⟩

theorem Occasion.Legal.unbound {o : Occasion} (h : o.Legal ops) (ha : o.asked = some name) :
    o.before.idOf? name = none := by
  cases h with
  | asked hook unbound =>
    cases ha
    exact unbound
  | declared mem declares free => cases ha
  | hooked mem hooks => cases ha

theorem Occasion.Legal.requests {o : Occasion} (h : o.Legal ops) :
    o.after.requests = o.asked.toList ++ o.before.requests := by
  cases h with
  | asked hook unbound => exact (autoload_of_hook hook _).1
  | declared mem declares free => rfl
  | hooked mem hooks => rfl

/-! ## All occasions between two registries -/

/-- The occasions on the way from one registry to another, latest first.  Before, between
and after them no name is bound or asked for, and the hook stays. -/
inductive Log (ops : List Operation) : Registry → List Occasion → Registry → Prop where
  | nil {r s : Registry} (same : SameNames r s) : Log ops r [] s
  | cons {r s : Registry} {log : List Occasion} {o : Occasion} (earlier : Log ops r log o.before)
      (legal : o.Legal ops) (same : SameNames o.after s) : Log ops r (o :: log) s

variable {log : List Occasion}

theorem Log.quiet (h : Log ops r log s) (same : SameNames s t) : Log ops r log t := by
  cases h with
  | nil same' => exact .nil (same'.trans same)
  | cons earlier legal same' => exact .cons earlier legal (same'.trans same)

theorem Log.keeps (h : Log ops r log s) : r.KeepsNames s := by
  induction h with
  | nil same => exact same.keeps
  | cons earlier legal same ih => exact (ih.trans legal.keeps).trans same.keeps

theorem Log.kept (h : Log ops r log s) :
    ∀ o ∈ log, o.Legal ops ∧ r.KeepsNames o.before ∧ o.after.KeepsNames s := by
  induction h with
  | nil same => exact nofun
  | cons earlier legal same ih =>
    intro o ho
    rcases List.mem_cons.mp ho with rfl | ho
    · exact ⟨legal, earlier.keeps, same.keeps⟩
    · obtain ⟨hlegal, hbefore, hafter⟩ := ih o ho
      exact ⟨hlegal, hbefore, (hafter.trans legal.keeps).trans same.keeps⟩

theorem Log.ordered (h : Log ops r log s) :
    log.Pairwise fun later earlier => earlier.after.KeepsNames later.before := by
  induction h with
  | nil same => exact .nil
  | cons earlier legal same ih => exact .cons (fun o ho => (earlier.kept o ho).2.2) ih

theorem Log.requests (h : Log ops r log s) :
    s.requests = log.filterMap Occasion.asked ++ r.requests := by
  induction h with
  | nil same => exact same.requests
  | @cons s log o earlier legal same ih =>
    rw [same.requests, legal.requests, ih, List.filterMap_cons]
    cases o.asked <;> rfl

/-- What is bound in the end was bound at first or was bound on one of the occasions. -/
theorem Log.bound (h : Log ops r log s) {id : ClassId} (hs : s.idOf? name = some id) :
    r.idOf? name = some id ∨
      ∃ o ∈ log, o.before.idOf? name = none ∧ o.after.idOf? name = some id := by
  induction h with
  | nil same =>
    rw [idOf?, same.index] at hs
    exact .inl hs
  | @cons s log o earlier legal same ih =>
    rw [idOf?, same.index] at hs
    cases hbefore : o.before.idOf? name with
    | none => exact .inr ⟨o, List.mem_cons_self, hbefore, hs⟩
    | some id' =>
      have hid := legal.keeps.bound hbefore
      rw [idOf?, hs] at hid
      obtain rfl := Option.some.inj hid
      rcases ih hbefore with hr | ⟨o', ho', hbound⟩
      · exact .inl hr
      · exact .inr ⟨o', List.mem_cons_of_mem o ho', hbound⟩

/-- What the log says of the hook. -/
structure Discipline (ops : List Operation) (r : Registry) (log : List Occasion)
    (s : Registry) : Prop where
  logged : Log ops r log s
  requests : s.requests = log.filterMap Occasion.asked ++ r.requests
  /-- The hook is asked for unbound names, and what it answers is taken in once at most. -/
  asked : ∀ o ∈ log, ∀ name, o.asked = some name → o.before.idOf? name = none ∧
    ∃ loader, o.before.autoloader = some loader ∧ o.after = o.before.autoload name ∧
      TakesIn (fun d => loader.reply loader.asked name = some d) o.before o.after
  /-- All other classes are those that the operations register. -/
  unasked : ∀ o ∈ log, o.asked = none →
    TakesIn (fun d => ∃ op ∈ ops, op.declaration? = some d) o.before o.after
  /-- The next number is the number of the classes so far. -/
  next : ∀ o ∈ log, (ClassId.ofIndex o.before.size).index = o.before.size
  kept : ∀ o ∈ log, r.KeepsNames o.before ∧ o.before.KeepsNames o.after ∧ o.after.KeepsNames s
  /-- Names become bound on these occasions only. -/
  bound : ∀ name id, s.idOf? name = some id → r.idOf? name = some id ∨
    ∃ o ∈ log, o.before.idOf? name = none ∧ o.after.idOf? name = some id
  /-- A name that is bound at first is not asked for. -/
  fresh : ∀ o ∈ log, ∀ name, o.asked = some name → r.idOf? name = none
  /-- A name that becomes bound on an occasion is not asked for on a later one. -/
  once : log.Pairwise fun later earlier =>
    ∀ name, later.asked = some name → earlier.after.idOf? name = none

theorem Log.discipline (h : Log ops r log s) (hsize : s.size < UInt32.size) :
    Discipline ops r log s where
  logged := h
  requests := h.requests
  asked o ho name ha := by
    obtain ⟨hlegal, -⟩ := h.kept o ho
    refine ⟨hlegal.unbound ha, ?_⟩
    cases hlegal with
    | asked hook unbound =>
      cases ha
      exact ⟨_, hook, rfl, (autoload_of_hook hook _).2⟩
    | declared mem declares free => cases ha
    | hooked mem hooks => cases ha
  unasked o ho ha := by
    cases (h.kept o ho).1 with
    | asked hook unbound => cases ha
    | declared mem declares free => exact takesIn_append ⟨_, mem, declares⟩ free
    | hooked mem hooks => exact .inl ⟨rfl, rfl⟩
  next o ho := by
    obtain ⟨hlegal, -, hafter⟩ := h.kept o ho
    have hle := Nat.le_trans hlegal.keeps.size_le hafter.size_le
    exact ClassId.index_ofIndex (Nat.lt_of_le_of_lt hle hsize)
  kept o ho :=
    have hkept := h.kept o ho
    ⟨hkept.2.1, hkept.1.keeps, hkept.2.2⟩
  bound _ _ hs := h.bound hs
  fresh o ho name ha :=
    have hkept := h.kept o ho
    hkept.2.1.unbound (hkept.1.unbound ha)
  once := h.ordered.imp_of_mem fun {later _} hlater _ hkeeps _ ha =>
    hkeeps.unbound ((h.kept later hlater).1.unbound ha)

/-! ## Runs -/

/-- Looking up an unbound name is an occasion if there is a hook, and nothing otherwise. -/
theorem Log.autoload (h : Log ops r log s) (hunbound : s.idOf? name = none) :
    s.autoload name = s ∨
      Log ops r (⟨some name, s, s.autoload name⟩ :: log) (s.autoload name) := by
  cases hook : s.autoloader with
  | none => exact .inl (autoload_of_hookless hook name)
  | some loader => exact .inr (.cons h (.asked hook hunbound) (.refl _))

/-- Whatever is looked up, computed or linked, the log goes on. -/
theorem stable_logged (ops : List Operation) (r : Registry) :
    Stable fun s => ∃ log, Log ops r log s where
  autoload name s hunbound h := by
    obtain ⟨log, hlog⟩ := h
    rcases hlog.autoload hunbound with hsame | hlog'
    · rw [hsame]
      exact ⟨log, hlog⟩
    · exact ⟨_, hlog'⟩
  note label s h := h.imp fun _ hlog => hlog.quiet ⟨rfl, rfl, rfl, rfl⟩
  began site s h := h.imp fun _ hlog => hlog.quiet ⟨rfl, rfl, rfl, rfl⟩
  ended site result s h := h.imp fun _ hlog => hlog.quiet (sameNames_endEvaluation site result s)
  classNotFound _ := trivial
  noParentScope _ := trivial
  undefinedConstant _ _ := trivial
  circularConstant _ _ := trivial
  failed _ _ _ _ _ := trivial
  source _ _ _ _ _ := Program.raises_of_forall (fun _ => trivial) _
  beganLinking id s h := h.imp fun _ hlog => hlog.quiet ⟨rfl, rfl, rfl, rfl⟩
  endedLinking id result s h := h.imp fun _ hlog => hlog.quiet (sameNames_endLinking id result s)

theorem brings_logged {op : Operation} (hop : op ∈ ops) (r : Registry) :
    Brings (fun s => ∃ log, Log ops r log s) op where
  declared d hd s h hfree := by
    obtain ⟨log, hlog⟩ := h
    have hlegal : Occasion.Legal ops ⟨none, s, s.append d⟩ := .declared hop hd hfree
    exact ⟨_, .cons hlog hlegal (.refl _)⟩
  hooked loader hl s h := by
    obtain ⟨log, hlog⟩ := h
    have hlegal : Occasion.Legal ops ⟨none, s, { s with autoloader := loader }⟩ := .hooked hop hl
    exact ⟨_, .cons hlog hlegal (.refl _)⟩
  statics _ id table s h := h.imp fun _ hlog => hlog.quiet ⟨rfl, size_updateAt _ _ _, rfl, rfl⟩

theorem Run.logged (h : Run r ops s) : ∃ log, Log ops r log s :=
  (stable_logged ops r).run h (fun _ hop => brings_logged hop r) ⟨[], .nil (.refl r)⟩

/-! ## One class or one constant -/

/-- Sources are expressions, and the hook has supplied every name that it was asked for. -/
def Supplying (r s : Registry) : Prop :=
  s.Supplied ClassDecl.Plain ∧ ∃ log, Log [] r log s ∧ ∀ o ∈ log, o.Served

/-- The hook has supplied every name but the last one that it was asked for, and if it has
not supplied this one, that is the reason of the failure. -/
def Unsupplied (r : Registry) (f : Fault) (s : Registry) : Prop :=
  ∃ log, Log [] r log s ∧ (∀ o ∈ log.tail, o.Served) ∧
    ∀ o, log.head? = some o → ∀ name, o.asked = some name → o.after.idOf? name = none →
      f = .raised (.classNotFound name.text)

theorem Supplying.unsupplied (h : Supplying r s) (f : Fault) : Unsupplied r f s := by
  obtain ⟨-, log, hlog, hserved⟩ := h
  refine ⟨log, hlog, fun o ho => hserved o (List.mem_of_mem_tail ho), fun o ho name ha hnone => ?_⟩
  exact absurd hnone ((hserved o (List.mem_of_head? ho)).bound ha)

theorem Supplying.quiet (h : Supplying r s) (hsup : t.Supplied ClassDecl.Plain)
    (same : SameNames s t) : Supplying r t := by
  obtain ⟨-, log, hlog, hserved⟩ := h
  exact ⟨hsup, log, hlog.quiet same, hserved⟩

theorem Unsupplied.quiet {f : Fault} (h : Unsupplied r f s) (same : SameNames s t) :
    Unsupplied r f t := by
  obtain ⟨log, hlog, hrest⟩ := h
  exact ⟨log, hlog.quiet same, hrest⟩

theorem lookup_passesOn (r : Registry) (name : QualifiedName) :
    PassesOn (Supplying r) (Unsupplied r) (lookup name) := by
  intro s hs
  unfold lookup
  split
  · exact hs
  · rename_i hunbound
    obtain ⟨hsup, log, hlog, hserved⟩ := hs
    have hsup' := hsup.autoload name
    dsimp only
    rcases hlog.autoload hunbound with hsame | hlog'
    · rw [hsame, hunbound]
      exact Supplying.unsupplied ⟨hsup, log, hlog, hserved⟩ _
    · split
      · rename_i id hid
        refine ⟨hsup', _, hlog', fun o ho => ?_⟩
        rcases List.mem_cons.mp ho with rfl | ho
        · rintro _ ⟨⟩
          exact ⟨id, hid⟩
        · exact hserved o ho
      · refine ⟨_, hlog', hserved, ?_⟩
        rintro _ ⟨⟩ _ ⟨⟩ -
        rfl

theorem passing_supplying (r : Registry) : Passing (Supplying r) (Unsupplied r) where
  lookup := lookup_passesOn r
  unissued _ _ h := h.unsupplied _
  noParentScope _ _ h := h.unsupplied _
  undefinedConstant _ _ _ h := h.unsupplied _
  circularConstant _ _ _ h := h.unsupplied _
  failed _ _ _ h _ := h.unsupplied _
  source s site source scope h hp _ hfetch := by
    obtain ⟨x, rfl⟩ := h.1.plain hp
    exact .evaluate hfetch (fun _ _ ht => ht.unsupplied _) x
  began site s h := h.quiet ((stable_supplied _).began site s h.1) ⟨rfl, rfl, rfl, rfl⟩
  computed site v s h :=
    h.quiet (h.1.endEvaluation site (.ok v)) (sameNames_endEvaluation site (.ok v) s)
  gaveUp site e s h := h.quiet (sameNames_endEvaluation site (.error e) s)
  fails f _ h := h.unsupplied f
  beganLinking id s h := h.quiet ((stable_supplied _).beganLinking id s h.1) ⟨rfl, rfl, rfl, rfl⟩
  linked id links s h :=
    h.quiet ((stable_supplied _).endedLinking id (.ok links) s h.1)
      (sameNames_endLinking id (.ok links) s)
  refused id e s h := h.quiet (sameNames_endLinking id (.error e) s)

theorem perform_passesOn {op : Operation} (hop : op.isSingle = true) (depth : Nat) (r : Registry) :
    PassesOn (Supplying r) (Unsupplied r) (perform depth op) := by
  cases op with
  | resolveId id => exact ((passing_supplying r).resolveId depth id).bind fun _ => .pure _
  | constant id name => exact ((passing_supplying r).constant depth id name).bind fun _ => .pure _
  | _ => cases hop

/-- If every name but the last one was supplied, no name was asked for twice. -/
theorem Log.nodup (h : Log ops r log s) (hserved : ∀ o ∈ log.tail, o.Served) :
    ((log.filterMap Occasion.asked).map QualifiedName.key).Nodup := by
  induction h with
  | nil same => exact .nil
  | @cons s log o earlier legal same ih =>
    have hrest := ih fun o ho => hserved o (List.mem_of_mem_tail ho)
    rw [List.filterMap_cons]
    cases ha : o.asked with
    | none => exact hrest
    | some name =>
      refine List.nodup_cons.mpr ⟨fun hmem => ?_, hrest⟩
      obtain ⟨name', hname', hkey⟩ := List.mem_map.mp hmem
      obtain ⟨o', ho', ha'⟩ := List.mem_filterMap.mp hname'
      obtain ⟨id, hid⟩ := hserved o' ho' name' ha'
      have hbound := (earlier.kept o' ho').2.2.bound hid
      have hunbound := legal.unbound ha
      rw [idOf?, ← hkey] at hunbound
      rw [idOf?, hunbound] at hbound
      cases hbound

/-- The requests of an operation that resolves one class or reads one constant. -/
structure Frugal (r : Registry) (outcome : Outcome Registry Answer) (log : List Occasion)
    (s : Registry) : Prop where
  logged : Log [] r log s
  requests : s.requests = log.filterMap Occasion.asked ++ r.requests
  /-- No name is asked for twice, in any letter case. -/
  nodup : ((log.filterMap Occasion.asked).map QualifiedName.key).Nodup
  /-- Whatever was asked for before the last request was bound then. -/
  served : ∀ o ∈ log.tail, o.Served
  /-- If the last request left its name unbound, the operation fails with this name. -/
  missed : ∀ o, log.head? = some o → ∀ name, o.asked = some name → o.after.idOf? name = none →
    outcome = .failure (.raised (.classNotFound name.text)) s

theorem Supplied.frugal (h : r.Supplied ClassDecl.Plain) {op : Operation}
    (hop : op.isSingle = true) {depth : Nat} (hs : (perform depth op r).state? = some s) :
    ∃ log, Frugal r (perform depth op r) log s := by
  have hmeets := perform_passesOn hop depth r r ⟨h, [], .nil (.refl r), nofun⟩
  cases hrun : perform depth op r with
  | value a t =>
    rw [hrun] at hs hmeets
    cases hs
    obtain ⟨-, log, hlog, hserved⟩ := hmeets
    have htail : ∀ o ∈ log.tail, o.Served := fun o ho => hserved o (List.mem_of_mem_tail ho)
    refine ⟨log, hlog, hlog.requests, hlog.nodup htail, htail, fun o ho name ha hnone => ?_⟩
    exact absurd hnone ((hserved o (List.mem_of_head? ho)).bound ha)
  | failure f t =>
    rw [hrun] at hs hmeets
    cases hs
    obtain ⟨log, hlog, htail, hlast⟩ := hmeets
    refine ⟨log, hlog, hlog.requests, hlog.nodup htail, htail, fun o ho name ha hnone => ?_⟩
    rw [hlast o ho name ha hnone]
  | tooDeep =>
    rw [hrun] at hs
    cases hs

/-- Whatever the hook and the sources are, the hook is asked for unbound names only, and
each time it adds one class at most; and where all sources are expressions, to resolve a
class or to read a constant it is asked for each name once, and a name that it does not
supply is the last one and the reason of the failure. -/
theorem Run.autoload_discipline (h : Run r ops s) :
    (s.size < UInt32.size → ∃ log, Discipline ops r log s) ∧
      (s.Supplied ClassDecl.Plain → ∀ depth op t, op.isSingle = true →
        (perform depth op s).state? = some t → ∃ log, Frugal s (perform depth op s) log t) := by
  obtain ⟨log, hlog⟩ := h.logged
  exact ⟨fun hsize => ⟨log, hlog.discipline hsize⟩, fun hs _ _ _ hop ht => hs.frugal hop ht⟩

/-- The hook supplies an interface in the run.  Then a constant of the second class needs a
class that the hook supplies, and one for which it supplies a class of another name. -/
theorem Run.autoload_discipline_wrong_name :
    let late : ClassDecl := .addConstant { name := "K", value := .settled (.int 1) }
      { name := ⟨"Late"⟩ }
    let hook : Autoloader :=
      { reply := fun _ name =>
          if name.text = "I" then some { name, kind := .interface }
          else if name.text = "Late" then some late
          else some { name := ⟨"Extra"⟩ } }
    let sum : Expr := .binary .add (.constant (.named ⟨"Late"⟩) "K")
      (.binary .add (.constant (.named ⟨"late"⟩) "K") (.constant (.named ⟨"Ghost"⟩) "K"))
    let first : ClassDecl := { name := ⟨"A"⟩, interfaces := [⟨"I"⟩] }
    let second : ClassDecl :=
      .addConstant { name := "X", value := .pending (.expr sum) } { name := ⟨"B"⟩ }
    let ops : List Operation :=
      [.setAutoloader hook, .register first, .register second, .resolveId ⟨0⟩]
    ∃ r s, Run (new {}) ops r ∧ r.size < UInt32.size ∧ r.Supplied ClassDecl.Plain ∧
      (∃ log, Discipline ops (new {}) log r) ∧
      perform 7 (.resolveId ⟨1⟩) r = .failure (.raised (.classNotFound "Ghost")) s ∧
      s.requests.map (·.text) = ["Ghost", "Late", "I"] ∧
      ∃ log, Frugal r (perform 7 (.resolveId ⟨1⟩) r) log s := by
  intro late hook sum first second ops
  have hresults : (performAll 7 ops (new {})).bind (fun r =>
      (resolveId 7 ⟨1⟩ r).state?.map fun s => (r.size, (resolveId 7 ⟨1⟩ r).answer?,
        s.requests.map (·.text))) =
      some (3, some (.error (.raised (.classNotFound "Ghost"))), ["Ghost", "Late", "I"]) := by
    decide +kernel
  obtain ⟨r, hr, hresults⟩ := Option.bind_eq_some_iff.mp hresults
  obtain ⟨s, hs, hresults⟩ := Option.map_eq_some_iff.mp hresults
  simp only [Prod.mk.injEq] at hresults
  obtain ⟨hthree, hanswer, hrequests⟩ := hresults
  obtain ⟨t, hfailure⟩ := Outcome.answer?_eq_error_iff.mp hanswer
  rw [hfailure] at hs
  cases hs
  have hfailure : perform 7 (.resolveId ⟨1⟩) r =
      .failure (.raised (.classNotFound "Ghost")) s := by
    have hperform : perform 7 (.resolveId ⟨1⟩) =
        resolveId 7 ⟨1⟩ >>= fun _ => pure Answer.nothing := rfl
    rw [hperform, Eval.bind_apply, hfailure]
  have hsize : r.size < UInt32.size := by rw [hthree]; decide
  have hrun : Run (new {}) ops r := .of_performAll hr
  have hplain : ∀ d : ClassDecl, d ∈ [late, { name := ⟨"Extra"⟩ }, first, second] → d.Plain := by
    decide
  have hhook : hook.Supplies ClassDecl.Plain := by
    intro asked name d hd
    dsimp only [hook] at hd
    split at hd
    · cases hd
      exact ClassDecl.plain_iff.mpr rfl
    · split at hd
      · cases hd
        exact hplain _ (by simp)
      · cases hd
        exact hplain _ (by simp)
  have hops : ∀ op ∈ ops, op.Supplies ClassDecl.Plain := by
    intro op hop
    simp only [ops, List.mem_cons, List.not_mem_nil, or_false] at hop
    rcases hop with rfl | rfl | rfl | rfl
    · exact ⟨fun d hd => (by cases hd), fun loader hl => by cases hl; exact hhook⟩
    · exact ⟨fun d hd => (by cases hd; exact hplain _ (by simp)), fun loader hl => by cases hl⟩
    · exact ⟨fun d hd => (by cases hd; exact hplain _ (by simp)), fun loader hl => by cases hl⟩
    · exact ⟨fun d hd => (by cases hd), fun loader hl => by cases hl⟩
  have hsupplied : r.Supplied ClassDecl.Plain := hrun.supplied hops
  obtain ⟨hlog, hfrugal⟩ := Run.autoload_discipline hrun
  exact ⟨r, s, hrun, hsize, hsupplied, hlog hsize, hfailure, hrequests,
    hfrugal hsupplied 7 (.resolveId ⟨1⟩) s rfl (by rw [hfailure]; rfl)⟩

end Registry
end Lineage
