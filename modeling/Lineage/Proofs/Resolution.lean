/-
Resolution in a registry that nothing can be loaded into.

`Tracks w r` says that `r` has come out of `w` by resolution: every class that is
resolved in `r` has the links and the declaration that `Yields` derives from `w`,
and every class that failed has an error that `Fails` derives.  While classes are
being linked, each class on the stack waits for the next inner one, so a class
that is met again closes a ring.  The theorem of this file is `resolveId_tracks`:
resolution keeps track of what can be derived.
-/
import Lineage.Proofs.Derivation

namespace Lineage
namespace Registry

variable {w r s t : Registry} {id c p x : ClassId} {links : Links} {d d' : ClassDecl} {e : Error}

/-! ## States of resolution -/

/-- What is settled in `r` is derived from `w`, and each class on the stack waits
for the next inner one. -/
structure Tracks (w r : Registry) : Prop where
  within : w.Within r
  founded : r.Founded
  evaluating : r.evaluating = []
  untouched : ∀ c, r.standing? c = some .unresolved → r.decl? c = w.decl? c
  resolved : ∀ c links, r.Resolved c links → ∃ d, r.decl? c = some d ∧ w.Yields c links d
  failed : ∀ c e, r.standing? c = some (.failed e) → w.Fails c e
  stacked : ∀ c ∈ r.resolving, r.standing? c = some .unresolved
  nodup : r.resolving.Nodup
  waiting : r.resolving.IsChain fun inner outer => w.Awaits w.Linked outer inner

theorem Fresh.tracks (hw : w.Fresh) : Tracks w w where
  within := .refl hw.hookless
  founded := by
    have hnone : ∀ c links, ¬ w.Resolved c links := by
      intro c links hc
      cases hw.unresolved c _ hc
    exact ⟨fun c links hc => absurd hc (hnone c links), fun c links hc => absurd hc (hnone c links),
      fun c links hc => absurd hc (hnone c links)⟩
  evaluating := hw.evaluating
  untouched _ _ := rfl
  resolved c links hc := by cases hw.unresolved c _ hc
  failed c e hc := by cases hw.unresolved c _ hc
  stacked c hc := by rw [hw.resolving] at hc; cases hc
  nodup := by rw [hw.resolving]; exact List.nodup_nil
  waiting := by rw [hw.resolving]; exact .nil

/-- Values of class `id` have been computed, and nothing else has changed. -/
structure Filled (w : Registry) (id : ClassId) (r s : Registry) : Prop where
  within : w.Within s
  computes : Computes r s
  kept : ∀ c, c ≠ id → s.decl? c = r.decl? c

namespace Filled

theorem refl (h : w.Within r) : Filled w id r r := ⟨h, .refl r, fun _ _ => rfl⟩

theorem standing? (h : Filled w id r s) (hr : w.Within r) (c : ClassId) :
    s.standing? c = r.standing? c := by
  by_cases hc : r.Issued c
  · exact h.computes.standing? hc
  · have hs : ¬ s.Issued c := by rwa [h.within.issued_iff, ← hr.issued_iff]
    have hnone : ∀ q : Registry, ¬ q.Issued c → q.standing? c = none := by
      intro q hq
      cases hst : q.standing? c with
      | none => rfl
      | some st => exact absurd (.of_standing? hst) hq
    rw [hnone r hc, hnone s hs]

end Filled

/-- The declarations of the registered classes. -/
def declOf (r : Registry) (c : ClassId) : ClassDecl :=
  match r.decl? c with
  | some d => d
  | none => { name := ⟨""⟩ }

theorem declOf_eq (h : r.decl? c = some d) : r.declOf c = d := by
  rw [declOf, h]

/-! ## Reading one registry off the other -/

section Descend

variable (hs : w.Within s) (hl : ∀ p links, s.Resolved p links → w.Linked p links)
include hs

theorem Declares.descend (h : s.Declares c d) : w.Declares c d := by
  obtain ⟨d', hd', halike⟩ := h
  obtain ⟨d'', hd'', hset⟩ := hs.decl? hd'
  exact ⟨d'', hd'', halike.trans hset.alike.symm⟩

include hl

theorem Admits.descend {ref : Role × QualifiedName} (h : s.Admits s.Resolved d ref) :
    w.Admits w.Linked d ref := by
  obtain ⟨p, base, links, hp, hbase, hlinks, hrule⟩ := h
  rw [hs.idOf?] at hp
  rw [hs.grows.config] at hrule
  exact ⟨p, base, links, hp, hbase.descend hs, hl p links hlinks, hrule⟩

theorem Awaits.descend (h : s.Awaits s.Resolved c p) : w.Awaits w.Linked c p := by
  obtain ⟨d, before, ref, after, hd, hsplit, hpassed, hp⟩ := h
  rw [hs.idOf?] at hp
  exact ⟨d, before, ref, after, hd.descend hs, hsplit, fun x hx => (hpassed x hx).descend hs hl, hp⟩

theorem Inherits.descend {linksOf : ClassId → Links} (h : s.Inherits s.Resolved c d linksOf) :
    w.Inherits w.Linked c d linksOf where
  declares := h.declares.descend hs
  admits ref href := (h.admits ref href).descend hs hl
  linked ref href p hp := hl _ _ (h.linked ref href p (by rw [hs.idOf?]; exact hp))

omit hl in
theorem inherited_descend (linksOf : ClassId → Links) :
    s.inherited linksOf c d = w.inherited linksOf c d := by
  refine List.foldl_ext _ _ _ fun l ref _ => ?_
  unfold inherit
  rw [hs.idOf?]

omit hl in
theorem Permits.descend {entry : String × MethodDecl} (h : s.Permits links entry) :
    w.Permits links entry := by
  unfold Permits at h ⊢
  rw [hs.grows.config] at h
  exact h

theorem Refused.descend {Bad : ClassId → Fault → Prop} {BadMembers : ClassDecl → Fault → Prop}
    {f : Fault} (h : s.Refused s.Resolved Bad BadMembers c f) :
    w.Refused w.Linked Bad BadMembers c f := by
  cases h with
  | unbound declares split passed unbound =>
    rw [hs.idOf?] at unbound
    exact .unbound (declares.descend hs) split (fun x hx => (passed x hx).descend hs hl) unbound
  | reference awaits bad => exact .reference (awaits.descend hs hl) bad
  | rule declares split passed bound declaresBase linked verify broken =>
    rw [hs.idOf?] at bound
    rw [hs.grows.config] at verify
    exact .rule (declares.descend hs) split (fun x hx => (passed x hx).descend hs hl) bound
      (declaresBase.descend hs) (hl _ _ linked) verify broken
  | override inherits split passed found verify broken =>
    rw [inherited_descend hs] at passed found
    rw [hs.grows.config] at verify
    exact .override (inherits.descend hs hl) split (fun x hx => (passed x hx).descend hs) found
      verify broken
  | members inherits permits bad =>
    rw [inherited_descend hs] at permits
    exact .members (inherits.descend hs hl) (fun x hx => (permits x hx).descend hs) bad

end Descend

theorem Refused.own_or_reference {Linked : ClassId → Links → Prop}
    {Bad : ClassId → Fault → Prop} {BadMembers : ClassDecl → Fault → Prop} {f : Fault}
    (h : w.Refused Linked Bad BadMembers c f) :
    w.Refused Linked (fun _ _ => False) BadMembers c f ∨ ∃ p, w.Awaits Linked c p ∧ Bad p f := by
  cases h with
  | unbound declares split passed unbound => exact .inl (.unbound declares split passed unbound)
  | reference awaits bad => exact .inr ⟨_, awaits, bad⟩
  | rule declares split passed bound declaresBase linked verify broken =>
    exact .inl (.rule declares split passed bound declaresBase linked verify broken)
  | override inherits split passed found verify broken =>
    exact .inl (.override inherits split passed found verify broken)
  | members inherits permits bad => exact .inl (.members inherits permits bad)

theorem Within.endLinking {result : Except Error Links} (h : w.Within r)
    (hu : r.standing? id = some .unresolved) : w.Within (r.endLinking id result) := by
  refine ⟨h.grows.trans (extends_endLinking hu), ?_, ?_, ?_⟩ <;> rw [endLinking_eq]
  · exact h.index
  · exact (size_updateAt _ _ _).trans h.size
  · exact h.hookless

namespace Tracks

theorem linked (h : Tracks w r) (p : ClassId) (links : Links) (hp : r.Resolved p links) :
    w.Linked p links := by
  obtain ⟨d, -, hy⟩ := h.resolved p links hp
  exact ⟨d, hy⟩

/-! ## Steps -/

theorem beginLinking (h : Tracks w r) (hu : r.standing? id = some .unresolved)
    (hid : id ∉ r.resolving) (hawaits : ∀ outer ∈ r.resolving.head?, w.Awaits w.Linked outer id) :
    Tracks w (r.beginLinking id) where
  within := h.within.of_eq rfl rfl rfl rfl
  founded := (Change.beganLinking hu hid).founded h.founded
  evaluating := h.evaluating
  untouched := h.untouched
  resolved := h.resolved
  failed := h.failed
  stacked c hc := by
    rcases List.mem_cons.mp hc with rfl | hc
    · exact hu
    · exact h.stacked c hc
  nodup := List.nodup_cons.mpr ⟨hid, h.nodup⟩
  waiting := by
    show List.IsChain _ (id :: r.resolving)
    cases hstack : r.resolving with
    | nil => exact .singleton id
    | cons outer rest =>
      refine .cons_cons (hawaits outer (by rw [hstack]; rfl)) ?_
      rw [← hstack]
      exact h.waiting

/-- A class is taken off the stack with a result that is derived from `w`. -/
theorem endLinking {result : Except Error Links} (h : Tracks w r) (hfill : Filled w id r s)
    {rest : List ClassId} (hstack : r.resolving = id :: rest)
    (hfounded : (s.endLinking id result).Founded)
    (hresult : match result with
      | .ok links => ∃ d, s.decl? id = some d ∧ w.Yields id links d
      | .error e => w.Fails id e) : Tracks w (s.endLinking id result) := by
  have hid : r.standing? id = some .unresolved := h.stacked id (by rw [hstack]; exact .head _)
  have hsid : s.standing? id = some .unresolved := by rw [hfill.standing? h.within, hid]
  have hother : ∀ c, c ≠ id → (s.endLinking id result).standing? c = r.standing? c := by
    intro c hc
    rw [standing?_endLinking_of_ne hc, hfill.standing? h.within]
  have hkept : ∀ c, c ≠ id → (s.endLinking id result).decl? c = r.decl? c := by
    intro c hc
    rw [decl?_endLinking, hfill.kept c hc]
  have hrest : (s.endLinking id result).resolving = rest := by
    rw [resolving_endLinking, hfill.computes.resolving, hstack]
    rfl
  have hnodup := h.nodup
  have hwaiting := h.waiting
  rw [hstack] at hnodup hwaiting
  -- class `id` has just got its result, all others stand as they did
  refine ⟨hfill.within.endLinking hsid, hfounded, ?_, fun c hc => ?_, fun c links hc => ?_,
    fun c e hc => ?_, fun c hc => ?_, ?_, ?_⟩
  · rw [evaluating_endLinking, hfill.computes.evaluating, h.evaluating]
  · have hne : c ≠ id := by
      rintro rfl
      rw [standing?_endLinking hsid] at hc
      cases result <;> cases hc
    rw [hother c hne] at hc
    rw [hkept c hne, h.untouched c hc]
  · by_cases hne : c = id
    · subst hne
      rw [Resolved, standing?_endLinking hsid] at hc
      cases result with
      | ok l => cases hc; rw [decl?_endLinking]; exact hresult
      | error e => cases hc
    · rw [Resolved, hother c hne] at hc
      rw [hkept c hne]
      exact h.resolved c links hc
  · by_cases hne : c = id
    · subst hne
      rw [standing?_endLinking hsid] at hc
      cases result with
      | ok l => cases hc
      | error e => cases hc; exact hresult
    · rw [hother c hne] at hc
      exact h.failed c e hc
  · rw [hrest] at hc
    have hne : c ≠ id := fun heq => (List.nodup_cons.mp hnodup).1 (heq ▸ hc)
    rw [hother c hne]
    exact h.stacked c (by rw [hstack]; exact List.mem_cons_of_mem _ hc)
  · rw [hrest]
    exact (List.nodup_cons.mp hnodup).2
  · rw [hrest]
    exact hwaiting.tail

theorem computed (h : Tracks w r) (hc : r.Resolved c links) (hd : r.decl? c = some d) :
    ∀ m source, d.lazy? m ≠ some (.pending source) := by
  intro m source hm
  refine h.founded.computed hc m source ?_
  rw [lazy?, hd]
  exact hm

/-- When everything that a class inherits from is linked, the state is a stage. -/
theorem stage (h : Tracks w r) {rest : List ClassId} (hstack : r.resolving = id :: rest)
    (hinh : r.Inherits r.Resolved id d r.linksOf) :
    (∀ x, Relation.TransGen w.Refers id x → w.Yields x (r.linksOf x) (r.declOf x)) ∧
      Stage w r id r.linksOf r.declOf := by
  have hu : r.standing? id = some .unresolved := h.stacked id (by rw [hstack]; exact .head _)
  obtain ⟨d', hd', halike⟩ := hinh.declares
  have hadm : ∀ ref ∈ d'.inheritances, r.Admits r.Resolved d' ref := fun ref href =>
    (hinh.admits ref (halike.inheritances ▸ href)).alike halike
  have hresolved : ∀ x, Relation.TransGen w.Refers id x → ∃ links, r.Resolved x links := by
    intro x hx
    obtain ⟨p, hp, hpx⟩ := Relation.TransGen.head'_iff.mp hx
    obtain ⟨-, base, hbase⟩ := (Refers.mono h.within.grows hp).of_extends (.refl r) hd' hadm
    exact (h.founded.mem_ancestors_of_reaches (Reaches.mono h.within.grows hpx) hbase).1
  have habove : ∀ x, Relation.TransGen w.Refers id x → r.Resolved x (r.linksOf x) ∧
      r.decl? x = some (r.declOf x) ∧ w.Yields x (r.linksOf x) (r.declOf x) := by
    intro x hx
    obtain ⟨links, hlinks⟩ := hresolved x hx
    obtain ⟨dx, hdx, hyields⟩ := h.resolved x links hlinks
    rw [hlinks.linksOf, declOf_eq hdx]
    exact ⟨hlinks, hdx, hyields⟩
  refine ⟨fun x hx => (habove x hx).2.2, h.within, h.untouched id hu, hu, fun x hx => ?_,
    h.evaluating⟩
  exact ⟨(habove x hx).1, (habove x hx).2.1⟩

/-- Computing the own values of a class changes nothing but the class. -/
theorem forceAll_meets (hw : w.Fresh) (h : Tracks w r) {rest : List ClassId}
    (hstack : r.resolving = id :: rest) (hinh : r.Inherits r.Resolved id d r.linksOf)
    (depth : Nat) :
    (forceAll (force depth) id d r).Meets
      (fun _ s => Filled w id r s ∧
        ∀ member ∈ d.lazyMembers, s.Computed { owner := id, member := member })
      (fun f s => Filled w id r s ∧ ∃ e, f = .raised e) True := by
  obtain ⟨above, stage⟩ := h.stage hstack hinh
  have hjoint := (stage.jointly hw stage depth depth d).meets_self
  have hindexed : r.Indexed := fun name c hc => h.within.issued_iff.mpr
    (hw.indexed name c (by rw [← h.within.idOf?]; exact hc))
  have hsteps := Registry.forceAll_meets depth d hindexed hinh.declares.issued
  have hfilled : ∀ s, Computes r s → Together w (w.Reaches id) r r s s → Filled w id r s := by
    intro s hs htog
    refine ⟨htog.agrees.left, hs, fun c hc => ?_⟩
    by_cases hreach : w.Reaches id c
    · rcases Relation.reflTransGen_iff_eq_or_transGen.mp hreach with heq | habove
      · exact absurd heq hc
      obtain ⟨hlinks, hdecl⟩ := stage.above c habove
      obtain ⟨dc, hdc, hset⟩ := hs.grows.declared hdecl
      rw [hdc, hdecl, hset.eq_of_computed (h.computed hlinks hdecl)]
    · exact htog.kept_left c hreach
  refine (hsteps.and hjoint).imp ?_ ?_ fun _ => trivial
  · exact fun _ s hs => ⟨hfilled s hs.1.1 hs.2.2, hs.1.2⟩
  · rintro f s ⟨⟨hs, _, _, _, e, _, _, he⟩, htog⟩
    exact ⟨hfilled s hs htog, e, he⟩

end Tracks

/-! ## Rings on the stack -/

theorem takeWhile_of_first {l inner outer : List ClassId} (hl : l = inner ++ p :: outer)
    (hp : p ∉ inner) : l.takeWhile (· != p) = inner := by
  rw [hl, List.takeWhile_append_of_pos]
  · simp
  · intro x hx
    have hne : x ≠ p := fun heq => hp (heq ▸ hx)
    simpa using hne

/-- A chain from the innermost class outwards closes at the class that is met
again. -/
theorem isChain_ring {R : ClassId → ClassId → Prop} {inner outer : List ClassId}
    (h : (inner ++ p :: outer).IsChain fun x y => R y x) (hhead : (inner ++ [p]).head? = some id)
    (hclose : R id p) : List.IsChain R (p :: inner.reverse ++ [p]) := by
  rw [List.append_cons] at h
  have hopen := List.isChain_reverse.mpr h.left_of_append
  rw [List.reverse_append] at hopen
  refine List.IsChain.append hopen (.singleton p) fun x hx y hy => ?_
  have hx' : (inner ++ [p]).head? = some x := by
    rw [← List.getLast?_reverse, List.reverse_append]
    exact hx
  rw [hhead] at hx'
  cases hx'
  cases hy
  exact hclose

/-- A class that is met again closes the ring of the classes from it to the
innermost one, and the error names them. -/
theorem exists_ring_of_cycle {R : ClassId → ClassId → Prop} {rest : List ClassId}
    (hstack : s.resolving = id :: rest) (hnodup : s.resolving.Nodup)
    (hwaiting : s.resolving.IsChain fun inner outer => R outer inner) (hclose : R id p)
    (hcycle : s.cycle? p = some e) :
    ∃ between, (p :: between).Nodup ∧ List.IsChain R (p :: between ++ [p]) ∧
      e = s.cycleError p between ∧ id ∈ p :: between ∧ ∀ c ∈ p :: between, c ∈ s.resolving := by
  unfold cycle? at hcycle
  split at hcycle
  · rename_i hp
    obtain ⟨inner, outer, hl, hfirst⟩ := List.eq_append_cons_of_mem (List.contains_iff_mem.mp hp)
    rw [takeWhile_of_first hl hfirst] at hcycle
    have hhead : (inner ++ [p]).head? = some id := by
      have h := congrArg List.head? (hl.symm.trans hstack)
      cases inner with
      | nil => exact h
      | cons c inner => exact h
    rw [hl] at hwaiting
    refine ⟨inner.reverse, ?_, isChain_ring hwaiting hhead hclose, (Option.some.inj hcycle).symm,
      ?_, fun c hc => ?_⟩
    · rw [hl, List.nodup_append] at hnodup
      exact List.nodup_cons.mpr ⟨fun h => hfirst (List.mem_reverse.mp h),
        List.nodup_reverse.mpr hnodup.1⟩
    · rcases List.mem_append.mp (List.mem_of_mem_head? hhead) with h | h
      · exact List.mem_cons_of_mem _ (List.mem_reverse.mpr h)
      · rw [List.mem_singleton.mp h]
        exact List.mem_cons_self
    · rw [hl]
      rcases List.mem_cons.mp hc with rfl | hc
      · exact List.mem_append_cons_self
      · exact List.mem_append_left _ (List.mem_reverse.mp hc)
  · cases hcycle

theorem cycleError_congr {first : ClassId} {rest : List ClassId}
    (h : ∀ c ∈ first :: rest, s.nameText c = r.nameText c) :
    s.cycleError first rest = r.cycleError first rest := by
  rw [cycleError, cycleError, h first List.mem_cons_self]
  congr 1
  refine List.map_congr_left fun c hc => h c ?_
  rcases List.mem_append.mp hc with hc | hc
  · exact hc
  · rw [List.mem_singleton.mp hc]
    exact List.mem_cons_self

/-- A class that is met again fails with all the classes between. -/
theorem fails_of_cycle {rest : List ClassId} (hs : w.Within s) (hstack : s.resolving = id :: rest)
    (hissued : ∀ c ∈ s.resolving, w.Issued c) (hnodup : s.resolving.Nodup)
    (hwaiting : s.resolving.IsChain fun inner outer => w.Awaits w.Linked outer inner)
    (hawaits : w.Awaits w.Linked id p) (hcycle : s.cycle? p = some e) : w.Fails id e := by
  obtain ⟨between, hnodup', hring, rfl, hmem, hsub⟩ :=
    exists_ring_of_cycle hstack hnodup hwaiting hawaits hcycle
  rw [cycleError_congr fun c hc => hs.grows.nameText (hissued c (hsub c hc))]
  exact .cycle hnodup' hring hmem

/-! ## Results of linking -/

section Results

variable (h : Tracks w r) {rest : List ClassId} (hstack : r.resolving = id :: rest)
  (hfill : Filled w id r s)
include h hstack hfill

theorem Tracks.yields {depth : Nat} (hinh : r.Inherits r.Resolved id d r.linksOf)
    (hd : w.decl? id = some d) (hrun : forceAll (force depth) id d r = .value () s)
    (hasm : s.Assembly s.Resolved s.Computed id d s.linksOf links) :
    ∃ d', s.decl? id = some d' ∧ w.Yields id links d' := by
  obtain ⟨above, stage⟩ := h.stage hstack hinh
  obtain ⟨d', hd', -⟩ := hfill.computes.grows.declared (stage.own.trans hd)
  have hlinksOf : s.linksOf = r.linksOf := by
    funext c
    have hc := hfill.standing? h.within c
    unfold linksOf
    rw [hc]
  have hcompose : links = w.compose r.linksOf id d := by
    rw [hasm.links_eq, hlinksOf, compose, inherited_descend hfill.within,
      hfill.within.grows.config]
    rfl
  refine ⟨d', hd', ?_⟩
  rw [hcompose]
  refine .intro hd above (fun ref href => ?_) (fun entry hentry => ?_) stage hrun hd'
  · obtain ⟨p, base, l, hp, ⟨base', hbase', halike⟩, -, hrule⟩ := hinh.admits ref href
    obtain ⟨base'', hbase'', hset⟩ := h.within.decl? hbase'
    rw [h.within.idOf?] at hp
    refine ⟨p, base'', hp, hbase'', fun hv => ?_⟩
    rw [Role.violation?_alike (.refl d) (halike.trans hset.alike.symm)]
    exact hrule (by rw [h.within.grows.config]; exact hv)
  · have hpermits := (hasm.permits entry hentry).descend hfill.within
    rw [inherited_descend hfill.within, hlinksOf] at hpermits
    exact hpermits

theorem Tracks.fails (hcause : RefusedIn BadReference (fun d f _ => w.Uncomputable id d f) id
    (.raised e) s) : w.Fails id e := by
  have hl : ∀ p links, s.Resolved p links → w.Linked p links := by
    intro p links hp
    rw [Resolved, hfill.standing? h.within] at hp
    exact h.linked p links hp
  have hres : s.resolving = r.resolving := hfill.computes.resolving
  rcases (hcause.descend hfill.within hl).own_or_reference with hown | ⟨p, hawaits, e', he, hbad⟩
  · exact .own hown
  · cases he
    rcases hbad with hfailed | hcycle
    · rw [hfill.standing? h.within] at hfailed
      exact .inherited hawaits (h.failed p e hfailed)
    · refine fails_of_cycle hfill.within (hres.trans hstack) ?_ ?_ ?_ hawaits hcycle
      · rw [hres]
        exact fun c hc => h.within.issued_iff.mp (.of_standing? (h.stacked c hc))
      · rw [hres]
        exact h.nodup
      · rw [hres]
        exact h.waiting

end Results

/-! ## Resolution -/

/-- The bound on nesting may be too small: it is less than what the classes need,
or there are values to compute. -/
def Spent (w : Registry) (depth : Nat) (r : Registry) : Prop :=
  depth + r.resolving.length < w.size + 2 ∨ ∃ site source, w.lazy? site = some (.pending source)

/-- Values that are there need no nesting. -/
theorem forceAll_spent (h : Tracks w r) {rest : List ClassId} (hstack : r.resolving = id :: rest)
    (depth : Nat) (d : ClassDecl) :
    (forceAll (force depth) id d r).Meets (fun _ _ => True) (fun _ _ => True)
      (depth = 0 ∨ ∃ site source, w.lazy? site = some (.pending source)) := by
  have hu : r.standing? id = some .unresolved := h.stacked id (by rw [hstack]; exact .head _)
  cases depth with
  | zero =>
    generalize forceAll (force 0) id d r = o
    cases o with
    | tooDeep => exact .inl rfl
    | value a s => trivial
    | failure f s => trivial
  | succ depth =>
    by_cases hp : ∃ site source, w.lazy? site = some (.pending source)
    · generalize forceAll (force (depth + 1)) id d r = o
      cases o with
      | tooDeep => exact .inr hp
      | value a s => trivial
      | failure f s => trivial
    · have hall : forceAll (force (depth + 1)) id d r = .value () r := by
        unfold forceAll
        induction d.lazyMembers with
        | nil => rfl
        | cons m rest ih =>
          have hissued : r.Issued id := .of_standing? hu
          have hcomputed : r.Computed ⟨id, m⟩ := fun source hs =>
            hp ⟨_, source, h.within.grows.pending (h.within.issued_iff.mp hissued) hs⟩
          obtain ⟨v, hv⟩ := force_of_computed depth hissued
            (fun e he => by rw [hu] at he; cases he) hcomputed
          show ((do let _ ← force (depth + 1) ⟨id, m⟩; pure () : Eval Registry Unit) >>= _) r = _
          rw [Eval.bind_apply, Eval.bind_apply, hv]
          exact ih
      rw [hall]
      trivial

theorem Tracks.indexed (hw : w.Fresh) (h : Tracks w r) : r.Indexed := fun name c hc =>
  h.within.issued_iff.mpr (hw.indexed name c (by rw [← h.within.idOf?]; exact hc))

theorem Tracks.length_le (h : Tracks w r) : r.resolving.length ≤ w.size :=
  length_le_of_issued h.nodup fun c hc => h.within.issued_iff.mp (.of_standing? (h.stacked c hc))

/-- One more class on the stack makes up for one more step of nesting. -/
theorem Spent.of_inner {depth : Nat} (h : Spent w depth s) (hs : s.resolving = id :: r.resolving) :
    Spent w (depth + 1) r := by
  rcases h with hlt | hp
  · rw [hs, List.length_cons] at hlt
    exact .inl (by omega)
  · exact .inr hp

theorem Tracks.spent (h : Tracks w r) (hs : r.resolving = id :: s.resolving) : Spent w 1 s := by
  have hlen := h.length_le
  rw [hs, List.length_cons] at hlen
  exact .inl (by omega)

/-- What each step of linking a class that has just been put on the stack does. -/
theorem linkSteps (hw : w.Fresh) (depth : Nat) (D : Prop) (stack : List ClassId)
    (id : ClassId) (d : ClassDecl)
    (hresolve : ∀ q s, Tracks w s → s.resolving = id :: stack → w.Issued q →
      w.Awaits w.Linked id q → (resolveId depth q s).Meets
        (fun _ t => Tracks w t ∧ t.resolving = s.resolving ∧ s.Extends t ∧
          ∃ links, t.Resolved q links)
        (fun f t => Tracks w t ∧ t.resolving = s.resolving ∧ s.Extends t ∧ BadReference q f t) D)
    (hspent : depth = 0 ∨ (∃ site source, w.lazy? site = some (.pending source)) → D) :
    LinkSteps (fun s => Tracks w s ∧ s.resolving = id :: stack)
      (fun _ s => ∃ q, (Tracks w q ∧ q.resolving = id :: stack) ∧ Filled w id q s)
      (fun s => ∃ q, (Tracks w q ∧ q.resolving = id :: stack) ∧ Filled w id q s ∧
        q.Inherits q.Resolved id d q.linksOf ∧ forceAll (force depth) id d q = .value () s)
      BadReference (fun d f _ => w.Uncomputable id d f) D (resolveId depth) (force depth) id d where
  indexed s hs := hs.1.indexed hw
  weaken _ s hs _ := ⟨s, hs, .refl hs.1.within⟩
  lookup name s hs := by
    rw [hs.1.within.lookup]
    cases hname : w.idOf? name with
    | some q => exact ⟨hs, .refl s, by rw [hs.1.within.idOf?]; exact hname⟩
    | none => exact ⟨hs, .refl s, by rw [hs.1.within.idOf?]; exact hname, rfl⟩
  resolve q s hs hq hawaits := by
    have hawaits' := hawaits.descend hs.1.within hs.1.linked
    refine (hresolve q s hs.1 hs.2 (hs.1.within.issued_iff.mp hq) hawaits').imp ?_ ?_ fun h => h
    · exact fun _ t ht => ⟨⟨ht.1, ht.2.1.trans hs.2⟩, ht.2.2⟩
    · exact fun f t ht => ⟨⟨t, ⟨ht.1, ht.2.1.trans hs.2⟩, .refl ht.1.within⟩, ht.2.2⟩
  members s hs hinh := by
    have hmeets := (hs.1.forceAll_meets hw hs.2 hinh depth).and (forceAll_spent hs.1 hs.2 depth d)
    obtain ⟨above, stage⟩ := hs.1.stage hs.2 hinh
    cases hrun : forceAll (force depth) id d s with
    | tooDeep => rw [hrun] at hmeets; exact hspent hmeets.2
    | value u t =>
      rw [hrun] at hmeets
      obtain ⟨⟨hfill, hcomputed⟩, -⟩ := hmeets
      exact ⟨⟨s, hs, hfill, hinh, hrun⟩, hfill.computes.grows, hcomputed⟩
    | failure f t =>
      rw [hrun] at hmeets
      obtain ⟨⟨hfill, hraised⟩, -⟩ := hmeets
      exact ⟨⟨s, hs, hfill⟩, hfill.computes.grows,
        s, t, depth, s.linksOf, s.declOf, above, stage, hrun, hraised⟩

theorem Tracks.filled (h : Tracks w r) {stack : List ClassId} (hstack : r.resolving = id :: stack)
    (hfill : Filled w id r s) :
    s.standing? id = some .unresolved ∧ s.resolving = id :: stack ∧ s.Founded := by
  refine ⟨?_, hfill.computes.resolving.trans hstack,
    (Advances.of_computes hfill.computes).founded h.founded⟩
  rw [hfill.standing? h.within]
  exact h.stacked id (by rw [hstack]; exact .head _)

/-- Resolution keeps track, and settles the class unless it is being linked. -/
theorem resolveId_tracks (hw : w.Fresh) (depth : Nat) :
    ∀ p r, Tracks w r → w.Issued p →
      (∀ outer ∈ r.resolving.head?, w.Awaits w.Linked outer p) →
      (resolveId depth p r).Meets
        (fun _ s => Tracks w s ∧ s.resolving = r.resolving ∧ r.Extends s ∧
          ∃ links, s.Resolved p links)
        (fun f s => Tracks w s ∧ s.resolving = r.resolving ∧ r.Extends s ∧ BadReference p f s)
        (Spent w depth r) := by
  induction depth with
  | zero =>
    intro p r h _ _
    have hlen := h.length_le
    exact .inl (by omega)
  | succ depth ih =>
    intro p r h hp hawaits
    obtain ⟨st, hst⟩ := (h.within.issued_iff.mpr hp).standing?
    cases st with
    | resolved links =>
      rw [resolveId_of_resolved depth hst]
      exact ⟨h, rfl, .refl r, links, hst⟩
    | failed e =>
      rw [resolveId_of_failed depth hst]
      exact ⟨h, rfl, .refl r, e, rfl, .inl hst⟩
    | unresolved =>
      cases hc : r.cycle? p with
      | some e =>
        rw [resolveId_of_cycle depth hst hc]
        exact ⟨h, rfl, .refl r, e, rfl, .inr hc⟩
      | none =>
        have hfresh := cycle?_eq_none_iff.mp hc
        have hbegin := h.beginLinking hst hfresh hawaits
        have hgrows : r.Extends (r.beginLinking p) := .of_eq rfl rfl rfl
        obtain ⟨d, hd⟩ := issued_iff_decl?.mp hp
        have hsteps := linkSteps hw depth (Spent w (depth + 1) r) r.resolving p d ?_ ?_
        · refine resolveId_meets_of_fresh hst hfresh
            (link_meets hsteps ⟨hbegin, rfl⟩ ((h.untouched p hst).trans hd)) ?_ ?_ ?_
          · rintro links s ⟨⟨q, ⟨hq, hstack⟩, hfill, hinh, hrun⟩, hext, hasm⟩
            obtain ⟨hu, hstack', hfounded⟩ := hq.filled hstack hfill
            have hlast : Change s (s.endLinking p (.ok links)) :=
              .linked hstack' hu ⟨d, s.linksOf, hasm⟩
            have hyields := hq.yields hstack hfill hinh hd hrun hasm
            refine ⟨hq.endLinking hfill hstack (hlast.founded hfounded) hyields, ?_,
              hgrows.trans (hext.trans hlast.grows), links, standing?_endLinking hu⟩
            rw [resolving_endLinking, hstack', List.tail_cons]
          · rintro e s ⟨⟨q, ⟨hq, hstack⟩, hfill⟩, hext, hcause⟩
            obtain ⟨hu, hstack', hfounded⟩ := hq.filled hstack hfill
            have hfails := hq.fails hstack hfill hcause
            refine ⟨hq.endLinking hfill hstack (hfounded.refuse hu) hfails, ?_,
              hgrows.trans (hext.trans (extends_endLinking hu)), e, rfl,
              .inl (standing?_endLinking hu)⟩
            rw [resolving_endLinking, hstack', List.tail_cons]
          · rintro i s ⟨⟨q, ⟨hq, hstack⟩, hfill⟩, -, hcause⟩
            obtain ⟨e, he⟩ := hcause.raised (fun _ _ ⟨e, he, _⟩ => ⟨e, he⟩) fun _ _ h => h.raised
            cases he
        · intro q s hs hstack hq hawaits
          refine (ih q s hs hq ?_).imp (fun _ _ h => h) (fun _ _ h => h) fun h => h.of_inner hstack
          rw [hstack]
          intro outer hout
          cases hout
          exact hawaits
        · rintro (rfl | hp)
          · exact hbegin.spent rfl
          · exact .inr hp

end Registry
end Lineage
