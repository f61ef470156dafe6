/-
Reported cycles.

A class that is met again while it is being linked ends its resolution: the error
names the classes from it to the innermost one, and each of them fails with this
error on the way out.  The theorem of this file, `Run.reported_cycle`, reads such
an error wherever it is stored: the names lead along declared references back to
the first one, and every class that is named has failed with the very same error.

While the error is on its way out, some of the classes that it names have failed
and the others are still on the stack; that is `Unwinding`.  It is the only error
of which this can be true, as nothing catches it before the outermost class of the
ring.  For this no source may raise such an error on its own, so the sources are
taken to be expressions.
-/
import Lineage.Proofs.Lifecycle
import Lineage.Proofs.Resolution
import Lineage.Proofs.Supply

namespace Lineage

theorem Error.not_cycle_of_isOfExpression {e : Error} (h : e.isOfExpression = true) :
    e.isInheritanceCycle = false := by
  cases e with
  | inheritanceCycle name chain => cases h
  | _ => rfl

theorem Error.not_cycle_of_isOfLinking {e : Error} (h : e.isOfLinking = true) :
    e.isInheritanceCycle = false := by
  cases e with
  | inheritanceCycle name chain => cases h
  | _ => rfl

namespace Registry

variable {r s : Registry} {c p id : ClassId} {e : Error} {links : Links}

/-! ## Rings -/

/-- The error is that of a ring of classes, each of which refers to the next one
and the last to the first, and all of them have the property. -/
def Rings (r : Registry) (member : ClassId → Prop) (e : Error) : Prop :=
  ∃ first rest, (first :: rest).Nodup ∧ List.IsChain r.Refers (first :: rest ++ [first]) ∧
    e = r.cycleError first rest ∧ ∀ c ∈ first :: rest, member c

theorem Refers.issued (h : r.Refers c p) : r.Issued c := by
  obtain ⟨d, _, hd, -⟩ := h
  exact .of_decl? hd

theorem Rings.mono {P Q : ClassId → Prop} (hs : r.Extends s) (h : r.Rings P e)
    (hPQ : ∀ c, P c → Q c) : s.Rings Q e := by
  obtain ⟨first, rest, hnodup, hring, rfl, hmember⟩ := h
  have hnames : ∀ c ∈ first :: rest, s.nameText c = r.nameText c := by
    intro c hc
    obtain ⟨p, -, hp⟩ := exists_next hring hc
    exact hs.nameText hp.issued
  refine ⟨first, rest, hnodup, hring.imp fun _ _ h => Refers.mono hs h, ?_,
    fun c hc => hPQ c (hmember c hc)⟩
  exact (cycleError_congr hnames).symm

/-- The error is that of a ring of classes that have all failed with it. -/
def Dooms (r : Registry) (e : Error) : Prop :=
  r.Rings (fun c => r.standing? c = some (.failed e)) e

theorem Dooms.mono (hs : r.Extends s) (h : r.Dooms e) : s.Dooms e :=
  Rings.mono hs h fun _ hc => hs.failed hc

/-! ## States of resolution -/

/-- The classes being linked are distinct, none is settled, and each of them
refers to the next inner one. -/
structure Stacked (r : Registry) : Prop where
  indexed : r.Indexed
  supplied : r.Supplied ClassDecl.Plain
  nodup : r.resolving.Nodup
  unresolved : ∀ c ∈ r.resolving, r.standing? c = some .unresolved
  waiting : r.resolving.IsChain fun inner outer => r.Refers outer inner

/-- The class can be resolved next: what is being linked refers to it. -/
def Follows (r : Registry) (p : ClassId) : Prop :=
  ∀ outer ∈ r.resolving.head?, r.Refers outer p

/-- Every cycle that stands in a failed class dooms all its classes. -/
structure Whole (r : Registry) : Prop extends Stacked r where
  doomed : ∀ c e, r.standing? c = some (.failed e) → e.isInheritanceCycle = true → r.Dooms e

/-- An error is on its way out.  If it is a cycle, each of its classes has failed
with it or is still being linked. -/
structure Unwinding (r : Registry) (e : Error) : Prop extends Stacked r where
  others : ∀ c e', r.standing? c = some (.failed e') → e'.isInheritanceCycle = true → e' ≠ e →
    r.Dooms e'
  own : e.isInheritanceCycle = true →
    r.Rings (fun c => r.standing? c = some (.failed e) ∨ c ∈ r.resolving) e

theorem Stacked.of_advances (h : r.Stacked) (hs : Advances r s)
    (hsupplied : s.Supplied ClassDecl.Plain) : s.Stacked where
  indexed := hs.indexed h.indexed
  supplied := hsupplied
  nodup := hs.resolving ▸ h.nodup
  unresolved c hc := by
    rw [hs.resolving] at hc
    exact hs.held c hc (h.unresolved c hc)
  waiting := by
    rw [hs.resolving]
    exact h.waiting.imp fun _ _ href => Refers.mono hs.grows href

theorem Stacked.beginLinking (h : r.Stacked) (hu : r.standing? p = some .unresolved)
    (hfresh : p ∉ r.resolving) (hp : r.Follows p) : (r.beginLinking p).Stacked where
  indexed := h.indexed
  supplied := h.supplied.of_eq rfl fun _ => rfl
  nodup := List.nodup_cons.mpr ⟨hfresh, h.nodup⟩
  unresolved c hc := by
    rcases List.mem_cons.mp hc with rfl | hc
    · exact hu
    · exact h.unresolved c hc
  waiting := List.isChain_cons.mpr ⟨hp, h.waiting⟩

theorem Stacked.endLinking {rest : List ClassId} (h : r.Stacked) (hstack : r.resolving = id :: rest)
    (result : Except Error Links) : (r.endLinking id result).Stacked := by
  have hu : r.standing? id = some .unresolved :=
    h.unresolved id (by rw [hstack]; exact List.mem_cons_self)
  have hext : r.Extends (r.endLinking id result) := extends_endLinking hu
  have hnodup := h.nodup
  have hwaiting := h.waiting
  rw [hstack] at hnodup hwaiting
  have hres : (r.endLinking id result).resolving = rest := by
    rw [resolving_endLinking, hstack, List.tail_cons]
  refine ⟨h.indexed.of_extends hext ?_, (stable_supplied _).endedLinking id result r h.supplied,
    ?_, fun c hc => ?_, ?_⟩
  · cases result <;> rfl
  · rw [hres]
    exact (List.nodup_cons.mp hnodup).2
  · rw [hres] at hc
    have hne : c ≠ id := fun heq => (List.nodup_cons.mp hnodup).1 (heq ▸ hc)
    rw [standing?_endLinking_of_ne hne]
    exact h.unresolved c (by rw [hstack]; exact List.mem_cons_of_mem id hc)
  · rw [hres]
    exact (List.isChain_cons.mp hwaiting).2.imp fun _ _ href => Refers.mono hext href

/-- As long as no class fails, nothing changes. -/
theorem Whole.of_since (h : r.Whole) (hs : Advances r s) (hsince : Since r s) : s.Whole where
  toStacked := h.toStacked.of_advances hs hsince.supplied
  doomed c e hc he := (h.doomed c e (hsince.failed c e hc) he).mono hs.grows

/-- An error that is no cycle, or stands in a class already, is on its way out. -/
theorem Whole.unwinding (h : r.Whole)
    (he : e.isInheritanceCycle = true → ∃ c, r.standing? c = some (.failed e)) :
    r.Unwinding e where
  toStacked := h.toStacked
  others c e' hc hcycle _ := h.doomed c e' hc hcycle
  own hcycle := by
    obtain ⟨c, hc⟩ := he hcycle
    exact Rings.mono (.refl r) (h.doomed c e hc hcycle) fun _ hx => .inl hx

/-- A class that is met again: nothing of its ring has failed yet. -/
theorem Whole.unwinding_of_cycle (h : r.Whole) (hp : r.Follows p) (hc : r.cycle? p = some e) :
    r.Unwinding e where
  toStacked := h.toStacked
  others c e' hfailed hcycle _ := h.doomed c e' hfailed hcycle
  own _ := by
    cases hstack : r.resolving with
    | nil =>
      have hnone : r.cycle? p = none := by
        rw [cycle?_eq_none_iff, hstack]
        exact List.not_mem_nil
      rw [hnone] at hc
      cases hc
    | cons id rest =>
      obtain ⟨between, hnodup, hring, herror, -, hsub⟩ := exists_ring_of_cycle hstack h.nodup
        h.waiting (hp id (by rw [hstack]; rfl)) hc
      exact ⟨p, between, hnodup, hring, herror, fun c hc => .inr (hstack ▸ hsub c hc)⟩

/-- Outside of every resolution the error has reached all its classes. -/
theorem Unwinding.whole (h : r.Unwinding e) (hres : r.resolving = []) : r.Whole where
  toStacked := h.toStacked
  doomed c e' hc hcycle := by
    by_cases heq : e' = e
    · subst heq
      refine Rings.mono (.refl r) (h.own hcycle) fun x hx => ?_
      rcases hx with hx | hx
      · exact hx
      · rw [hres] at hx
        cases hx
    · exact h.others c e' hc hcycle heq

theorem Whole.beginLinking (h : r.Whole) (hu : r.standing? p = some .unresolved)
    (hfresh : p ∉ r.resolving) (hp : r.Follows p) : (r.beginLinking p).Whole where
  toStacked := h.toStacked.beginLinking hu hfresh hp
  doomed c e hc he := Dooms.mono (.of_eq rfl rfl rfl) (h.doomed c e hc he)

theorem Whole.endLinking {rest : List ClassId} (h : r.Whole) (hstack : r.resolving = id :: rest)
    (links : Links) : (r.endLinking id (.ok links)).Whole where
  toStacked := h.toStacked.endLinking hstack (.ok links)
  doomed c e hc he := by
    have hu : r.standing? id = some .unresolved :=
      h.unresolved id (by rw [hstack]; exact List.mem_cons_self)
    by_cases hcid : c = id
    · rw [hcid, standing?_endLinking hu] at hc
      cases hc
    · rw [standing?_endLinking_of_ne hcid] at hc
      exact (h.doomed c e hc he).mono (extends_endLinking hu)

/-- The innermost class fails with the error that is on its way out. -/
theorem Unwinding.endLinking {rest : List ClassId} (h : r.Unwinding e)
    (hstack : r.resolving = id :: rest) : (r.endLinking id (.error e)).Unwinding e where
  toStacked := h.toStacked.endLinking hstack (.error e)
  others c e' hc hcycle hne := by
    have hu : r.standing? id = some .unresolved :=
      h.unresolved id (by rw [hstack]; exact List.mem_cons_self)
    by_cases hcid : c = id
    · rw [hcid, standing?_endLinking hu] at hc
      cases hc
      exact absurd rfl hne
    · rw [standing?_endLinking_of_ne hcid] at hc
      exact (h.others c e' hc hcycle hne).mono (extends_endLinking hu)
  own hcycle := by
    have hu : r.standing? id = some .unresolved :=
      h.unresolved id (by rw [hstack]; exact List.mem_cons_self)
    have hext : r.Extends (r.endLinking id (.error e)) := extends_endLinking hu
    refine Rings.mono hext (h.own hcycle) fun c hc => ?_
    rcases hc with hc | hc
    · exact .inl (hext.failed hc)
    · rw [hstack] at hc
      rcases List.mem_cons.mp hc with rfl | hc
      · exact .inl (standing?_endLinking hu)
      · right
        rw [resolving_endLinking, hstack]
        exact hc

/-! ## Resolution -/

/-- From a state on, names are looked up and values computed; an error that this
raises is no cycle, or is the error of a class that had failed. -/
theorem steady_of_whole (r : Registry) :
    Steady (Since r) fun e => e.isInheritanceCycle = true →
      ∃ c, r.standing? c = some (.failed e) := by
  refine steady_since (fun c e hc _ => ⟨c, hc⟩) fun e he hcycle => ?_
  rw [Error.not_cycle_of_isOfExpression he] at hcycle
  cases hcycle

/-- What each step of linking a class does to the rings: none is closed unless
the next class is met again, and nothing is caught. -/
theorem linkSteps_whole {depth : Nat} {stack : List ClassId} {d : ClassDecl}
    (hresolve : ∀ q s, Whole s → s.Issued q → s.Follows q → (resolveId depth q s).Meets
      (fun _ t => t.Whole) (fun f t => ∃ e, f = .raised e ∧ t.Unwinding e) True) :
    LinkSteps (fun s => s.Whole ∧ s.resolving = id :: stack)
      (fun f s => (∃ e, f = .raised e ∧ s.Unwinding e) ∧ s.resolving = id :: stack)
      (fun s => s.Whole ∧ s.resolving = id :: stack) (fun _ _ _ => True) (fun _ _ _ => True) True
      (resolveId depth) (force depth) id d where
  indexed s hs := hs.1.indexed
  weaken e s hs he := by
    refine ⟨⟨e, rfl, hs.1.unwinding fun hcycle => ?_⟩, hs.2⟩
    rw [Error.not_cycle_of_isOfLinking he] at hcycle
    cases hcycle
  lookup name s hs := by
    refine ((lookup_advances name s).and
      ((steady_of_whole s).lookup name s hs.1.supplied.since)).imp ?_ ?_ fun h => h.1.elim
    · rintro q t ⟨⟨hadv, hq⟩, hsince⟩
      exact ⟨⟨hs.1.of_since hadv hsince, hadv.resolving.trans hs.2⟩, hadv.grows, hq⟩
    · rintro f t ⟨⟨hadv, hq⟩, hsince, -⟩
      exact ⟨⟨hs.1.of_since hadv hsince, hadv.resolving.trans hs.2⟩, hadv.grows, hq⟩
  resolve q s hs hq hawaits := by
    have hfollows : s.Follows q := by
      intro outer hout
      rw [hs.2] at hout
      cases hout
      exact hawaits.refers
    refine ((hresolve q s hs.1 hq hfollows).and
      (resolveId_advances depth q s hs.1.indexed hq)).imp ?_ ?_ fun h => h.1
    · rintro _ t ⟨ht, hadv, hlinks⟩
      exact ⟨⟨ht, hadv.resolving.trans hs.2⟩, hadv.grows, hlinks⟩
    · rintro f t ⟨ht, hadv, -⟩
      exact ⟨⟨ht, hadv.resolving.trans hs.2⟩, hadv.grows, trivial⟩
  members s hs hinh := by
    refine ((forceAll_meets depth d hs.1.indexed hinh.declares.issued).and
      ((steady_of_whole s).forceAll depth id d s hs.1.supplied.since)).imp ?_ ?_ fun h => h.1
    · rintro _ t ⟨⟨ht, hcomputed⟩, hsince⟩
      have hadv := Advances.of_computes ht
      exact ⟨⟨hs.1.of_since hadv hsince, hadv.resolving.trans hs.2⟩, hadv.grows, hcomputed⟩
    · rintro f t ⟨⟨ht, _, _, _, e, -, -, rfl⟩, hsince, hstored⟩
      have hadv := Advances.of_computes ht
      refine ⟨⟨⟨e, rfl, (hs.1.of_since hadv hsince).unwinding fun hcycle => ?_⟩,
        hadv.resolving.trans hs.2⟩, hadv.grows, trivial⟩
      obtain ⟨c, hc⟩ := hstored e rfl hcycle
      exact ⟨c, hadv.grows.failed hc⟩

/-- Resolution closes rings only by meeting a class again, and then the error is
on its way out to that class. -/
theorem resolveId_whole (depth : Nat) :
    ∀ p r, Whole r → r.Issued p → r.Follows p → (resolveId depth p r).Meets
      (fun _ s => s.Whole) (fun f s => ∃ e, f = .raised e ∧ s.Unwinding e) True := by
  induction depth with
  | zero => intro p r _ _ _; exact trivial
  | succ depth ih =>
    intro p r h hp hfollows
    obtain ⟨st, hst⟩ := hp.standing?
    cases st with
    | resolved links =>
      rw [resolveId_of_resolved depth hst]
      exact h
    | failed e =>
      rw [resolveId_of_failed depth hst]
      exact ⟨e, rfl, h.unwinding fun _ => ⟨p, hst⟩⟩
    | unresolved =>
      cases hc : r.cycle? p with
      | some e =>
        rw [resolveId_of_cycle depth hst hc]
        exact ⟨e, rfl, h.unwinding_of_cycle hfollows hc⟩
      | none =>
        have hfresh := cycle?_eq_none_iff.mp hc
        obtain ⟨d, hd⟩ := issued_iff_decl?.mp hp
        have hbegin := h.beginLinking hst hfresh hfollows
        refine resolveId_meets_of_fresh hst hfresh
          (link_meets (linkSteps_whole ih) ⟨hbegin, rfl⟩ hd) ?_ ?_ ?_
        · rintro links s ⟨⟨hs, hstack⟩, -⟩
          exact hs.endLinking hstack links
        · rintro e s ⟨⟨⟨e', he, hs⟩, hstack⟩, -⟩
          cases he
          exact ⟨e, rfl, hs.endLinking hstack⟩
        · rintro i s ⟨⟨⟨e, he, -⟩, -⟩, -⟩
          cases he

/-! ## Operations -/

/-- Between operations nothing is on its way out. -/
structure Quiet (r : Registry) : Prop extends Whole r where
  idle : r.resolving = []

theorem Quiet.follows (h : r.Quiet) (p : ClassId) : r.Follows p := by
  intro outer hout
  rw [h.idle] at hout
  cases hout

theorem resolveId_quiet (depth : Nat) (p : ClassId) :
    Maintains Quiet (fun _ => True) (resolveId depth p) := by
  intro r h
  by_cases hp : r.Issued p
  · refine ((resolveId_whole depth p r h.toWhole hp (h.follows p)).and
      (resolveId_advancing depth p h.indexed)).imp ?_ ?_ fun h => h.1
    · rintro _ s ⟨hs, hadv⟩
      exact ⟨hs, hadv.resolving.trans h.idle⟩
    · rintro f s ⟨⟨e, -, hs⟩, hadv⟩
      have hidle := hadv.resolving.trans h.idle
      exact ⟨⟨hs.whole hidle, hidle⟩, fun _ _ => trivial⟩
  · cases depth with
    | zero => exact trivial
    | succ depth =>
      rw [resolveId_of_unissued depth hp]
      exact ⟨h, fun _ _ => trivial⟩

/-- What lets no class fail leaves every ring as it is. -/
theorem keptSince_quiet : KeptSince Quiet where
  indexed h := h.indexed
  supplied h := h.supplied
  since h hadv hs := ⟨h.toWhole.of_since hadv hs, hadv.resolving.trans h.idle⟩

theorem quiet_new (config : Config) : (new config).Quiet where
  indexed := indexed_new config
  supplied := ⟨fun loader hl => (by cases hl), fun c d hd => (by cases hd)⟩
  nodup := List.nodup_nil
  unresolved c hc := by cases hc
  waiting := .nil
  doomed c e hc := by cases hc
  idle := rfl

theorem Run.quiet {config : Config} {ops : List Operation} (h : Run (new config) ops r)
    (hops : ∀ op ∈ ops, op.Supplies ClassDecl.Plain) : r.Quiet :=
  Maintains.run h (fun op hop depth => keptSince_quiet.perform (hops op hop)
    (resolveId_quiet depth)) (quiet_new config)

/-! ## Reported cycles -/

/-- The names `chain` of a reported cycle lead from `name` back to it, along what
the classes declare, and all these classes have failed with this error. -/
structure RealCycle (r : Registry) (name : String) (chain : List String) : Prop where
  length : 2 ≤ chain.length
  first : chain.head? = some name
  last : chain.getLast? = some name
  /-- Before it comes back, the chain names no class twice, in any letter case. -/
  distinct : (chain.dropLast.map Text.fold).Nodup
  /-- Each class declares the next one as its parent or as one of its interfaces. -/
  declared : chain.IsChain fun a b => ∃ x y, r.idOf? ⟨a⟩ = some x ∧ r.idOf? ⟨b⟩ = some y ∧
    r.Refers x y
  doomed : ∀ a ∈ chain, ∃ x, r.idOf? ⟨a⟩ = some x ∧
    r.resolutionError x = .ok (some (.inheritanceCycle name chain))

/-- A class is bound under its displayed name, if there are enough numbers. -/
theorem Numbered.idOf?_nameText (hr : r.Numbered) (hsize : r.size ≤ UInt32.size)
    (hc : r.Issued c) : r.idOf? ⟨r.nameText c⟩ = some c := by
  obtain ⟨d, hd⟩ := issued_iff_decl?.mp hc
  rw [nameText_eq hd]
  exact hr hsize c d hd

theorem Dooms.realCycle {name : String} {chain : List String} (hr : r.Numbered)
    (hsize : r.size ≤ UInt32.size) (h : r.Dooms (.inheritanceCycle name chain)) :
    RealCycle r name chain := by
  obtain ⟨first, rest, hnodup, hring, herror, hfailed⟩ := h
  rw [cycleError, Error.inheritanceCycle.injEq] at herror
  obtain ⟨hname, hchain⟩ := herror
  have hmem : ∀ c ∈ first :: rest ++ [first], c ∈ first :: rest := by
    intro c hc
    rcases List.mem_append.mp hc with hc | hc
    · exact hc
    · rw [List.mem_singleton.mp hc]
      exact List.mem_cons_self
  have hbound : ∀ c ∈ first :: rest, r.idOf? ⟨r.nameText c⟩ = some c := by
    intro c hc
    obtain ⟨p, -, hp⟩ := exists_next hring hc
    exact hr.idOf?_nameText hsize hp.issued
  have hopen : chain.dropLast = (first :: rest).map r.nameText := by
    rw [hchain, List.map_append, List.map_singleton, List.dropLast_concat]
  refine ⟨?_, ?_, ?_, ?_, ?_, fun a ha => ?_⟩
  · rw [hchain, List.length_map, List.length_append, List.length_cons, List.length_singleton]
    omega
  · rw [hchain, hname]
    rfl
  · rw [hchain, hname, List.map_append, List.map_singleton, List.getLast?_concat]
  · rw [hopen, List.map_map]
    refine List.Nodup.map_on (fun c hc c' hc' hsame => ?_) hnodup
    have hkey : r.idOf? ⟨r.nameText c⟩ = r.idOf? ⟨r.nameText c'⟩ :=
      congrArg r.index.get? hsame
    rw [hbound c hc, hbound c' hc'] at hkey
    exact Option.some.inj hkey
  · rw [hchain, List.isChain_map]
    refine hring.imp_of_mem_imp fun c p hc hp href => ?_
    exact ⟨c, p, hbound c (hmem c hc), hbound p (hmem p hp), href⟩
  · rw [hchain] at ha
    obtain ⟨c, hc, rfl⟩ := List.mem_map.mp ha
    refine ⟨c, hbound c (hmem c hc), resolutionError_eq_ok_iff.mpr (hfailed c (hmem c hc))⟩

/-- Whatever has been done to a registry whose sources are expressions: a cycle
that stands in a class is real, and all its classes have failed with it. -/
theorem Run.reported_cycle {config : Config} {ops : List Operation} {name : String}
    {chain : List String} (h : Run (new config) ops r)
    (hops : ∀ op ∈ ops, op.Supplies ClassDecl.Plain) (hsize : r.size < UInt32.size)
    (hc : r.resolutionError c = .ok (some (.inheritanceCycle name chain))) :
    RealCycle r name chain :=
  ((h.quiet hops).doomed c _ (resolutionError_eq_ok_iff.mp hc) rfl).realCycle h.reachable.numbered
    (Nat.le_of_lt hsize)

/-- A class is resolved first that is outside of a ring of two classes and an
interface; its own constant is not computed. -/
theorem Run.reported_cycle_through_interface :
    let decls : List ClassDecl :=
      [.addConstant { name := "X", value := .pending (.expr (.constant .parent "Y")) }
          { name := ⟨"D"⟩, parent := some ⟨"a"⟩ },
        { name := ⟨"A"⟩, parent := some ⟨"B"⟩ },
        { name := ⟨"B"⟩, interfaces := [⟨"I"⟩] },
        { name := ⟨"I"⟩, kind := .interface, interfaces := [⟨"A"⟩] }]
    let ops : List Operation := decls.map .register ++ [.resolveAll]
    ∃ r, Run (new {}) ops r ∧ (∀ op ∈ ops, op.Supplies ClassDecl.Plain) ∧ r.size < UInt32.size ∧
      r.resolutionError ⟨0⟩ = .ok (some (.inheritanceCycle "A" ["A", "B", "I", "A"])) ∧
      RealCycle r "A" ["A", "B", "I", "A"] := by
  intro decls ops
  have hrun : (performAll 9 ops (new {})).map (fun r => (r.size, r.resolutionError ⟨0⟩)) =
      some (4, .ok (some (.inheritanceCycle "A" ["A", "B", "I", "A"]))) := rfl
  obtain ⟨r, hr, hresults⟩ := Option.map_eq_some_iff.mp hrun
  rw [Prod.mk.injEq] at hresults
  obtain ⟨hsize, herror⟩ := hresults
  have hsmall : r.size < UInt32.size := by rw [hsize]; decide
  have hplain : ∀ d ∈ decls, d.Plain := by decide
  have hops : ∀ op ∈ ops, op.Supplies ClassDecl.Plain := by
    intro op hop
    rcases List.mem_append.mp hop with hop | hop
    · obtain ⟨d, hd, rfl⟩ := List.mem_map.mp hop
      exact ⟨fun d' hd' => by cases hd'; exact hplain d hd, fun loader hl => by cases hl⟩
    · rw [List.mem_singleton.mp hop]
      exact ⟨fun d hd => (by cases hd), fun loader hl => by cases hl⟩
  exact ⟨r, .of_performAll hr, hops, hsmall, herror,
    Run.reported_cycle (.of_performAll hr) hops hsmall herror⟩

end Registry
end Lineage
