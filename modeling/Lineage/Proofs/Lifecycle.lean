/-
The life of a class.

A class is registered once, under a number and a name that it keeps.  What it
declares stays, but for pending values that are computed.  It is unresolved at
first, then resolved or failed, and what it is then it stays.  The theorem of
this file, `Run.lifecycle`, says so of any two states of a run, and that
resolving a settled class again answers as before and changes nothing, not even
the record of what has happened.

Most of it is what `Extends` says of the later state.  What `Extends` cannot say
is that the number of a class is the one its name is bound to, because numbers
wrap: `Numbered` holds as long as there are enough numbers.
-/
import Lineage.Proofs.Change

namespace Lineage

/-! ## Declarations without their values -/

/-- What may become of a value: it stays as it is, or it was pending and has been
computed. -/
inductive Lazy.Becomes : Lazy → Lazy → Prop where
  | same (l : Lazy) : Becomes l l
  | computed (source : Initializer) (v : Value) : Becomes (.pending source) (.settled v)

/-- What may become of a class: it stays as it is, or it was unresolved and has
been settled. -/
inductive Standing.Becomes : Standing → Standing → Prop where
  | same (st : Standing) : Becomes st st
  | resolved (links : Links) : Becomes .unresolved (.resolved links)
  | failed (e : Error) : Becomes .unresolved (.failed e)

/-- The constant with nothing in the place of its value. -/
def ConstantDecl.shape (c : ConstantDecl) : ConstantDecl :=
  { c with value := .settled .null }

/-- The property with nothing in the place of its default, if it has one. -/
def PropertyDecl.shape (p : PropertyDecl) : PropertyDecl :=
  { p with default := p.default.map fun _ => .settled .null }

@[simp] theorem ConstantDecl.shape_settle (v : Value) (c : ConstantDecl) :
    (c.settle v).shape = c.shape := rfl

@[simp] theorem PropertyDecl.shape_settle (v : Value) (p : PropertyDecl) :
    (p.settle v).shape = p.shape := by
  simp [shape, settle, Function.comp_def]

namespace ClassDecl

/-- Everything that a class declares, with nothing in the place of each value. -/
def shape (d : ClassDecl) : ClassDecl :=
  { d with
    constants := d.constants.map ConstantDecl.shape
    properties := d.properties.map PropertyDecl.shape
    constants_filed := by
      intro entry h
      obtain ⟨declared, hdeclared, rfl⟩ := List.mem_map.mp h
      exact d.constants_filed declared hdeclared }

theorem shape_settle (m : LazyMember) (v : Value) (d : ClassDecl) :
    (d.settle m v).shape = d.shape := by
  cases m with
  | constant n =>
    have hconstants : (d.constants.modify n (ConstantDecl.settle v)).map ConstantDecl.shape =
        d.constants.map ConstantDecl.shape := by
      refine Catalog.ext ?_
      simp only [Catalog.map, Catalog.modify, List.map_map]
      refine List.map_congr_left fun entry _ => ?_
      by_cases hn : entry.1 = n <;> simp [hn]
    simp only [shape, settle, settleConstant, hconstants]
  | default i =>
    have hproperties : (d.properties.modify i (PropertyDecl.settle v)).map PropertyDecl.shape =
        d.properties.map PropertyDecl.shape := by
      refine List.ext_getElem? fun j => ?_
      simp only [List.getElem?_map, List.getElem?_modify]
      by_cases hj : i = j
      · cases d.properties[j]? <;> simp [hj]
      · simp [hj]
    simp only [shape, settle, settleDefault, hproperties]

theorem Settles.shape {d d' : ClassDecl} (h : d.Settles d') : d'.shape = d.shape := by
  induction h with
  | refl => rfl
  | tail _ hstep ih =>
    obtain ⟨m, v, rfl⟩ := hstep
    rw [shape_settle, ih]

theorem Settles.becomes {d d' : ClassDecl} (h : d.Settles d') {m : LazyMember} {l : Lazy}
    (hl : d.lazy? m = some l) : ∃ l', d'.lazy? m = some l' ∧ l.Becomes l' := by
  rcases h.lazy? m with hsame | ⟨source, v, hp, hv⟩
  · exact ⟨l, hsame.trans hl, .same l⟩
  · rw [hl] at hp
    cases hp
    exact ⟨_, hv, .computed source v⟩

end ClassDecl

namespace Registry

variable {r s : Registry} {c : ClassId}

/-! ## Numbers and names -/

/-- Every class is bound under its name to its number, if there are as many
numbers as classes. -/
def Numbered (r : Registry) : Prop :=
  r.size ≤ UInt32.size → ∀ c d, r.decl? c = some d → r.idOf? d.name = some c

/-- Nothing is registered, and bindings stay. -/
theorem Numbered.of_extends (hr : r.Numbered) (hs : r.Extends s) (hsize : s.size = r.size) :
    s.Numbered := by
  intro hle c d' hd'
  have hissued : r.Issued c := by
    rw [Issued, ← hsize]
    exact Issued.of_decl? hd'
  obtain ⟨d, hd⟩ := issued_iff_decl?.mp hissued
  obtain ⟨d'', hd'', hset⟩ := hs.declared hd
  rw [hd'] at hd''
  cases hd''
  rw [hset.alike.name]
  exact hs.bound (hr (hsize ▸ hle) c d hd)

/-- A class that is registered gets the next number, which no class has yet. -/
theorem Numbered.append {d : ClassDecl} (hr : r.Numbered) (hfree : r.contains d.name = false) :
    (r.append d).Numbered := by
  intro hle c d' hd'
  rw [size_append] at hle
  by_cases hc : r.Issued c
  · rw [decl?_append hc] at hd'
    exact (extends_append hfree).bound (hr (Nat.le_of_succ_le hle) c d' hd')
  · have hlt : c.index < r.size + 1 := by
      rw [← size_append d r]
      exact Issued.of_decl? hd'
    have hindex : c.index = r.size := Nat.le_antisymm (Nat.lt_succ_iff.mp hlt) (Nat.le_of_not_lt hc)
    have hnumber : c = .ofIndex r.size := by
      rw [← ClassId.index_inj, ClassId.index_ofIndex hle, hindex]
    obtain ⟨found, hfound, rfl⟩ := Option.map_eq_some_iff.mp hd'
    rcases registration?_of_append hfound with hold | rfl
    · exact absurd (issued_iff.mpr ⟨found, hold⟩) hc
    · rw [idOf?_append, if_pos rfl, hnumber]

theorem Change.numbered (h : Change r s) (hr : r.Numbered) : s.Numbered := by
  rcases h.registers with ⟨-, hsize⟩ | ⟨d, hfree, rfl⟩
  · exact hr.of_extends h.grows hsize
  · exact hr.append hfree

theorem Reachable.numbered (hr : r.Reachable) : r.Numbered := by
  obtain ⟨config, hsteps⟩ := hr
  induction hsteps with
  | refl =>
    intro _ c d hd
    cases hd
  | tail _ hstep ih => exact hstep.numbered ih

/-! ## Two states of a run -/

/-- What the second registry, which is later, keeps of the first one. -/
structure Lifecycle (r s : Registry) : Prop where
  /-- A class is bound to its number under its name. -/
  numbered : ∀ {c d}, r.decl? c = some d → r.idOf? d.name = some c ∧ s.idOf? d.name = some c
  bound : ∀ {name c}, r.idOf? name = some c → s.idOf? name = some c
  shape : ∀ {c d}, r.decl? c = some d → ∃ d', s.decl? c = some d' ∧ d'.shape = d.shape
  value : ∀ {site l}, r.lazy? site = some l → ∃ l', s.lazy? site = some l' ∧ l.Becomes l'
  standing : ∀ {c st}, r.standing? c = some st → ∃ st', s.standing? c = some st' ∧ st.Becomes st'
  /-- Resolving a resolved class changes nothing. -/
  resolved : ∀ {c links}, r.links c = .ok links →
    s.links c = .ok links ∧ ∀ depth, resolveId (depth + 1) c s = .value () s
  /-- Resolving a failed class raises its error and changes nothing. -/
  failed : ∀ {c e}, r.resolutionError c = .ok (some e) →
    s.resolutionError c = .ok (some e) ∧
      ∀ depth, resolveId (depth + 1) c s = .failure (.raised e) s

theorem resolutionError_eq_ok_iff {e : Error} :
    r.resolutionError c = .ok (some e) ↔ r.standing? c = some (.failed e) := by
  unfold resolutionError standing? registration
  cases r.registration? c with
  | none => simp [Except.map]
  | some found =>
    unfold Registration.error?
    cases h : found.standing <;> simp [Except.map, h]

theorem Extends.becomes (h : r.Extends s) {st : Standing} (hst : r.standing? c = some st) :
    ∃ st', s.standing? c = some st' ∧ st.Becomes st' := by
  cases st with
  | resolved links => exact ⟨_, h.resolved hst, .same _⟩
  | failed e => exact ⟨_, h.failed hst, .same _⟩
  | unresolved =>
    obtain ⟨st', hst'⟩ := (h.issued (.of_standing? hst)).standing?
    cases st' with
    | unresolved => exact ⟨_, hst', .same _⟩
    | resolved links => exact ⟨_, hst', .resolved links⟩
    | failed e => exact ⟨_, hst', .failed e⟩

theorem Lifecycle.of_extends (hr : r.Reachable) (hs : r.Extends s)
    (hsize : s.size < UInt32.size) : Lifecycle r s where
  numbered hd := by
    have hbound := hr.numbered (Nat.le_trans hs.size_le (Nat.le_of_lt hsize)) _ _ hd
    exact ⟨hbound, hs.bound hbound⟩
  bound := hs.bound
  shape hd := by
    obtain ⟨d', hd', hset⟩ := hs.declared hd
    exact ⟨d', hd', hset.shape⟩
  value {site l} hl := by
    obtain ⟨d, hd, hm⟩ := Option.bind_eq_some_iff.mp hl
    obtain ⟨d', hd', hset⟩ := hs.declared hd
    obtain ⟨l', hl', hbecomes⟩ := hset.becomes hm
    exact ⟨l', by rw [lazy?, hd']; exact hl', hbecomes⟩
  standing := hs.becomes
  resolved hl := by
    have hresolved := hs.resolved (links_eq_ok_iff.mp hl)
    exact ⟨links_eq_ok_iff.mpr hresolved, fun depth => resolveId_of_resolved depth hresolved⟩
  failed he := by
    have hfailed := hs.failed (resolutionError_eq_ok_iff.mp he)
    exact ⟨resolutionError_eq_ok_iff.mpr hfailed, fun depth => resolveId_of_failed depth hfailed⟩

/-- Whatever is done between two states of a run, with any hook and any sources:
a class keeps its number, its name and what it declares, values are computed once,
and a settled class stays as it is.  Resolving it again changes nothing, not even
the record of events: no hook is asked and nothing is evaluated. -/
theorem Run.lifecycle {config : Config} {before after : List Operation}
    (h : Run (new config) before r) (h' : Run r after s) (hsize : s.size < UInt32.size) :
    Lifecycle r s :=
  .of_extends h.reachable (h'.advances h.idle.1).grows hsize

/-- A value is computed, a class is resolved, and another one has failed already. -/
theorem Run.lifecycle_of_three_classes :
    let decls : List ClassDecl :=
      [.addConstant { name := "X", value := .pending (.expr (.literal (.int 1))) }
          { name := ⟨"A"⟩ },
        { name := ⟨"B"⟩, parent := some ⟨"A"⟩ }, { name := ⟨"C"⟩, parent := some ⟨"Ghost"⟩ }]
    ∃ r s, Run (new {}) (decls.map .register ++ [.resolveId ⟨2⟩, .resolveId ⟨0⟩]) r ∧
      Run r [.resolveAll, .declare { name := ⟨"Ghost"⟩ }] s ∧ s.size < UInt32.size ∧
      Lifecycle r s ∧ resolveId 5 ⟨2⟩ s = .failure (.raised (.classNotFound "Ghost")) s := by
  intro decls
  have hrun : ((performAll 9 (decls.map .register ++ [.resolveId ⟨2⟩, .resolveId ⟨0⟩])
      (new {})).bind fun r =>
        (performAll 9 [.resolveAll, .declare { name := ⟨"Ghost"⟩ }] r).map fun s =>
          (r.resolutionError ⟨2⟩, s.size)) =
      some (.ok (some (.classNotFound "Ghost")), 4) := rfl
  obtain ⟨r, hr, hrest⟩ := Option.bind_eq_some_iff.mp hrun
  obtain ⟨s, hs, hresults⟩ := Option.map_eq_some_iff.mp hrest
  rw [Prod.mk.injEq] at hresults
  obtain ⟨hfailed, hfour⟩ := hresults
  have hsize : s.size < UInt32.size := by
    rw [hfour]
    decide
  have hlife := Run.lifecycle (.of_performAll hr) (.of_performAll hs) hsize
  exact ⟨r, s, .of_performAll hr, .of_performAll hs, hsize, hlife, (hlife.failed hfailed).2 4⟩

end Registry
end Lineage
