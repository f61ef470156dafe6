/-
How deep a registry is in the middle of an operation.

The theorem of this file is `Reachable.nested`: in no state that a registry gets
into is a class being linked twice, or a value in progress twice.  So no more
classes are being linked than are registered, and no more values are in progress
than these classes have.
-/
import Lineage.Proofs.Meaning

namespace Lineage
namespace Registry

variable {r s : Registry}

/-! ## Names and classes -/

/-- The names in use are those of the registered classes, in the same order. -/
def Listed (r : Registry) : Prop :=
  r.index.names = r.registrations.map fun found => found.decl.name.key

theorem Listed.length_names (h : r.Listed) : r.index.names.length = r.size := by
  rw [h, List.length_map, size]

theorem Listed.key_mem {c : ClassId} {d : ClassDecl} (h : r.Listed) (hd : r.decl? c = some d) :
    d.name.key ∈ r.index.names := by
  obtain ⟨found, hf, rfl⟩ := Option.map_eq_some_iff.mp hd
  rw [h]
  exact List.mem_map.mpr ⟨found, List.mem_of_getElem? hf, rfl⟩

theorem Listed.append {d : ClassDecl} (h : r.Listed) (hfree : r.contains d.name = false) :
    (r.append d).Listed := by
  have hnew : d.name.key ∉ r.index.names := by
    intro hmem
    rw [contains, Catalog.contains_iff.mpr hmem] at hfree
    cases hfree
  have hlist : (r.append d).registrations = r.registrations ++ [{ decl := d }] := rfl
  show (r.index.put d.name.key _).names = _
  rw [Catalog.names_put, if_neg hnew, h, hlist, List.map_append]
  rfl

theorem Listed.updateAt {f : Registration → Registration} (h : r.Listed) (id : ClassId)
    (hf : ∀ found, (f found).decl.name = found.decl.name) : (r.updateAt id f).Listed := by
  show r.index.names = _
  rw [h]
  refine List.ext_getElem? fun i => ?_
  rw [List.getElem?_map, List.getElem?_map]
  show _ = Option.map _ (r.registrations.modify id.index f)[i]?
  rw [List.getElem?_modify]
  by_cases hi : id.index = i
  · cases r.registrations[i]? <;> simp [hi, hf]
  · simp [hi]

theorem Change.listed (h : Change r s) (hr : r.Listed) : s.Listed := by
  have hsettle : ∀ q : Registry, q.Listed → ∀ site v, (q.settle site v).Listed :=
    fun q hq site v => hq.updateAt site.owner fun found => by simp
  cases h with
  | compute h =>
    cases h with
    | load h =>
      cases h with
      | requested hook unbound => exact hr
      | registered free => exact hr.append free
    | noted label => exact hr
    | began pending usable fresh => exact hr
    | ended innermost result =>
      cases result with
      | ok v => exact hsettle _ hr _ v
      | error e => exact hr
  | hooked loader => exact hr
  | beganLinking unresolved fresh => exact hr
  | linked innermost unresolved assembled => exact Listed.updateAt hr _ fun _ => rfl
  | refused innermost unresolved cause => exact Listed.updateAt hr _ fun _ => rfl
  | seeded resolved registered untouched => exact Listed.updateAt hr _ fun _ => rfl
  | assigned registered touched table' => exact Listed.updateAt hr _ fun _ => rfl

theorem Reachable.listed (hr : r.Reachable) : r.Listed := by
  obtain ⟨config, hsteps⟩ := hr
  induction hsteps with
  | refl => rfl
  | tail _ hstep ih => exact hstep.listed ih

/-! ## What is being linked and what is in progress -/

/-- The classes being linked are distinct registered classes, and the values in
progress are distinct values of registered classes. -/
structure Nested (r : Registry) : Prop where
  resolving : r.resolving.Nodup
  linked : ∀ c ∈ r.resolving, r.Issued c
  evaluating : r.evaluating.Nodup
  valued : ∀ site ∈ r.evaluating, ∃ l, r.lazy? site = some l

theorem Extends.exists_lazy? (h : r.Extends s) {site : LazySite} {l : Lazy}
    (hl : r.lazy? site = some l) : ∃ l', s.lazy? site = some l' := by
  obtain ⟨d, hd, hm⟩ := Option.bind_eq_some_iff.mp hl
  obtain ⟨d', hd', hset⟩ := h.declared hd
  have hlazy : s.lazy? site = d'.lazy? site.member := by
    rw [lazy?, hd', Option.bind_some]
  rw [hlazy]
  rcases hset.lazy? site.member with hsame | ⟨_, v, -, hv⟩
  · exact ⟨l, hsame.trans hm⟩
  · exact ⟨.settled v, hv⟩

/-- What is taken off a stack leaves the rest as it was. -/
theorem Nested.of_sublist (h : r.Nested) (hs : r.Extends s)
    (hres : s.resolving.Sublist r.resolving) (heval : s.evaluating.Sublist r.evaluating) :
    s.Nested where
  resolving := h.resolving.sublist hres
  linked c hc := hs.issued (h.linked c (hres.subset hc))
  evaluating := h.evaluating.sublist heval
  valued site hsite := by
    obtain ⟨l, hl⟩ := h.valued site (heval.subset hsite)
    exact hs.exists_lazy? hl

theorem Nested.endLinking (h : r.Nested) {id : ClassId} {result : Except Error Links}
    (hs : r.Extends (r.endLinking id result)) : (r.endLinking id result).Nested := by
  refine h.of_sublist hs ?_ ?_
  · rw [resolving_endLinking]
    exact List.tail_sublist _
  · rw [evaluating_endLinking]

/-- A class is put on the stack only if it is not there, and so is a value. -/
theorem Change.nested (h : Change r s) (hr : r.Nested) : s.Nested := by
  have hs := h.grows
  cases h with
  | compute h =>
    cases h with
    | load h => cases h <;> exact hr.of_sublist hs (List.Sublist.refl _) (List.Sublist.refl _)
    | noted label => exact hr.of_sublist hs (List.Sublist.refl _) (List.Sublist.refl _)
    | @began site source pending usable fresh =>
      refine ⟨hr.resolving, hr.linked, List.nodup_cons.mpr ⟨fresh, hr.evaluating⟩, ?_⟩
      intro other hother
      rcases List.mem_cons.mp hother with rfl | hother
      · exact ⟨_, pending⟩
      · exact hr.valued other hother
    | @ended site rest innermost result =>
      obtain ⟨q, -, -, -, hres, heval, he⟩ := endEvaluation_eq site result r
      have hsame : (r.endEvaluation site result).resolving = r.resolving ∧
          (r.endEvaluation site result).evaluating = r.evaluating.erase site := by
        rw [he]
        cases result <;> exact ⟨hres, heval⟩
      refine hr.of_sublist hs ?_ ?_
      · rw [hsame.1]
      · rw [hsame.2]
        exact List.erase_sublist
  | hooked loader => exact hr.of_sublist hs (List.Sublist.refl _) (List.Sublist.refl _)
  | @beganLinking id unresolved fresh =>
    refine ⟨List.nodup_cons.mpr ⟨fresh, hr.resolving⟩, ?_, hr.evaluating, hr.valued⟩
    intro c hc
    rcases List.mem_cons.mp hc with rfl | hc
    · exact .of_standing? unresolved
    · exact hr.linked c hc
  | linked innermost unresolved assembled => exact hr.endLinking hs
  | refused innermost unresolved cause => exact hr.endLinking hs
  | seeded resolved registered untouched =>
    exact hr.of_sublist hs (List.Sublist.refl _) (List.Sublist.refl _)
  | assigned registered touched table' =>
    exact hr.of_sublist hs (List.Sublist.refl _) (List.Sublist.refl _)

/-- In every state that a registry gets into, also in the middle of an operation,
no class is being linked twice and no value is in progress twice. -/
theorem Reachable.nested (hr : r.Reachable) : r.Nested := by
  obtain ⟨config, hsteps⟩ := hr
  induction hsteps with
  | refl => exact ⟨List.nodup_nil, nofun, List.nodup_nil, nofun⟩
  | tail _ hstep ih => exact hstep.nested ih

/-- What is being linked and what is in progress is all different, and no more than there
is. -/
def Unrepeated (r : Registry) : Prop :=
  r.resolving.Nodup ∧ r.evaluating.Nodup ∧ r.resolving.length ≤ r.size ∧
    r.evaluating.length ≤ r.sites.length

instance : DecidablePred Unrepeated := fun _ => inferInstanceAs (Decidable (_ ∧ _))

theorem Nested.length_resolving_le (h : r.Nested) : r.resolving.length ≤ r.size :=
  length_le_of_issued h.resolving h.linked

theorem Nested.length_evaluating_le (h : r.Nested) : r.evaluating.length ≤ r.sites.length := by
  refine (List.subperm_of_subset h.evaluating fun site hsite => ?_).length_le
  obtain ⟨l, hl⟩ := h.valued site hsite
  exact mem_sites hl

theorem Reachable.unrepeated (hr : r.Reachable) : r.Unrepeated :=
  have hnested := hr.nested
  ⟨hnested.resolving, hnested.evaluating, hnested.length_resolving_le,
    hnested.length_evaluating_le⟩

end Registry
end Lineage
