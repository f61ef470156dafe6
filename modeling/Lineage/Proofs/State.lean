/-
What a registry says of its classes, and when a later registry says more.

`Extends r s` is what every operation does to a registry: classes and bindings
stay, values are stored, and a class that is resolved or failed stays so.
-/
import Lineage.Registry.Linking
import Lineage.Registry.Query
import Lineage.Registry.Statics
import Lineage.Proofs.Declaration
import Mathlib.Data.List.Perm.Subperm

namespace Lineage
namespace Registry

/-- How far a class has come. -/
def standing? (r : Registry) (id : ClassId) : Option Standing :=
  (r.registration? id).map Registration.standing

/-- The value at a site. -/
def lazy? (r : Registry) (site : LazySite) : Option Lazy :=
  (r.decl? site.owner).bind fun d => d.lazy? site.member

/-- The number was given to a class. -/
def Issued (r : Registry) (id : ClassId) : Prop :=
  id.index < r.size

/-- No value is missing at the site; a property without a default lacks none. -/
def Computed (r : Registry) (site : LazySite) : Prop :=
  ∀ source, r.lazy? site ≠ some (.pending source)

/-- Names are bound to classes that exist. -/
def Indexed (r : Registry) : Prop :=
  ∀ name id, r.idOf? name = some id → r.Issued id

variable {r s : Registry} {id : ClassId}

theorem issued_iff : r.Issued id ↔ ∃ found, r.registration? id = some found := by
  rw [Issued, ← registration?_isSome_iff, Option.isSome_iff_exists]

theorem issued_iff_decl? : r.Issued id ↔ ∃ d, r.decl? id = some d := by
  simp only [issued_iff, decl?, Option.map_eq_some_iff]
  exact ⟨fun ⟨found, h⟩ => ⟨found.decl, found, h, rfl⟩, fun ⟨_, found, h, _⟩ => ⟨found, h⟩⟩

theorem registration?_eq_none (h : ¬ r.Issued id) : r.registration? id = none := by
  rwa [← Option.not_isSome_iff_eq_none, registration?_isSome_iff]

theorem Issued.of_decl? {d : ClassDecl} (h : r.decl? id = some d) : r.Issued id :=
  issued_iff_decl?.mpr ⟨d, h⟩

theorem Issued.of_standing? {st : Standing} (h : r.standing? id = some st) : r.Issued id := by
  obtain ⟨found, hf, -⟩ := Option.map_eq_some_iff.mp h
  exact issued_iff.mpr ⟨found, hf⟩

theorem Issued.of_lazy? {site : LazySite} {l : Lazy} (h : r.lazy? site = some l) :
    r.Issued site.owner := by
  obtain ⟨d, hd, -⟩ := Option.bind_eq_some_iff.mp h
  exact .of_decl? hd

theorem Issued.standing? (h : r.Issued id) : ∃ st, r.standing? id = some st := by
  obtain ⟨found, hf⟩ := issued_iff.mp h
  exact ⟨found.standing, by rw [Registry.standing?, hf]; rfl⟩

/-- The number of a place in the registry was issued, also if numbers wrap. -/
theorem issued_ofIndex {position : Nat} (h : position < r.size) : r.Issued (.ofIndex position) := by
  have hle : (ClassId.ofIndex position).index ≤ position := by
    simpa [ClassId.index, ClassId.ofIndex] using Nat.mod_le position UInt32.size
  exact Nat.lt_of_le_of_lt hle h

/-- There are no more different classes than were registered. -/
theorem length_le_of_issued {classes : List ClassId} (hn : classes.Nodup)
    (h : ∀ c ∈ classes, r.Issued c) : classes.length ≤ r.size := by
  have hsub : classes.map ClassId.index ⊆ List.range r.size := by
    intro n hn
    obtain ⟨c, hc, rfl⟩ := List.mem_map.mp hn
    exact List.mem_range.mpr (h c hc)
  have hnodup : (classes.map ClassId.index).Nodup :=
    List.Pairwise.map ClassId.index (fun _ _ hne heq => hne (ClassId.index_inj.mp heq)) hn
  have hle := (List.subperm_of_subset hnodup hsub).length_le
  rwa [List.length_map, List.length_range] at hle

theorem decl_eq_ok_iff {d : ClassDecl} : r.decl id = .ok d ↔ r.decl? id = some d := by
  unfold decl decl? registration
  cases r.registration? id <;> simp [Except.map]

theorem decl_eq_error (h : r.Issued id) (f : Fault) : r.decl id ≠ .error f := by
  obtain ⟨d, hd⟩ := issued_iff_decl?.mp h
  rw [decl_eq_ok_iff.mpr hd]
  simp

theorem registration_bind {α : Type} {found : Registration} (h : r.registration? id = some found)
    (f : Registration → Eval Registry α) : (Eval.ask (·.registration id) >>= f) r = f found r := by
  rw [Eval.bind_apply, Eval.ask, registration_eq_ok_iff.mpr h]

theorem decl_bind {α : Type} {d : ClassDecl} (h : r.decl? id = some d)
    (f : ClassDecl → Eval Registry α) : (Eval.ask (·.decl id) >>= f) r = f d r := by
  rw [Eval.bind_apply, Eval.ask, decl_eq_ok_iff.mpr h]

theorem links_eq_ok_iff {l : Links} :
    r.links id = .ok l ↔ r.standing? id = some (.resolved l) := by
  unfold links standing? registration
  cases r.registration? id with
  | none => simp
  | some found =>
    unfold Registration.links
    cases h : found.standing <;> simp [h]

theorem nameText_eq {d : ClassDecl} (h : r.decl? id = some d) : r.nameText id = d.name.text := by
  unfold nameText decl? at *
  cases hr : r.registration? id with
  | none => rw [hr] at h; cases h
  | some found => rw [hr] at h; cases h; rfl

/-! ## What each change does to the classes -/

theorem decl?_congr (h : s.registrations = r.registrations) (id : ClassId) :
    s.decl? id = r.decl? id := by
  simp [decl?, registration?, h]

theorem standing?_congr (h : s.registrations = r.registrations) (id : ClassId) :
    s.standing? id = r.standing? id := by
  simp [standing?, registration?, h]

theorem decl?_updateAt (id other : ClassId) (f : Registration → Registration)
    (hf : ∀ found, (f found).decl = found.decl) (r : Registry) :
    (r.updateAt id f).decl? other = r.decl? other := by
  simp only [decl?, registration?_updateAt]
  by_cases h : other = id
  · cases r.registration? other <;> simp [h, hf]
  · simp [h]

theorem standing?_updateAt (id other : ClassId) (f : Registration → Registration)
    (hf : ∀ found, (f found).standing = found.standing) (r : Registry) :
    (r.updateAt id f).standing? other = r.standing? other := by
  simp only [standing?, registration?_updateAt]
  by_cases h : other = id
  · cases r.registration? other <;> simp [h, hf]
  · simp [h]

@[simp] theorem decl?_setStanding (id other : ClassId) (st : Standing) (r : Registry) :
    (r.setStanding id st).decl? other = r.decl? other :=
  decl?_updateAt id other (fun found => { found with standing := st }) (fun _ => rfl) r

theorem standing?_setStanding (id other : ClassId) (st : Standing) (r : Registry) :
    (r.setStanding id st).standing? other =
      if other = id then (r.standing? other).map fun _ => st else r.standing? other := by
  simp only [setStanding, standing?, registration?_updateAt]
  by_cases h : other = id
  · cases r.registration? other <;> simp [h]
  · simp [h]

@[simp] theorem decl?_setStatics (id other : ClassId) (table : StaticTable) (r : Registry) :
    (r.setStatics id table).decl? other = r.decl? other :=
  decl?_updateAt id other (fun found => { found with statics := some table }) (fun _ => rfl) r

@[simp] theorem standing?_setStatics (id other : ClassId) (table : StaticTable) (r : Registry) :
    (r.setStatics id table).standing? other = r.standing? other :=
  standing?_updateAt id other (fun found => { found with statics := some table })
    (fun _ => rfl) r

@[simp] theorem standing?_settle (site : LazySite) (v : Value) (other : ClassId) (r : Registry) :
    (r.settle site v).standing? other = r.standing? other :=
  standing?_updateAt site.owner other
    (fun found => { found with decl := found.decl.settle site.member v }) (fun _ => rfl) r

theorem decl?_settle (site : LazySite) (v : Value) (other : ClassId) (r : Registry) :
    (r.settle site v).decl? other =
      if other = site.owner then (r.decl? other).map (ClassDecl.settle site.member v)
      else r.decl? other := by
  simp only [Registry.settle, decl?, registration?_updateAt]
  by_cases h : other = site.owner
  · cases r.registration? other <;> simp [h]
  · simp [h]

/-- A stored value shows at its own site only. -/
theorem lazy?_settle (site other : LazySite) (v : Value) (r : Registry) :
    (r.settle site v).lazy? other =
      if other = site then (r.lazy? other).map (Lazy.settle v) else r.lazy? other := by
  obtain ⟨o, m⟩ := site
  obtain ⟨o', m'⟩ := other
  simp only [lazy?, decl?_settle, LazySite.mk.injEq]
  by_cases ho : o' = o
  · subst ho
    cases r.decl? o' with
    | none => simp
    | some d => simp [ClassDecl.lazy?_settle]
  · simp [ho]

theorem decl?_append {d : ClassDecl} (h : r.Issued id) : (r.append d).decl? id = r.decl? id := by
  simp only [decl?, registration?_append h]

theorem standing?_append {d : ClassDecl} (h : r.Issued id) :
    (r.append d).standing? id = r.standing? id := by
  simp only [standing?, registration?_append h]

/-- The only new class is the one that was registered. -/
theorem registration?_of_append {d : ClassDecl} {found : Registration}
    (h : (r.append d).registration? id = some found) :
    r.registration? id = some found ∨ found = { decl := d } := by
  by_cases hi : r.Issued id
  · exact .inl ((registration?_append hi).symm.trans h)
  · have hlast : (r.append d).registrations = r.registrations ++ [{ decl := d }] := rfl
    rw [registration?, hlast, List.getElem?_append_right (Nat.le_of_not_lt hi)] at h
    cases hidx : id.index - r.registrations.length with
    | zero =>
      rw [hidx] at h
      cases h
      exact .inr rfl
    | succ n =>
      rw [hidx] at h
      cases h

/-! ## Later registries -/

/-- The second registry knows all that the first one knew, and more of the
classes that were not settled then. -/
structure Extends (r s : Registry) : Prop where
  config : s.config = r.config
  size_le : r.size ≤ s.size
  bound : ∀ {name id}, r.idOf? name = some id → s.idOf? name = some id
  declared : ∀ {id d}, r.decl? id = some d → ∃ d', s.decl? id = some d' ∧ d.Settles d'
  resolved : ∀ {id links}, r.standing? id = some (.resolved links) →
    s.standing? id = some (.resolved links)
  failed : ∀ {id e}, r.standing? id = some (.failed e) → s.standing? id = some (.failed e)

namespace Extends

theorem refl (r : Registry) : r.Extends r where
  config := rfl
  size_le := Nat.le_refl _
  bound h := h
  declared h := ⟨_, h, .refl _⟩
  resolved h := h
  failed h := h

theorem trans {t : Registry} (h : r.Extends s) (h' : s.Extends t) : r.Extends t where
  config := h'.config.trans h.config
  size_le := Nat.le_trans h.size_le h'.size_le
  bound hn := h'.bound (h.bound hn)
  declared hd := by
    obtain ⟨d', hd', hs⟩ := h.declared hd
    obtain ⟨d'', hd'', hs'⟩ := h'.declared hd'
    exact ⟨d'', hd'', hs.trans hs'⟩
  resolved hr := h'.resolved (h.resolved hr)
  failed hf := h'.failed (h.failed hf)

theorem issued (h : r.Extends s) (hi : r.Issued id) : s.Issued id :=
  Nat.lt_of_lt_of_le hi h.size_le

theorem nameText (h : r.Extends s) (hi : r.Issued id) : s.nameText id = r.nameText id := by
  obtain ⟨d, hd⟩ := issued_iff_decl?.mp hi
  obtain ⟨d', hd', hs⟩ := h.declared hd
  rw [nameText_eq hd, nameText_eq hd', hs.alike.name]

theorem pending (h : r.Extends s) {site : LazySite} (hi : r.Issued site.owner)
    {source : Initializer} (hp : s.lazy? site = some (.pending source)) :
    r.lazy? site = some (.pending source) := by
  obtain ⟨d, hd⟩ := issued_iff_decl?.mp hi
  obtain ⟨d', hd', hs⟩ := h.declared hd
  rw [lazy?, hd'] at hp
  rw [lazy?, hd]
  exact hs.lazy?_pending hp

theorem settled (h : r.Extends s) {site : LazySite} {v : Value}
    (hv : r.lazy? site = some (.settled v)) : s.lazy? site = some (.settled v) := by
  obtain ⟨d, hd, hm⟩ := Option.bind_eq_some_iff.mp hv
  obtain ⟨d', hd', hs⟩ := h.declared hd
  rw [lazy?, hd', Option.bind_some]
  rcases hs.lazy? site.member with hsame | ⟨_, w, hp, -⟩
  · exact hsame.trans hm
  · rw [hm] at hp
    cases hp

theorem computed (h : r.Extends s) {site : LazySite} (hi : r.Issued site.owner)
    (hc : r.Computed site) : s.Computed site :=
  fun source hp => hc source (h.pending hi hp)

end Extends

/-- A registry with the same classes, names and settings. -/
theorem Extends.of_eq (hc : s.config = r.config) (hr : s.registrations = r.registrations)
    (hi : s.index = r.index) : r.Extends s where
  config := hc
  size_le := Nat.le_of_eq (by rw [size, size, hr])
  bound h := by rw [idOf?, hi]; exact h
  declared h := ⟨_, by rw [decl?_congr hr]; exact h, .refl _⟩
  resolved h := by rw [standing?_congr hr]; exact h
  failed h := by rw [standing?_congr hr]; exact h

theorem extends_append {d : ClassDecl} (h : r.contains d.name = false) :
    r.Extends (r.append d) where
  config := rfl
  size_le := by rw [size_append]; exact Nat.le_succ _
  bound {name id} hn := by
    rw [idOf?_append]
    split
    · rename_i hk
      have : (r.idOf? d.name).isSome = true := by
        rw [idOf?, ← hk]
        exact Option.isSome_iff_exists.mpr ⟨id, hn⟩
      rw [contains_iff.mpr this] at h
      cases h
    · exact hn
  declared hd := ⟨_, by rw [decl?_append (.of_decl? hd)]; exact hd, .refl _⟩
  resolved hr := by rw [standing?_append (.of_standing? hr)]; exact hr
  failed hf := by rw [standing?_append (.of_standing? hf)]; exact hf

theorem extends_settle (site : LazySite) (v : Value) (r : Registry) :
    r.Extends (r.settle site v) where
  config := rfl
  size_le := Nat.le_of_eq (size_updateAt _ _ _).symm
  bound h := h
  declared {id d} hd := by
    rw [decl?_settle, hd]
    by_cases h : id = site.owner
    · exact ⟨_, by rw [if_pos h]; rfl, .settle _ _ _⟩
    · exact ⟨_, by rw [if_neg h], .refl _⟩
  resolved h := by rw [standing?_settle]; exact h
  failed h := by rw [standing?_settle]; exact h

/-- An unresolved class may come to stand in any way. -/
theorem extends_setStanding {st : Standing} (h : r.standing? id = some .unresolved) :
    r.Extends (r.setStanding id st) where
  config := rfl
  size_le := Nat.le_of_eq (size_updateAt _ _ _).symm
  bound hn := hn
  declared hd := ⟨_, by rw [decl?_setStanding]; exact hd, .refl _⟩
  resolved {other links} hr := by
    rw [standing?_setStanding, if_neg, hr]
    rintro rfl
    rw [h] at hr
    cases hr
  failed {other e} hf := by
    rw [standing?_setStanding, if_neg, hf]
    rintro rfl
    rw [h] at hf
    cases hf

theorem extends_setStatics (id : ClassId) (table : StaticTable) (r : Registry) :
    r.Extends (r.setStatics id table) where
  config := rfl
  size_le := Nat.le_of_eq (size_updateAt _ _ _).symm
  bound h := h
  declared h := ⟨_, by rw [decl?_setStatics]; exact h, .refl _⟩
  resolved h := by rw [standing?_setStatics]; exact h
  failed h := by rw [standing?_setStatics]; exact h

end Registry
end Lineage
