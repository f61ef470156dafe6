/-
Finding the class that declares a constant, where nothing can be loaded.

`locate` is the part of a fetch that comes before any value is computed.  Without
a hook it changes nothing.  The theorem of this file, `locate_meets`, says that it
ends in every later registry as it ended in the first one, whatever values have
been stored and whatever has been resolved meanwhile, and that it never nests
deeper than there are classes.
-/
import Lineage.Proofs.Agreement

namespace Lineage
namespace Registry

variable {w r s : Registry} {c p : ClassId} {name : String} {visited : List ClassId}

/-- The site of the constant that is meant in the scope of a class. -/
def locate (depth : Nat) (current : ClassId) (qualifier : Qualifier) (name : String) :
    Eval Registry LazySite := do
  let id ← target current qualifier
  let (found, _) ← searchConstant name depth id []
  match found with
  | some owner => pure { owner := owner, member := .constant name }
  | none => do
    let decl ← .ask (·.decl id)
    .raise (.undefinedConstant decl.name.text name)

theorem fetchWith_eq (force : LazySite → Eval Registry Value) (depth : Nat) (current : ClassId)
    (qualifier : Qualifier) (name : String) :
    fetchWith force depth current qualifier name =
      locate depth current qualifier name >>= force := by
  unfold fetchWith locate
  simp only [bind_assoc]
  congr 1
  funext id
  congr 1
  funext found
  obtain ⟨owner?, visited⟩ := found
  cases owner? with
  | some owner => simp
  | none =>
    funext s
    show (Eval.ask (·.decl id) >>= _) s = _
    rw [bind_assoc, Eval.bind_apply, Eval.bind_apply]
    cases Eval.ask (·.decl id) s <;> rfl

/-! ## Nothing changes, and little nesting is needed -/

/-- The computation leaves the registry as it is, and fails only with an error. -/
def Still {α : Type} (x : Eval Registry α) (s : Registry) (Q : α → Prop) (D : Prop) : Prop :=
  (x s).Meets (fun a t => t = s ∧ Q a) (fun f t => t = s ∧ ∃ e, f = .raised e) D

namespace Still

variable {α β : Type} {x : Eval Registry α} {Q : α → Prop} {D : Prop}

theorem pure {a : α} (h : Q a) : Still (pure a) s Q D := ⟨rfl, h⟩

theorem raise (e : Error) : Still (Eval.raise e : Eval Registry α) s Q D := ⟨rfl, e, rfl⟩

theorem bind {f : α → Eval Registry β} {R : β → Prop} (hx : Still x s Q D)
    (hf : ∀ a, Q a → Still (f a) s R D) : Still (x >>= f) s R D := by
  refine Eval.meets_bind hx ?_
  rintro a _ ⟨rfl, ha⟩
  exact hf a ha

theorem imp {R : α → Prop} {D' : Prop} (h : Still x s Q D) (hq : ∀ a, Q a → R a) (hd : D → D') :
    Still x s R D' :=
  Outcome.Meets.imp h (fun _ _ h => ⟨h.1, hq _ h.2⟩) (fun _ _ h => h) hd

theorem decl (hc : s.Issued c) :
    Still (Eval.ask (·.decl c)) s (fun d => s.decl? c = some d) D :=
  Eval.meets_ask (fun _ hd => ⟨rfl, decl_eq_ok_iff.mp hd⟩)
    fun f hf => absurd hf (decl_eq_error hc f)

end Still

theorem Within.indexed (hs : w.Within s) (hw : w.Indexed) : s.Indexed := by
  intro name id hn
  rw [hs.idOf?] at hn
  exact hs.issued_iff.mpr (hw name id hn)

theorem Within.lookup_still (hs : w.Within s) (hw : w.Indexed) (name : QualifiedName) {D : Prop} :
    Still (Registry.lookup name) s s.Issued D := by
  unfold Still
  rw [hs.lookup]
  cases hp : w.idOf? name with
  | none => exact ⟨rfl, _, rfl⟩
  | some p => exact ⟨rfl, hs.issued_iff.mpr (hw name p hp)⟩

/-- Different classes that a search has visited. -/
structure Seen (r : Registry) (visited : List ClassId) : Prop where
  nodup : visited.Nodup
  issued : ∀ x ∈ visited, r.Issued x

theorem Seen.length_le (h : r.Seen visited) : visited.length ≤ r.size :=
  length_le_of_issued h.nodup h.issued

/-- What is found is a class, and no visited class is forgotten. -/
def Visiting (r : Registry) (before : List ClassId) (found : Option ClassId × List ClassId) :
    Prop :=
  (∀ owner ∈ found.1, r.Issued owner) ∧ r.Seen found.2 ∧ before.length ≤ found.2.length

theorem searchReferences_still
    {search : ClassId → List ClassId → Eval Registry (Option ClassId × List ClassId)} {depth : Nat}
    (hs : w.Within s) (hw : w.Indexed)
    (hsearch : ∀ p visited, s.Issued p → s.Seen visited →
      Still (search p visited) s (s.Visiting visited) (depth + visited.length ≤ s.size))
    (names : List QualifiedName) (visited : List ClassId) (hvisited : s.Seen visited) :
    Still (searchReferences search names visited) s (s.Visiting visited)
      (depth + visited.length ≤ s.size) := by
  induction names generalizing visited with
  | nil => exact .pure ⟨by simp, hvisited, Nat.le_refl _⟩
  | cons listed rest ih =>
    refine (hs.lookup_still hw listed).bind fun p hp => ?_
    refine (hsearch p visited hp hvisited).bind fun found hfound => ?_
    obtain ⟨owner?, between⟩ := found
    cases owner? with
    | some owner => exact .pure hfound
    | none =>
      have hlonger : visited.length ≤ between.length := hfound.2.2
      refine (ih between hfound.2.1).imp (fun found h => ⟨h.1, h.2.1, ?_⟩) fun hspent => ?_
      · exact Nat.le_trans hlonger h.2.2
      · omega

/-- Each step of nesting visits one more class. -/
theorem searchConstant_still (hs : w.Within s) (hw : w.Indexed) (name : String) (depth : Nat) :
    ∀ c visited, s.Issued c → s.Seen visited →
      Still (searchConstant name depth c visited) s (s.Visiting visited)
        (depth + visited.length ≤ s.size) := by
  induction depth with
  | zero =>
    intro c visited _ hvisited
    show 0 + visited.length ≤ s.size
    have hle := hvisited.length_le
    omega
  | succ depth ih =>
    intro c visited hc hvisited
    unfold searchConstant
    split
    · exact .pure ⟨by simp, hvisited, Nat.le_refl _⟩
    · rename_i hnew
      have hnew : c ∉ visited := by simpa using hnew
      have hseen : s.Seen (c :: visited) :=
        ⟨List.nodup_cons.mpr ⟨hnew, hvisited.nodup⟩, by simpa using ⟨hc, hvisited.issued⟩⟩
      refine (Still.decl hc).bind fun d _ => ?_
      split
      · exact .pure ⟨by simpa using hc, hseen, by simp⟩
      · refine (searchReferences_still hs hw ih d.references (c :: visited) hseen).imp
          (fun found h => ⟨h.1, h.2.1, ?_⟩) fun hspent => ?_
        · have hle : (c :: visited).length ≤ found.2.length := h.2.2
          rw [List.length_cons] at hle
          omega
        · rw [List.length_cons] at hspent
          omega

theorem target_still (hs : w.Within s) (hw : w.Indexed) (hc : s.Issued c) (qualifier : Qualifier)
    {D : Prop} : Still (target c qualifier) s s.Issued D := by
  cases qualifier with
  | self => exact .pure hc
  | static => exact .pure hc
  | named name => exact hs.lookup_still hw name
  | parent =>
    refine (Still.decl hc).bind fun d _ => ?_
    cases d.parent with
    | none => exact .raise _
    | some name => exact hs.lookup_still hw name

theorem locate_still (hs : w.Within s) (hw : w.Indexed) (hc : s.Issued c) (depth : Nat)
    (qualifier : Qualifier) (name : String) :
    Still (locate depth c qualifier name) s (fun site => s.Issued site.owner)
      (depth ≤ s.size) := by
  refine (target_still hs hw hc qualifier).bind fun p hp => ?_
  have hsearch := searchConstant_still hs hw name depth p [] hp ⟨List.nodup_nil, by simp⟩
  refine (hsearch.imp (fun _ h => h) fun h => h).bind fun found hfound => ?_
  obtain ⟨owner?, visited⟩ := found
  cases owner? with
  | some owner => exact .pure (hfound.1 owner rfl)
  | none => exact (Still.decl hp).bind fun _ _ => .raise _

/-! ## Later registries give the same answer -/

/-- Two computations end in the same way, unless one of them meets its bound on
nesting, and change nothing. -/
def SameStill {α : Type} (x y : Eval Registry α) (r s : Registry) : Prop :=
  Outcome.Paired (fun _ r' s' => r' = r ∧ s' = s) (fun r' s' => r' = r ∧ s' = s) (x r) (y s)

namespace SameStill

variable {α β : Type} {x y : Eval Registry α}

theorem pure (a : α) : SameStill (pure a) (pure a) r s := .value ⟨rfl, rfl⟩

theorem raise (e : Error) : SameStill (Eval.raise e : Eval Registry α) (Eval.raise e) r s :=
  .failure ⟨rfl, rfl⟩

theorem bind {f g : α → Eval Registry β} (hx : SameStill x y r s)
    (hf : ∀ a, SameStill (f a) (g a) r s) : SameStill (x >>= f) (y >>= g) r s := by
  unfold SameStill at hx ⊢
  rw [Eval.bind_apply, Eval.bind_apply]
  generalize x r = o at hx ⊢
  generalize y s = o' at hx ⊢
  cases hx with
  | spentLeft => exact .spentLeft _
  | spentRight => exact .spentRight _
  | failure h => exact .failure h
  | value h =>
    obtain ⟨rfl, rfl⟩ := h
    exact hf _

theorem lookup (hr : w.Within r) (hs : w.Within s) (name : QualifiedName) :
    SameStill (Registry.lookup name) (Registry.lookup name) r s := by
  unfold SameStill
  rw [hr.lookup, hs.lookup]
  cases w.idOf? name with
  | none => exact .failure ⟨rfl, rfl⟩
  | some p => exact .value ⟨rfl, rfl⟩

/-- Of a declaration it is asked what its values have no part in. -/
theorem decl_bind {f g : ClassDecl → Eval Registry β} (hr : w.Within r) (hs : w.Within s)
    (h : ∀ d d', d.Alike d' → SameStill (f d) (g d') r s) :
    SameStill (Eval.ask (·.decl c) >>= f) (Eval.ask (·.decl c) >>= g) r s := by
  by_cases hc : r.Issued c
  · obtain ⟨d, hd⟩ := issued_iff_decl?.mp hc
    obtain ⟨d', hd'⟩ := issued_iff_decl?.mp (hs.issued_iff.mpr (hr.issued_iff.mp hc))
    obtain ⟨dw, hdw, hset⟩ := hr.decl? hd
    obtain ⟨dw', hdw', hset'⟩ := hs.decl? hd'
    rw [hdw] at hdw'
    cases hdw'
    unfold SameStill
    rw [Registry.decl_bind hd, Registry.decl_bind hd']
    exact h d d' (hset.alike.symm.trans hset'.alike)
  · have hunissued : ∀ q : Registry, ¬ q.Issued c → q.decl c = .error (.unissued c) := by
      intro q hq
      rw [decl, registration, registration?_eq_none hq]
      rfl
    have hc' : ¬ s.Issued c := fun h => hc (hr.issued_iff.mpr (hs.issued_iff.mp h))
    unfold SameStill
    rw [Eval.bind_apply, Eval.bind_apply, Eval.ask, Eval.ask, hunissued r hc, hunissued s hc']
    exact .failure ⟨rfl, rfl⟩

/-- What one of the computations ends with, if the other one is never spent. -/
theorem meets (h : SameStill x y r s) (hy : y s ≠ .tooDeep) :
    (x r).Meets (fun a _ => y s = .value a s) (fun f _ => y s = .failure f s) True := by
  unfold SameStill at h
  generalize x r = o at h ⊢
  generalize y s = o' at h hy ⊢
  cases h with
  | spentLeft => trivial
  | spentRight => exact absurd rfl hy
  | value h =>
    obtain ⟨rfl, rfl⟩ := h
    rfl
  | failure h =>
    obtain ⟨rfl, rfl⟩ := h
    rfl

end SameStill

section Same

variable (hr : w.Within r) (hs : w.Within s)
include hr hs

theorem searchReferences_same
    {search search' : ClassId → List ClassId → Eval Registry (Option ClassId × List ClassId)}
    (hsearch : ∀ p visited, SameStill (search p visited) (search' p visited) r s)
    (names : List QualifiedName) (visited : List ClassId) :
    SameStill (searchReferences search names visited) (searchReferences search' names visited)
      r s := by
  induction names generalizing visited with
  | nil => exact .pure _
  | cons listed rest ih =>
    refine (SameStill.lookup hr hs listed).bind fun p => (hsearch p visited).bind fun found => ?_
    obtain ⟨owner?, between⟩ := found
    cases owner? with
    | some owner => exact .pure _
    | none => exact ih between

theorem searchConstant_same (name : String) (depth depth' : Nat) :
    ∀ c visited, SameStill (searchConstant name depth c visited)
      (searchConstant name depth' c visited) r s := by
  induction depth generalizing depth' with
  | zero => exact fun c visited => .spentLeft _
  | succ depth ih =>
    intro c visited
    cases depth' with
    | zero => exact .spentRight _
    | succ depth' =>
      unfold searchConstant
      split
      · exact .pure _
      · refine .decl_bind hr hs fun d d' halike => ?_
        have hnames : d'.constants.contains name = d.constants.contains name := by
          simp only [Catalog.contains, halike.constantNames]
        rw [hnames, halike.references]
        split
        · exact .pure _
        · exact searchReferences_same hr hs (ih depth') d.references (c :: visited)

theorem target_same (c : ClassId) (qualifier : Qualifier) :
    SameStill (target c qualifier) (target c qualifier) r s := by
  cases qualifier with
  | self => exact .pure c
  | static => exact .pure c
  | named name => exact .lookup hr hs name
  | parent =>
    refine .decl_bind hr hs fun d d' halike => ?_
    rw [halike.parent, halike.name]
    cases d.parent with
    | none => exact .raise _
    | some name => exact .lookup hr hs name

theorem locate_same (depth depth' : Nat) (c : ClassId) (qualifier : Qualifier) (name : String) :
    SameStill (locate depth c qualifier name) (locate depth' c qualifier name) r s := by
  refine (target_same hr hs c qualifier).bind fun p => ?_
  refine (searchConstant_same hr hs name depth depth' p []).bind fun found => ?_
  obtain ⟨owner?, visited⟩ := found
  cases owner? with
  | some owner => exact .pure _
  | none =>
    refine .decl_bind hr hs fun d d' halike => ?_
    rw [halike.name]
    exact .raise _

end Same

/-- Wherever a constant was found at first, it is found later. -/
theorem locate_meets (hw : w.Indexed) (hhook : w.autoloader = none) (hs : w.Within s)
    (hc : s.Issued c) (depth : Nat) (qualifier : Qualifier) (name : String) :
    (locate depth c qualifier name s).Meets
      (fun site t => (t = s ∧ s.Issued site.owner) ∧
        locate (w.size + 1) c qualifier name w = .value site w)
      (fun f t => (t = s ∧ ∃ e, f = .raised e) ∧
        locate (w.size + 1) c qualifier name w = .failure f w)
      (depth ≤ w.size) := by
  have hdeep : locate (w.size + 1) c qualifier name w ≠ .tooDeep := by
    intro hspent
    have hstill := locate_still (.refl hhook) hw (hs.issued_iff.mp hc) (w.size + 1) qualifier name
    rw [Still, hspent] at hstill
    exact Nat.not_succ_le_self _ hstill
  have hstill := locate_still hs hw hc depth qualifier name
  rw [hs.size] at hstill
  have hsame := (locate_same hs (.refl hhook) depth (w.size + 1) c qualifier name).meets hdeep
  exact (Outcome.Meets.and hstill hsame).imp (fun _ _ h => h) (fun _ _ h => h) And.left

end Registry
end Lineage
