/-
Constants of classes that failed.

A failed class that is asked for a constant answers with its error.  An
expression that fetches the constant searches for the class that declares it,
and asks no other class whether it failed.  The first part of this file says
what the search finds, whatever the hook supplies on the way:
`searchConstant_searching`.  The theorem of the second part,
`Reachable.fetch_of_failed`, says exactly when the two answers agree.
-/
import Lineage.Proofs.Hierarchy

namespace Lineage
namespace Registry

variable {r s t : Registry} {b c p x : ClassId} {name : String} {e : Error} {depth : Nat}

/-- The class itself declares a constant with the name. -/
def DeclaresConstant (r : Registry) (c : ClassId) (name : String) : Prop :=
  ∃ d, r.decl? c = some d ∧ d.constants.contains name = true

/-- The class lists the name as its parent or as an interface. -/
def Mentions (r : Registry) (c : ClassId) (name : QualifiedName) : Prop :=
  ∃ d, r.decl? c = some d ∧ name ∈ d.references

/-- Some class that is reached lists a name that is not bound. -/
def Missing (r : Registry) (c : ClassId) (name : QualifiedName) : Prop :=
  r.idOf? name = none ∧ ∃ x, r.Reaches c x ∧ r.Mentions x name

theorem Refers.of_mentions {listed : QualifiedName} (h : r.Mentions c listed)
    (hp : r.idOf? listed = some p) : r.Refers c p := by
  obtain ⟨d, hd, hlisted⟩ := h
  exact ⟨d, listed, hd, hlisted, hp⟩

theorem Mentions.issued {listed : QualifiedName} (h : r.Mentions c listed) : r.Issued c := by
  obtain ⟨d, hd, -⟩ := h
  exact .of_decl? hd

theorem DeclaresConstant.issued (h : r.DeclaresConstant c name) : r.Issued c := by
  obtain ⟨d, hd, -⟩ := h
  exact .of_decl? hd

theorem Extends.declaresConstant_iff (h : r.Extends s) (hc : r.Issued c) :
    s.DeclaresConstant c name ↔ r.DeclaresConstant c name := by
  obtain ⟨d, hd⟩ := issued_iff_decl?.mp hc
  obtain ⟨d', hd', hset⟩ := h.declared hd
  have hnames : d'.constants.contains name = d.constants.contains name := by
    simp only [Catalog.contains, hset.alike.constantNames]
  simp [DeclaresConstant, hd, hd', hnames]

theorem Extends.mentions_iff {listed : QualifiedName} (h : r.Extends s) (hc : r.Issued c) :
    s.Mentions c listed ↔ r.Mentions c listed := by
  obtain ⟨d, hd⟩ := issued_iff_decl?.mp hc
  obtain ⟨d', hd', hset⟩ := h.declared hd
  simp [Mentions, hd, hd', hset.alike.references]

/-! ## What a search finds -/

/-- A class that does not declare the constant, and refers to searched classes
only. -/
structure Barren (r : Registry) (name : String) (searched : List ClassId) (x : ClassId) :
    Prop where
  issued : r.Issued x
  undeclared : ¬ r.DeclaresConstant x name
  bound : ∀ listed, r.Mentions x listed → ∃ p ∈ searched, r.idOf? listed = some p

/-- The classes that were searched in vain between two points of a search. -/
structure Vain (r : Registry) (name : String) (before after : List ClassId) : Prop where
  kept : ∀ x ∈ before, x ∈ after
  barren : ∀ x ∈ after, x ∉ before → r.Barren name after x

variable {before between after : List ClassId}

theorem Barren.mono (h : r.Barren name before x) (hs : r.Extends s)
    (hsub : ∀ x ∈ before, x ∈ after) : s.Barren name after x where
  issued := hs.issued h.issued
  undeclared := by
    rw [hs.declaresConstant_iff h.issued]
    exact h.undeclared
  bound listed hlisted := by
    obtain ⟨p, hp, hbound⟩ := h.bound listed ((hs.mentions_iff h.issued).mp hlisted)
    exact ⟨p, hsub p hp, hs.bound hbound⟩

namespace Vain

theorem refl (r : Registry) (name : String) (visited : List ClassId) :
    r.Vain name visited visited :=
  ⟨fun _ h => h, fun _ h hnot => absurd h hnot⟩

theorem trans (h : r.Vain name before between) (hs : r.Extends s)
    (h' : s.Vain name between after) : s.Vain name before after where
  kept x hx := h'.kept x (h.kept x hx)
  barren x hx hnot := by
    by_cases hmid : x ∈ between
    · exact (h.barren x hmid hnot).mono hs h'.kept
    · exact h'.barren x hx hmid

/-- A class is searched together with all that it refers to. -/
theorem of_cons (h : r.Vain name (c :: before) after) (hc : r.Barren name after c) :
    r.Vain name before after where
  kept x hx := h.kept x (List.mem_cons_of_mem c hx)
  barren x hx hnot := by
    by_cases hxc : x = c
    · rw [hxc]
      exact hc
    · have hnew : x ∉ c :: before := by simp [hxc, hnot]
      exact h.barren x hx hnew

/-- A search that has seen everything it was led to has missed no class. -/
theorem mem_of_reaches (h : r.Vain name [] after) (hc : c ∈ after) (hx : r.Reaches c x) :
    x ∈ after := by
  induction hx with
  | refl => exact hc
  | tail _ href ih =>
    obtain ⟨d, listed, hd, hlisted, hp⟩ := href
    obtain ⟨q, hq, hbound⟩ := (h.barren _ ih List.not_mem_nil).bound listed ⟨d, hd, hlisted⟩
    rw [hbound] at hp
    cases hp
    exact hq

theorem not_declaresConstant (h : r.Vain name [] after) (hc : c ∈ after) (hx : r.Reaches c x) :
    ¬ r.DeclaresConstant x name :=
  (h.barren x (h.mem_of_reaches hc hx) List.not_mem_nil).undeclared

end Vain

/-- A part of a search above a class.  It only looks up names, and only fails at
one that stays unbound. -/
def Searching {α : Type} (a : Eval Registry α) (r : Registry) (c : ClassId)
    (Q : α → Registry → Prop) : Prop :=
  (a r).Meets (fun result t => Relation.ReflTransGen Load r t ∧ Q result t)
    (fun f t => Relation.ReflTransGen Load r t ∧
      ∃ missing, t.Missing c missing ∧ f = .raised (.classNotFound missing.text)) True

namespace Searching

variable {α β : Type} {a : Eval Registry α} {Q Q' : α → Registry → Prop}

theorem pure {result : α} (h : Q result r) : Searching (pure result) r c Q := ⟨.refl, h⟩

theorem bind {f : α → Eval Registry β} {R : β → Registry → Prop} (ha : Searching a r c Q)
    (hf : ∀ result s, Relation.ReflTransGen Load r s → Q result s → Searching (f result) s c R) :
    Searching (a >>= f) r c R := by
  refine Eval.meets_bind ha fun result s ⟨hs, hq⟩ => ?_
  refine (hf result s hs hq).imp ?_ ?_ id
  · exact fun b t ⟨ht, hr⟩ => ⟨hs.trans ht, hr⟩
  · exact fun f t ⟨ht, hmissing⟩ => ⟨hs.trans ht, hmissing⟩

theorem imp (h : Searching a r c Q)
    (hq : ∀ result t, Relation.ReflTransGen Load r t → Q result t → Q' result t) :
    Searching a r c Q' :=
  Outcome.Meets.imp h (fun result t ⟨ht, hr⟩ => ⟨ht, hq result t ht hr⟩) (fun _ _ h => h) id

/-- A search above what a class refers to is part of the search above the class. -/
theorem of_refers (href : r.Refers c p) (h : Searching a r p Q) : Searching a r c Q := by
  refine Outcome.Meets.imp h (fun _ _ h => h) ?_ id
  intro f t ⟨ht, missing, ⟨hnone, x, hx, hmentions⟩, hf⟩
  have href' : t.Refers c p := href.mono (Computes.of_loads ht).grows
  exact ⟨ht, missing, ⟨hnone, x, .head href' hx, hmentions⟩, hf⟩

end Searching

theorem lookup_searching {listed : QualifiedName} (h : r.Mentions c listed) :
    Searching (lookup listed) r c fun p s => s.idOf? listed = some p := by
  refine (lookup_meets listed r).imp (fun _ _ h => h) ?_ False.elim
  intro f s ⟨hs, hnone, hf⟩
  have hmentions := ((Computes.of_loads hs).grows.mentions_iff h.issued).mpr h
  exact ⟨hs, listed, ⟨hnone, c, .refl, hmentions⟩, hf⟩

/-- The result of a search: a class that declares the constant, or none. -/
def Found (r : Registry) (c : ClassId) (name : String) (unfound : List ClassId → Prop) :
    Option ClassId × List ClassId → Prop
  | (some x, _) => r.Reaches c x ∧ r.DeclaresConstant x name
  | (none, visited) => unfound visited

theorem searchReferences_searching
    {search : ClassId → List ClassId → Eval Registry (Option ClassId × List ClassId)}
    (hsearch : ∀ id visited r, Indexed r → r.Issued id →
      Searching (search id visited) r id fun found t =>
        t.Found id name (fun after => id ∈ after ∧ t.Vain name visited after) found)
    (names : List QualifiedName) (visited : List ClassId) (r : Registry) (hr : r.Indexed)
    (hnames : ∀ listed ∈ names, r.Mentions c listed) :
    Searching (searchReferences search names visited) r c fun found t =>
      t.Found c name (fun after => (∀ listed ∈ names, ∃ p ∈ after, t.idOf? listed = some p) ∧
        t.Vain name visited after) found := by
  induction names generalizing visited r with
  | nil => exact .pure ⟨fun _ h => absurd h List.not_mem_nil, .refl r name visited⟩
  | cons listed rest ih =>
    have hlisted := hnames listed List.mem_cons_self
    refine (lookup_searching hlisted).bind fun p s hs hp => ?_
    have hexts : r.Extends s := (Computes.of_loads hs).grows
    have hs' : s.Indexed := (Computes.of_loads hs).indexed hr
    have href : s.Refers c p := .of_mentions ((hexts.mentions_iff hlisted.issued).mpr hlisted) hp
    refine ((hsearch p visited s hs' (hs' listed p hp)).of_refers href).bind
      fun found t ht hfound => ?_
    have hextt : s.Extends t := (Computes.of_loads ht).grows
    obtain ⟨owner?, between⟩ := found
    cases owner? with
    | some owner => exact .pure ⟨.head (href.mono hextt) hfound.1, hfound.2⟩
    | none =>
      obtain ⟨hp', hvain⟩ := hfound
      have hrest : ∀ other ∈ rest, t.Mentions c other := fun other hother =>
        ((hexts.trans hextt).mentions_iff hlisted.issued).mpr
          (hnames other (List.mem_cons_of_mem _ hother))
      refine (ih between t ((Computes.of_loads ht).indexed hs') hrest).imp
        fun found u hu hfound => ?_
      obtain ⟨owner?, after⟩ := found
      cases owner? with
      | some owner => exact hfound
      | none =>
        obtain ⟨hbound, hvain'⟩ := hfound
        have hextu : t.Extends u := (Computes.of_loads hu).grows
        refine ⟨fun other hother => ?_, hvain.trans hextu hvain'⟩
        rcases List.mem_cons.mp hother with rfl | hother
        · exact ⟨p, hvain'.kept p hp', hextu.bound (hextt.bound hp)⟩
        · exact hbound other hother

/-- A search ends at a class that declares the constant, or nothing that is
reached declares it, or a name on the way is not bound. -/
theorem searchConstant_searching (name : String) (depth : Nat) :
    ∀ c visited r, Indexed r → r.Issued c →
      Searching (searchConstant name depth c visited) r c fun found t =>
        t.Found c name (fun after => c ∈ after ∧ t.Vain name visited after) found := by
  induction depth with
  | zero => intro c visited r _ _; exact trivial
  | succ depth ih =>
    intro c visited r hr hc
    obtain ⟨d, hd⟩ := issued_iff_decl?.mp hc
    unfold searchConstant
    split
    · rename_i hvisited
      have hmem : c ∈ visited := by simpa using hvisited
      exact .pure ⟨hmem, .refl r name visited⟩
    unfold Searching
    rw [decl_bind hd]
    split
    · rename_i hown
      exact Searching.pure ⟨.refl, d, hd, hown⟩
    · rename_i hown
      have hundeclared : ¬ r.DeclaresConstant c name := by
        rintro ⟨d', hd', hown'⟩
        rw [hd] at hd'
        cases hd'
        exact hown hown'
      refine Searching.imp (searchReferences_searching (c := c) ih d.references (c :: visited) r hr
        fun listed hlisted => ⟨d, hd, hlisted⟩) fun found t ht hfound => ?_
      obtain ⟨owner?, after⟩ := found
      cases owner? with
      | some owner => exact hfound
      | none =>
        obtain ⟨hbound, hvain⟩ := hfound
        have hext : r.Extends t := (Computes.of_loads ht).grows
        have hbarren : t.Barren name after c := by
          refine ⟨hext.issued hc, by rwa [hext.declaresConstant_iff hc], fun listed hlisted => ?_⟩
          obtain ⟨d', hd', hlisted⟩ := (hext.mentions_iff hc).mp hlisted
          rw [hd] at hd'
          cases hd'
          exact hbound listed hlisted
        exact ⟨hvain.kept c List.mem_cons_self, hvain.of_cons hbarren⟩

/-- A search for a constant above a class finds the class that declares it. -/
structure Finds (depth : Nat) (b : ClassId) (name : String) (r : Registry) (x : ClassId)
    (t : Registry) : Prop where
  search : ∃ visited, searchConstant name depth b [] r = .value (some x, visited) t
  loads : Relation.ReflTransGen Load r t
  reaches : t.Reaches b x
  declares : t.DeclaresConstant x name

/-- A search for a constant above a class ends in vain: nothing declares it. -/
structure Lacks (depth : Nat) (b : ClassId) (name : String) (r t : Registry) : Prop where
  search : ∃ visited, searchConstant name depth b [] r = .value (none, visited) t
  loads : Relation.ReflTransGen Load r t
  undeclared : ∀ x, t.Reaches b x → ¬ t.DeclaresConstant x name

/-- A search for a constant above a class breaks off at a name. -/
structure Misses (depth : Nat) (b : ClassId) (name : String) (r : Registry)
    (missing : QualifiedName) (t : Registry) : Prop where
  search : searchConstant name depth b [] r = .failure (.raised (.classNotFound missing.text)) t
  loads : Relation.ReflTransGen Load r t
  missing : t.Missing b missing

theorem Finds.of_search {visited : List ClassId} (hr : r.Indexed) (hb : r.Issued b)
    (h : searchConstant name depth b [] r = .value (some x, visited) t) :
    Finds depth b name r x t := by
  have hsearch := searchConstant_searching name depth b [] r hr hb
  rw [Searching, h] at hsearch
  obtain ⟨ht, hx, hdeclares⟩ := hsearch
  exact ⟨⟨visited, h⟩, ht, hx, hdeclares⟩

theorem Lacks.of_search {visited : List ClassId} (hr : r.Indexed) (hb : r.Issued b)
    (h : searchConstant name depth b [] r = .value (none, visited) t) :
    Lacks depth b name r t := by
  have hsearch := searchConstant_searching name depth b [] r hr hb
  rw [Searching, h] at hsearch
  obtain ⟨ht, hmem, hvain⟩ := hsearch
  exact ⟨⟨visited, h⟩, ht, fun x hx => hvain.not_declaresConstant hmem hx⟩

theorem Misses.of_search {f : Fault} (hr : r.Indexed) (hb : r.Issued b)
    (h : searchConstant name depth b [] r = .failure f t) :
    ∃ missing, f = .raised (.classNotFound missing.text) ∧ Misses depth b name r missing t := by
  have hsearch := searchConstant_searching name depth b [] r hr hb
  rw [Searching, h] at hsearch
  obtain ⟨ht, missing, hmissing, rfl⟩ := hsearch
  exact ⟨missing, rfl, h, ht, hmissing⟩

theorem Finds.of_declaresConstant (depth : Nat) (h : r.DeclaresConstant b name) :
    Finds (depth + 1) b name r b r := by
  obtain ⟨d, hd, hown⟩ := h
  refine ⟨⟨[b], ?_⟩, .refl, .refl, d, hd, hown⟩
  unfold searchConstant
  rw [if_neg (by simp), decl_bind hd, if_pos hown]
  rfl

/-! ## Fetching -/

/-- What a qualifier in the scope of a class means: a class by its name, or the
declared parent. -/
inductive Means (r : Registry) (c : ClassId) : Qualifier → ClassId → Prop where
  | named {n : QualifiedName} {b : ClassId} (bound : r.idOf? n = some b) :
      Means r c (.named n) b
  | parent {d : ClassDecl} {n : QualifiedName} {b : ClassId} (declared : r.decl? c = some d)
      (extended : d.parent = some n) (bound : r.idOf? n = some b) : Means r c .parent b

variable {q : Qualifier}

theorem target_of_means (h : r.Means c q b) : target c q r = .value b r := by
  cases h with
  | named bound => exact lookup_of_bound bound
  | @parent d n _ declared extended bound =>
    show (Eval.ask (·.decl c) >>= _) r = _
    rw [decl_bind declared, extended]
    exact lookup_of_bound bound

/-- What is fetched from a class depends on where the search for it ends. -/
theorem fetch_of_target (h : target c q r = .value b r) (depth : Nat) (name : String) :
    fetch depth c q name r =
      (match searchConstant name depth b [] r with
        | .value (some x, _) t => force depth ⟨x, .constant name⟩ t
        | .value (none, _) t =>
          (do
            let decl ← .ask (·.decl b)
            .raise (.undefinedConstant decl.name.text name) : Eval Registry Value) t
        | .failure f t => .failure f t
        | .tooDeep => .tooDeep) := by
  show (target c q >>= _) r = _
  rw [Eval.bind_apply, h]
  dsimp only
  rw [Eval.bind_apply]
  cases searchConstant name depth b [] r with
  | value found t =>
    obtain ⟨owner?, visited⟩ := found
    cases owner? <;> rfl
  | failure f t => rfl
  | tooDeep => rfl

theorem fetch_of_finds (h : r.Means c q b) (hx : Finds depth b name r x t) :
    fetch depth c q name r = force depth ⟨x, .constant name⟩ t := by
  obtain ⟨visited, hsearch⟩ := hx.search
  rw [fetch_of_target (target_of_means h), hsearch]

theorem fetch_of_lacks {d : ClassDecl} (h : r.Means c q b) (hd : r.decl? b = some d)
    (ht : Lacks depth b name r t) :
    fetch depth c q name r = .failure (.raised (.undefinedConstant d.name.text name)) t := by
  obtain ⟨visited, hsearch⟩ := ht.search
  obtain ⟨d', hd', hset⟩ := (Computes.of_loads ht.loads).grows.declared hd
  rw [fetch_of_target (target_of_means h), hsearch]
  dsimp only
  rw [decl_bind hd', ← hset.alike.name]
  rfl

theorem fetch_of_misses {missing : QualifiedName} (h : r.Means c q b)
    (ht : Misses depth b name r missing t) :
    fetch depth c q name r = .failure (.raised (.classNotFound missing.text)) t := by
  rw [fetch_of_target (target_of_means h), ht.search]

theorem constant_of_unissued (depth : Nat) (name : String) (h : ¬ r.Issued c) :
    constant depth c name r = .failure (.unissued c) r := by
  show (Eval.ask (·.registration c) >>= _) r = _
  rw [Eval.bind_apply, Eval.ask, registration, registration?_eq_none h]

theorem constant_of_failed (depth : Nat) (name : String) (h : r.standing? b = some (.failed e)) :
    constant depth b name r = .failure (.raised e) r := by
  obtain ⟨found, hf, hst⟩ := Option.map_eq_some_iff.mp h
  show (Eval.ask (·.registration b) >>= _) r = _
  rw [registration_bind hf, hst]
  rfl

theorem constant_eq_fetch {st : Standing} (depth : Nat) (name : String)
    (hst : r.standing? c = some st) (hu : ∀ e, st ≠ .failed e) :
    constant depth c name r = fetch depth c .self name r := by
  obtain ⟨found, hf, rfl⟩ := Option.map_eq_some_iff.mp hst
  show (Eval.ask (·.registration c) >>= _) r = _
  rw [registration_bind hf]
  cases hstanding : found.standing with
  | unresolved => rfl
  | resolved links => rfl
  | failed e => exact absurd hstanding (hu e)

theorem DeclaresConstant.exists_lazy (h : r.DeclaresConstant x name) :
    ∃ l, r.lazy? ⟨x, .constant name⟩ = some l := by
  obtain ⟨d, hd, hown⟩ := h
  have hname : (d.constants.get? name).isSome = true :=
    Catalog.get?_isSome_iff.mpr (Catalog.contains_iff.mp hown)
  obtain ⟨declared, hdeclared⟩ := Option.isSome_iff_exists.mp hname
  refine ⟨declared.value, ?_⟩
  show (r.decl? x).bind (fun d => (d.constants.get? name).map ConstantDecl.value) = _
  rw [hd, Option.bind_some, hdeclared]
  rfl

theorem force_of_settled {site : LazySite} {v : Value} {st : Standing} (depth : Nat)
    (hst : r.standing? site.owner = some st) (hu : ∀ e, st ≠ .failed e)
    (hv : r.lazy? site = some (.settled v)) : force (depth + 1) site r = .value v r := by
  obtain ⟨d, hd, hl⟩ := Option.bind_eq_some_iff.mp hv
  have hunfailed : ∀ e, r.standing? site.owner ≠ some (.failed e) := by
    intro e he
    rw [hst] at he
    cases he
    exact hu e rfl
  rw [force_of_usable depth hd hunfailed, hl]
  rfl

/-- A constant that a resolved class declares is there. -/
theorem Founded.force_of_resolved {links : Links} (h : r.Founded) (hc : r.Resolved c links)
    (hdeclares : r.DeclaresConstant c name) (depth : Nat) :
    ∃ v, r.lazy? ⟨c, .constant name⟩ = some (.settled v) ∧
      force (depth + 1) ⟨c, .constant name⟩ r = .value v r := by
  obtain ⟨l, hl⟩ := hdeclares.exists_lazy
  cases l with
  | pending source => exact absurd hl (h.computed hc _ source)
  | settled v => exact ⟨v, hl, force_of_settled depth hc (fun e => by simp) hl⟩

/-- A class that declares a constant itself is asked first. -/
theorem constant_of_declares {st : Standing} (hst : r.standing? c = some st)
    (hu : ∀ e, st ≠ .failed e) (hdeclares : r.DeclaresConstant c name) (depth : Nat) :
    constant (depth + 1) c name r = force (depth + 1) ⟨c, .constant name⟩ r := by
  obtain ⟨visited, hsearch⟩ := (Finds.of_declaresConstant depth hdeclares).search
  rw [constant_eq_fetch (depth + 1) name hst hu, fetch_of_target rfl, hsearch]

/-! ## Both answers -/

/-- The cases in which a fetch of a constant from a failed class ends with the
error of the class.  The class declares the constant itself; or the class that is
found has failed with the same error, or was never resolved and its value fails
with the same error when it is computed; or the search fails with the same
error. -/
inductive Repeats (depth : Nat) (b : ClassId) (name : String) (e : Error) (r : Registry) :
    Prop where
  | own (declares : r.DeclaresConstant b name)
  | failed {x : ClassId} {t : Registry} (found : Finds depth b name r x t)
      (failed : t.standing? x = some (.failed e))
  | pending {x : ClassId} {t s : Registry} {source : Initializer}
      (found : Finds depth b name r x t) (unresolved : t.standing? x = some .unresolved)
      (pending : t.lazy? ⟨x, .constant name⟩ = some (.pending source))
      (raised : force depth ⟨x, .constant name⟩ t = .failure (.raised e) s)
  | undefined {t : Registry} {d : ClassDecl} (lacks : Lacks depth b name r t)
      (declared : r.decl? b = some d) (same : e = .undefinedConstant d.name.text name)
  | unbound {t : Registry} {missing : QualifiedName} (misses : Misses depth b name r missing t)
      (same : e = .classNotFound missing.text)

/-- A constant of a resolved class is handed out, whatever class it was asked
from. -/
theorem Founded.fetch_of_resolved {links : Links} (h : t.Founded) (hq : r.Means c q b)
    (hx : Finds (depth + 1) b name r x t) (hl : t.Resolved x links) :
    ∃ v, t.lazy? ⟨x, .constant name⟩ = some (.settled v) ∧
      fetch (depth + 1) c q name r = .value v t := by
  obtain ⟨v, hv, hforce⟩ := h.force_of_resolved hl hx.declares depth
  exact ⟨v, hv, (fetch_of_finds hq hx).trans hforce⟩

theorem Repeats.fetch_eq (hb : r.standing? b = some (.failed e)) (hq : r.Means c q b)
    (h : Repeats (depth + 1) b name e r) :
    ∃ s, fetch (depth + 1) c q name r = .failure (.raised e) s := by
  cases h with
  | own declares =>
    refine ⟨r, ?_⟩
    rw [fetch_of_finds hq (.of_declaresConstant depth declares)]
    exact force_of_failed depth hb
  | @failed x t found failed =>
    refine ⟨t, ?_⟩
    rw [fetch_of_finds hq found]
    exact force_of_failed depth failed
  | @pending x t s source found unresolved pending raised =>
    refine ⟨s, ?_⟩
    rw [fetch_of_finds hq found]
    exact raised
  | @undefined t d lacks declared same =>
    refine ⟨t, ?_⟩
    rw [fetch_of_lacks hq declared lacks, same]
  | @unbound t missing misses same =>
    refine ⟨t, ?_⟩
    rw [fetch_of_misses hq misses, same]

theorem Repeats.of_finds (ht : t.Founded) (hq : r.Means c q b)
    (hx : Finds (depth + 1) b name r x t)
    (h : fetch (depth + 1) c q name r = .failure (.raised e) s) :
    Repeats (depth + 1) b name e r := by
  obtain ⟨st, hst⟩ := hx.declares.issued.standing?
  cases st with
  | resolved links =>
    obtain ⟨v, -, hv⟩ := ht.fetch_of_resolved hq hx hst
    rw [hv] at h
    cases h
  | failed e' =>
    rw [fetch_of_finds hq hx, force_of_failed depth hst] at h
    cases h
    exact .failed hx hst
  | unresolved =>
    rw [fetch_of_finds hq hx] at h
    obtain ⟨l, hlazy⟩ := hx.declares.exists_lazy
    cases l with
    | pending source => exact .pending hx hst hlazy h
    | settled v =>
      rw [force_of_settled depth hst (fun e => by simp) hlazy] at h
      cases h

theorem Repeats.of_fetch (hr : r.Reachable) (hb : r.Issued b) (hq : r.Means c q b)
    (h : fetch (depth + 1) c q name r = .failure (.raised e) s) :
    Repeats (depth + 1) b name e r := by
  cases hsearch : searchConstant name (depth + 1) b [] r with
  | tooDeep =>
    rw [fetch_of_target (target_of_means hq), hsearch] at h
    cases h
  | failure f t =>
    obtain ⟨missing, -, hmisses⟩ := Misses.of_search hr.indexed hb hsearch
    rw [fetch_of_misses hq hmisses] at h
    cases h
    exact .unbound hmisses rfl
  | value found t =>
    obtain ⟨owner?, visited⟩ := found
    cases owner? with
    | none =>
      obtain ⟨d, hd⟩ := issued_iff_decl?.mp hb
      have hlacks : Lacks (depth + 1) b name r t := .of_search hr.indexed hb hsearch
      rw [fetch_of_lacks hq hd hlacks] at h
      cases h
      exact .undefined hlacks hd rfl
    | some x =>
      have hfinds : Finds (depth + 1) b name r x t := .of_search hr.indexed hb hsearch
      exact .of_finds (hr.of_loads hfinds.loads).founded hq hfinds h

/-- A failed class answers with its error, and a fetch from it by an expression of
another class ends with the same error exactly in the cases of `Repeats`.  Where
the constant is inherited from a resolved class, its value is handed out
instead. -/
theorem Reachable.fetch_of_failed (hr : r.Reachable) (hb : r.standing? b = some (.failed e))
    (hq : r.Means c q b) (depth : Nat) (name : String) :
    constant depth b name r = .failure (.raised e) r ∧
      ((∃ s, fetch (depth + 1) c q name r = .failure (.raised e) s) ↔
        Repeats (depth + 1) b name e r) ∧
      ∀ x t links, Finds (depth + 1) b name r x t → t.Resolved x links →
        ∃ v, t.lazy? ⟨x, .constant name⟩ = some (.settled v) ∧
          fetch (depth + 1) c q name r = .value v t := by
  refine ⟨constant_of_failed depth name hb, ⟨?_, ?_⟩, ?_⟩
  · rintro ⟨s, hs⟩
    exact .of_fetch hr (.of_standing? hb) hq hs
  · exact fun h => h.fetch_eq hb hq
  · intro x t links hx hl
    exact (hr.of_loads hx.loads).founded.fetch_of_resolved hq hx hl

/-- `B` extends the resolved class `A` and implements an interface that is not
there.  `Reader` still fetches the constant that `B` inherits. -/
theorem Reachable.fetch_of_failed_below_resolved :
    let decls : List ClassDecl :=
      [.addConstant { name := "X", value := .settled (.int 1) } { name := ⟨"A"⟩ },
        { name := ⟨"B"⟩, parent := some ⟨"A"⟩, interfaces := [⟨"Ghost"⟩] },
        .addConstant { name := "Y", value := .pending (.expr (.constant (.named ⟨"B"⟩) "X")) }
          { name := ⟨"Reader"⟩ }]
    ∃ r e, Run (new {}) (decls.map .register ++ [.resolve ⟨"B"⟩]) r ∧
      r.standing? ⟨1⟩ = some (.failed e) ∧ constant 9 ⟨1⟩ "X" r = .failure (.raised e) r ∧
      ¬ Repeats 10 ⟨1⟩ "X" e r ∧ (constant 9 ⟨2⟩ "Y" r).isValue = true := by
  intro decls
  have hrun : (performAll 9 (decls.map .register ++ [.resolve ⟨"B"⟩]) (new {})).map
      (fun r => (r.standing? ⟨1⟩, r.idOf? ⟨"B"⟩,
        (fetch 10 ⟨2⟩ (.named ⟨"B"⟩) "X" r).isValue, (constant 9 ⟨2⟩ "Y" r).isValue)) =
      some (some (.failed (.classNotFound "Ghost")), some ⟨1⟩, true, true) := rfl
  obtain ⟨r, hr, hresults⟩ := Option.map_eq_some_iff.mp hrun
  rw [Prod.mk.injEq, Prod.mk.injEq, Prod.mk.injEq] at hresults
  obtain ⟨hb, hbound, hfetched, hread⟩ := hresults
  have hrun : Run (new {}) _ r := .of_performAll hr
  obtain ⟨hconstant, hiff, -⟩ :=
    Reachable.fetch_of_failed (c := ⟨2⟩) hrun.reachable hb (.named hbound) 9 "X"
  refine ⟨r, _, hrun, hb, hconstant, fun hrepeats => ?_, hread⟩
  obtain ⟨s, hs⟩ := hiff.mpr hrepeats
  rw [hs] at hfetched
  cases hfetched

end Registry
end Lineage
