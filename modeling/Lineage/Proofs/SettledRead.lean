/-
Constants of resolved classes.

A read of a constant searches for the class that declares it, by name and from
the start, and may register classes and compute values on the way.  Above a
resolved class it does neither.  The theorem of this file,
`Run.constant_of_resolved`, says what it gives there: the stored value of the
first class that declares the constant, in the order that visits the class, then
what is above its parent, then what is above each interface.

`Visits` lists the order with all repetitions.  The search skips a class that it
has met before.  Nothing is lost: if it has left the class, it searched it in
vain, and if it has not, it does not meet it, as no resolved class reaches itself.
-/
import Lineage.Proofs.FailedClass

namespace Lineage
namespace Registry

variable {r : Registry} {c p x : ClassId} {name : String} {links : Links} {d : ClassDecl}

/-! ## Depth-first order -/

/-- The classes met on the way up from a list of names: what the first one is
bound to, all that is above it, and then those of the other names. -/
inductive Visits (r : Registry) : List QualifiedName → List ClassId → Prop where
  | nil : Visits r [] []
  | cons {listed : QualifiedName} {rest : List QualifiedName} {p : ClassId} {d : ClassDecl}
      {above others : List ClassId} (bound : r.idOf? listed = some p)
      (declared : r.decl? p = some d) (first : Visits r d.references above)
      (next : Visits r rest others) : Visits r (listed :: rest) (p :: above ++ others)

/-- A class, then its parent and all that is above it, then the same for each
interface in the order of declaration. -/
def DepthFirst (r : Registry) (c : ClassId) (order : List ClassId) : Prop :=
  ∃ d above, r.decl? c = some d ∧ r.Visits d.references above ∧ order = c :: above

variable {names : List QualifiedName} {order visited : List ClassId}

theorem reaches_iff (hd : r.decl? c = some d) :
    r.Reaches c x ↔
      x = c ∨ ∃ listed ∈ d.references, ∃ p, r.idOf? listed = some p ∧ r.Reaches p x := by
  rw [Reaches, Relation.ReflTransGen.cases_head_iff]
  refine or_congr eq_comm ⟨?_, ?_⟩
  · rintro ⟨p, ⟨d', listed, hd', hlisted, hp⟩, hx⟩
    rw [hd] at hd'
    cases hd'
    exact ⟨listed, hlisted, p, hp, hx⟩
  · rintro ⟨listed, hlisted, p, hp, hx⟩
    exact ⟨p, ⟨d, listed, hd, hlisted, hp⟩, hx⟩

theorem Visits.mem_iff (h : r.Visits names order) :
    x ∈ order ↔ ∃ listed ∈ names, ∃ p, r.idOf? listed = some p ∧ r.Reaches p x := by
  induction h with
  | nil => simp
  | @cons listed rest p d above others bound declared first next ihfirst ihnext =>
    rw [List.cons_append, List.mem_cons, List.mem_append, ihfirst, ihnext, ← or_assoc,
      ← reaches_iff declared]
    simp [bound]

/-- The order visits the classes that are reached, and no others. -/
theorem DepthFirst.mem_iff (h : r.DepthFirst c order) : x ∈ order ↔ r.Reaches c x := by
  obtain ⟨d, above, hd, habove, rfl⟩ := h
  rw [List.mem_cons, habove.mem_iff, reaches_iff hd]

theorem Founded.exists_visits (h : r.Founded) (hc : r.Resolved c links)
    (horder : ∀ p base, r.Refers c p → r.Resolved p base → ∃ order, r.DepthFirst p order) :
    ∀ names : List QualifiedName, (∀ listed ∈ names, r.Mentions c listed) →
      ∃ order, r.Visits names order := by
  intro names
  induction names with
  | nil => exact fun _ => ⟨[], .nil⟩
  | cons listed rest ih =>
    intro hnames
    obtain ⟨d, hd, hadm, -⟩ := (h.assembled c links hc).exists_decl
    obtain ⟨d', hd', hlisted⟩ := hnames listed List.mem_cons_self
    rw [hd] at hd'
    cases hd'
    obtain ⟨role, href⟩ := ClassDecl.mem_references.mp hlisted
    obtain ⟨p, -, base, hp, -, hbase, -⟩ := hadm _ href
    obtain ⟨_, dp, above, hdp, hvisits, -⟩ := horder p base ⟨d, listed, hd, hlisted, hp⟩ hbase
    obtain ⟨others, hothers⟩ := ih fun n hn => hnames n (List.mem_cons_of_mem _ hn)
    exact ⟨_, .cons hp hdp hvisits hothers⟩

theorem Founded.exists_depthFirst (h : r.Founded) :
    ∀ c links, r.Resolved c links → ∃ order, r.DepthFirst c order := by
  refine h.induction fun c links hc ih => ?_
  obtain ⟨d, hd, -⟩ := (h.assembled c links hc).exists_decl
  obtain ⟨above, habove⟩ := h.exists_visits hc ih d.references fun n hn => ⟨d, hd, hn⟩
  exact ⟨_, d, above, hd, habove, rfl⟩

/-! ## The search in depth-first order -/

instance (r : Registry) (c : ClassId) (name : String) : Decidable (r.DeclaresConstant c name) :=
  decidable_of_iff ((r.decl? c).any fun d => d.constants.contains name)
    (Option.any_eq_true _ _)

/-- The first class of an order that declares the constant. -/
def firstDeclaring (r : Registry) (name : String) (order : List ClassId) : Option ClassId :=
  order.find? fun x => r.DeclaresConstant x name

/-- Nothing that is reached declares the constant. -/
def Undeclared (r : Registry) (name : String) (c : ClassId) : Prop :=
  ∀ x, r.Reaches c x → ¬ r.DeclaresConstant x name

theorem firstDeclaring_eq_none_iff :
    r.firstDeclaring name order = none ↔ ∀ x ∈ order, ¬ r.DeclaresConstant x name := by
  simp [firstDeclaring]

theorem firstDeclaring_append (order others : List ClassId) :
    r.firstDeclaring name (order ++ others) =
      (r.firstDeclaring name order).or (r.firstDeclaring name others) :=
  List.find?_append

theorem firstDeclaring_cons_of_declares (h : r.DeclaresConstant c name) (order : List ClassId) :
    r.firstDeclaring name (c :: order) = some c :=
  List.find?_cons_of_pos (by simpa using h)

theorem firstDeclaring_cons_of_not (h : ¬ r.DeclaresConstant c name) (order : List ClassId) :
    r.firstDeclaring name (c :: order) = r.firstDeclaring name order :=
  List.find?_cons_of_neg (by simpa using h)

theorem DepthFirst.undeclared_iff (h : r.DepthFirst c order) :
    r.firstDeclaring name order = none ↔ r.Undeclared name c := by
  simp only [firstDeclaring_eq_none_iff, h.mem_iff, Undeclared]

/-- A search leaves the registry as it is and finds the first class of an order.
If there is none, whatever it has visited was searched in vain. -/
def SearchesInOrder (r : Registry) (name : String)
    (search : Eval Registry (Option ClassId × List ClassId)) (visited order : List ClassId) :
    Prop :=
  ∃ after, search r = .value (r.firstDeclaring name order, after) r ∧
    (r.firstDeclaring name order = none → ∀ x ∈ after, x ∈ visited ∨ r.Undeclared name x)

/-- The search from a list of names that class `c` mentions.  What was visited
before is `c`, or below it, or was searched in vain. -/
theorem searchReferences_in_order
    {search : ClassId → List ClassId → Eval Registry (Option ClassId × List ClassId)}
    (hsearch : ∀ p order visited, r.Refers c p → r.DepthFirst p order →
      (∀ x ∈ visited, r.Undeclared name x ∨ Relation.TransGen r.Refers x p) →
      r.SearchesInOrder name (search p visited) visited order)
    (h : r.Visits names order) (hnames : ∀ listed ∈ names, r.Mentions c listed)
    (hvisited : ∀ x ∈ visited, r.Undeclared name x ∨ r.Reaches x c) :
    r.SearchesInOrder name (searchReferences search names visited) visited order := by
  induction h generalizing visited with
  | nil => exact ⟨visited, rfl, fun _ x hx => .inl hx⟩
  | @cons listed rest p d above others bound declared first next _ ihnext =>
    have href : r.Refers c p := .of_mentions (hnames listed List.mem_cons_self) bound
    obtain ⟨after, hfirst, hvain⟩ := hsearch p (p :: above) visited href
      ⟨d, above, declared, first, rfl⟩ fun x hx => (hvisited x hx).imp id fun hxc => .tail' hxc href
    unfold SearchesInOrder
    rw [firstDeclaring_append]
    cases hfound : r.firstDeclaring name (p :: above) with
    | some owner =>
      refine ⟨after, ?_, fun hnone => by cases hnone⟩
      simp only [searchReferences, Eval.bind_apply, lookup_of_bound bound, hfirst, hfound]
      rfl
    | none =>
      have hstep : searchReferences search (listed :: rest) visited r =
          searchReferences search rest after r := by
        simp only [searchReferences, Eval.bind_apply, lookup_of_bound bound, hfirst, hfound]
      have hafter : ∀ x ∈ after, r.Undeclared name x ∨ r.Reaches x c := fun x hx =>
        (hvain hfound x hx).elim (hvisited x) .inl
      obtain ⟨last, hrest, hlast⟩ :=
        ihnext (fun n hn => hnames n (List.mem_cons_of_mem _ hn)) hafter
      exact ⟨last, hstep.trans hrest, fun hnone x hx =>
        (hlast hnone x hx).elim (hvain hfound x) .inr⟩

/-- Above a resolved class the search follows the order, if its bound on nesting
allows for as many steps as there are ancestors. -/
theorem Founded.searchConstant_in_order (h : r.Founded) (name : String) :
    ∀ c links, r.Resolved c links → ∀ depth order visited,
      links.ancestors.toFinset.card ≤ depth → r.DepthFirst c order →
      (∀ x ∈ visited, r.Undeclared name x ∨ Relation.TransGen r.Refers x c) →
      r.SearchesInOrder name (searchConstant name depth c visited) visited order := by
  refine h.induction fun c links hc ih depth order visited hdepth horder hvisited => ?_
  have hcard : 0 < links.ancestors.toFinset.card :=
    Finset.card_pos.mpr ⟨c, List.mem_toFinset.mpr ((h.mem_ancestors_iff hc).mpr (.inl rfl))⟩
  obtain ⟨depth, rfl⟩ := Nat.exists_eq_add_one.mpr (Nat.lt_of_lt_of_le hcard hdepth)
  unfold searchConstant
  split
  · -- the class was visited before, and not on the way up to it
    rename_i hmem
    have hundeclared : r.Undeclared name c :=
      (hvisited c (List.contains_iff_mem.mp hmem)).resolve_right (h.not_reaches_self hc)
    rw [SearchesInOrder, horder.undeclared_iff.mpr hundeclared]
    exact ⟨visited, rfl, fun _ x hx => .inl hx⟩
  · obtain ⟨d, above, hd, habove, rfl⟩ := horder
    unfold SearchesInOrder
    rw [decl_bind hd]
    split
    · rename_i hown
      rw [firstDeclaring_cons_of_declares ⟨d, hd, hown⟩]
      exact ⟨c :: visited, rfl, fun hnone => by cases hnone⟩
    · rename_i hown
      have hnot : ¬ r.DeclaresConstant c name := by
        rintro ⟨d', hd', hown'⟩
        rw [hd] at hd'
        cases hd'
        exact hown hown'
      have hsearch : ∀ p order visited, r.Refers c p → r.DepthFirst p order →
          (∀ x ∈ visited, r.Undeclared name x ∨ Relation.TransGen r.Refers x p) →
          r.SearchesInOrder name (searchConstant name depth p visited) visited order := by
        intro p order visited hp
        obtain ⟨base, hbase⟩ := h.resolved_of_refers hc hp
        have hfewer := h.card_ancestors_lt hc hp hbase
        exact ih p base hp hbase depth order visited (by omega)
      have hvisited' : ∀ x ∈ c :: visited, r.Undeclared name x ∨ r.Reaches x c := by
        intro x hx
        rcases List.mem_cons.mp hx with rfl | hx
        · exact .inr .refl
        · exact (hvisited x hx).imp id Relation.TransGen.to_reflTransGen
      obtain ⟨after, hfound, hvain⟩ :=
        searchReferences_in_order hsearch habove (fun n hn => ⟨d, hd, hn⟩) hvisited'
      have hundeclared : r.firstDeclaring name above = none → r.Undeclared name c := fun hnone =>
        (DepthFirst.undeclared_iff ⟨d, above, hd, habove, rfl⟩).mp
          ((firstDeclaring_cons_of_not hnot above).trans hnone)
      rw [firstDeclaring_cons_of_not hnot]
      refine ⟨after, hfound, fun hnone x hx => ?_⟩
      rcases hvain hnone x hx with hx | hx
      · rcases List.mem_cons.mp hx with rfl | hx
        · exact .inr (hundeclared hnone)
        · exact .inl hx
      · exact .inr hx

/-! ## Reading constants -/

theorem Founded.card_ancestors_le (h : r.Founded) (hc : r.Resolved c links) :
    links.ancestors.toFinset.card ≤ r.size := by
  rw [List.card_toFinset]
  refine length_le_of_issued (List.nodup_dedup _) fun x hx => ?_
  obtain ⟨base, hbase⟩ := (h.mem_ancestors_of_reaches
    (h.reached c links hc x (List.mem_dedup.mp hx)) hc).1
  exact .of_standing? hbase

/-- A constant of a resolved class is that of the first class in depth-first order. -/
theorem Founded.constant_eq (h : r.Founded) (hc : r.Resolved c links)
    (horder : r.DepthFirst c order) (hd : r.decl? c = some d) (name : String) {depth : Nat}
    (hdepth : r.size ≤ depth) :
    constant depth c name r =
      match r.firstDeclaring name order with
      | some x => force depth ⟨x, .constant name⟩ r
      | none => .failure (.raised (.undefinedConstant d.name.text name)) r := by
  obtain ⟨after, hsearch, -⟩ := h.searchConstant_in_order name c links hc depth order []
    (Nat.le_trans (h.card_ancestors_le hc) hdepth) horder (by simp)
  rw [constant_eq_fetch depth name hc fun e => by simp, fetch_of_target rfl, hsearch]
  cases r.firstDeclaring name order with
  | some x => rfl
  | none =>
    dsimp only
    rw [decl_bind hd]
    rfl

/-- The class that is found holds the value, and gives it itself. -/
theorem Founded.constant_of_first (h : r.Founded) (hc : r.Resolved c links)
    (horder : r.DepthFirst c order) (hd : r.decl? c = some d) {depth : Nat}
    (hdepth : r.size ≤ depth) (hx : r.firstDeclaring name order = some x) :
    ∃ v, r.lazy? ⟨x, .constant name⟩ = some (.settled v) ∧
      constant depth c name r = .value v r ∧ constant depth x name r = .value v r := by
  have hdeclares : r.DeclaresConstant x name := by simpa using List.find?_some hx
  have hmem : x ∈ order := List.mem_of_find?_eq_some hx
  obtain ⟨base, hbase⟩ := (h.mem_ancestors_of_reaches (horder.mem_iff.mp hmem) hc).1
  have hissued : c.index < r.size := Issued.of_standing? hc
  obtain ⟨depth, rfl⟩ := Nat.exists_eq_add_one.mpr (show 0 < depth by omega)
  obtain ⟨v, hv, hforce⟩ := h.force_of_resolved hbase hdeclares depth
  refine ⟨v, hv, ?_, ?_⟩
  · rw [h.constant_eq hc horder hd name hdepth, hx]
    exact hforce
  · rw [constant_of_declares hbase (fun e => by simp) hdeclares]
    exact hforce

/-- The reads of a resolved class with declaration `d` and links `links`, whose
hierarchy is visited in the order `order`. -/
structure SettledReads (r : Registry) (c : ClassId) (d : ClassDecl) (links : Links)
    (order : List ClassId) : Prop where
  declared : r.decl? c = some d
  visits : r.DepthFirst c order
  ancestors : ∀ x, x ∈ order ↔ x ∈ links.ancestors
  /-- The value is the stored one of the first class that declares the constant,
  and what that class itself would give. -/
  found : ∀ name x depth, r.firstDeclaring name order = some x → r.size ≤ depth →
    ∃ v, r.lazy? ⟨x, .constant name⟩ = some (.settled v) ∧
      constant depth c name r = .value v r ∧ constant depth x name r = .value v r
  /-- The only failure is that no ancestor declares the constant. -/
  fails_iff : ∀ name depth f s, r.size ≤ depth →
    (constant depth c name r = .failure f s ↔
      (∀ x ∈ links.ancestors, ¬ r.DeclaresConstant x name) ∧
        f = .raised (.undefinedConstant d.name.text name) ∧ s = r)

theorem Founded.settledReads (h : r.Founded) (hc : r.Resolved c links) :
    ∃ d order, SettledReads r c d links order := by
  obtain ⟨d, hd, -⟩ := (h.assembled c links hc).exists_decl
  obtain ⟨order, horder⟩ := h.exists_depthFirst c links hc
  have hancestors : ∀ x, x ∈ order ↔ x ∈ links.ancestors := fun x => by
    rw [horder.mem_iff, h.mem_ancestors_iff_reaches hc]
  refine ⟨d, order, hd, horder, hancestors, fun name x depth hx hdepth => ?_,
    fun name depth f s hdepth => ?_⟩
  · exact h.constant_of_first hc horder hd hdepth hx
  · have hnone : (∀ x ∈ links.ancestors, ¬ r.DeclaresConstant x name) ↔
        r.firstDeclaring name order = none := by
      simp only [firstDeclaring_eq_none_iff, hancestors]
    rw [hnone]
    cases hfirst : r.firstDeclaring name order with
    | some x =>
      obtain ⟨v, -, hread, -⟩ := h.constant_of_first hc horder hd hdepth hfirst
      rw [hread]
      simp
    | none =>
      rw [h.constant_eq hc horder hd name hdepth, hfirst]
      simp [eq_comm]

/-- Whatever has been done to a registry, a read of a constant of a resolved class
changes nothing and gives the stored value of the first class that declares it,
or fails because no ancestor does.  The record of events does not change either,
so that the hook is not asked and nothing is evaluated. -/
theorem Run.constant_of_resolved {config : Config} {ops : List Operation}
    (h : Run (new config) ops r) (hc : r.links c = .ok links) :
    ∃ d order, SettledReads r c d links order :=
  h.reachable.founded.settledReads (links_eq_ok_iff.mp hc)

/-- Two interfaces declare the constant.  The one above the parent comes before the
one that the class lists itself. -/
theorem Run.constant_of_resolved_diamond :
    let decls : List ClassDecl :=
      [.addConstant { name := "X", value := .settled (.int 1) }
          { name := ⟨"I"⟩, kind := .interface },
        .addConstant { name := "X", value := .pending (.expr (.literal (.int 2))) }
          { name := ⟨"J"⟩, kind := .interface },
        { name := ⟨"A"⟩, interfaces := [⟨"J"⟩] },
        { name := ⟨"B"⟩, parent := some ⟨"A"⟩, interfaces := [⟨"I"⟩] }]
    ∃ r links d order, Run (new {}) (decls.map .register ++ [.resolveAll]) r ∧
      r.links ⟨3⟩ = .ok links ∧ SettledReads r ⟨3⟩ d links order ∧
      (constant 4 ⟨3⟩ "X" r).answer? = some (.ok (.int 2)) ∧
      constant 4 ⟨3⟩ "Z" r = .failure (.raised (.undefinedConstant "B" "Z")) r := by
  intro decls
  have hrun : (performAll 9 (decls.map .register ++ [.resolveAll]) (new {})).map (fun r =>
      ((r.links ⟨3⟩).map fun links => links.ancestors.all fun x => !r.DeclaresConstant x "Z",
        (r.decl? ⟨3⟩).map fun d => d.name.text, (constant 4 ⟨3⟩ "X" r).answer?, r.size)) =
      some (.ok true, some "B", some (.ok (.int 2)), 4) := rfl
  obtain ⟨r, hr, hresults⟩ := Option.map_eq_some_iff.mp hrun
  rw [Prod.mk.injEq, Prod.mk.injEq, Prod.mk.injEq] at hresults
  obtain ⟨hundeclared, hname, hread, hsize⟩ := hresults
  have hrun : Run (new {}) _ r := .of_performAll hr
  cases hl : r.links ⟨3⟩ with
  | error f =>
    rw [hl] at hundeclared
    cases hundeclared
  | ok links =>
    rw [hl] at hundeclared
    have hall := List.all_eq_true.mp (Except.ok.inj hundeclared)
    obtain ⟨d, order, hreads⟩ := Run.constant_of_resolved hrun hl
    have hfails := (hreads.fails_iff "Z" 4 _ r (Nat.le_of_eq hsize)).mpr
      ⟨fun x hx => by simpa using hall x hx, rfl, rfl⟩
    rw [hreads.declared] at hname
    rw [show d.name.text = "B" from Option.some.inj hname] at hfails
    exact ⟨r, links, d, order, hrun, hl, hreads, hread, hfails⟩

end Registry
end Lineage
