/-
The search for a constant as a scan of an order.

A fetch follows declared names, whatever is resolved and however the names lead
back to where they came from.  `walk` goes the same way and stops for nothing: it
visits each class once, at a class first its parent, then its interfaces, and from
each of them whatever is above it before the next one.  A name that is not bound
is a stop of the walk as well.

The theorem of this file, `Reachable.search_in_preorder`, says that without a hook
a search ends at the first stop that decides it, and that nothing is hidden by
what it skips.  A search returns with the classes that it has visited, and the
caller goes on from there.  So the invariant, `KeepsTo`, speaks of all names that
may be left to go on with: the walk over them from the visited classes is what is
left of the walk.
-/
import Lineage.Proofs.Locate
import Lineage.Proofs.SettledRead
import Lineage.Proofs.WellFormed

namespace Lineage

/-- A stop of a walk: a class that is visited, or a name that leads nowhere. -/
inductive Stop where
  | visit (c : ClassId)
  | dangling (listed : QualifiedName)

def Stop.class? : Stop → Option ClassId
  | .visit c => some c
  | .dangling _ => none

namespace Registry

variable {r : Registry} {c p x : ClassId} {d : ClassDecl} {name : String} {listed : QualifiedName}
  {visited : List ClassId} {names rest : List QualifiedName} {order : List Stop} {stop : Stop}

/-! ## The walk -/

/-- The names that a class lists: its parent, then its interfaces. -/
def referencesOf (r : Registry) (c : ClassId) : List QualifiedName :=
  match r.decl? c with
  | some d => d.references
  | none => []

theorem referencesOf_eq (hd : r.decl? c = some d) : r.referencesOf c = d.references := by
  rw [referencesOf, hd]

theorem mem_referencesOf : listed ∈ r.referencesOf c ↔ r.Mentions c listed := by
  unfold referencesOf Mentions
  cases r.decl? c <;> simp

/-- How many of the classes that names are bound to are not in a list. -/
def unvisited (r : Registry) (visited : List ClassId) : Nat :=
  (r.index.values.toFinset \ visited.toFinset).card

theorem unvisited_cons_lt (hp : r.idOf? listed = some p) (hvisited : p ∉ visited) :
    r.unvisited (p :: visited) < r.unvisited visited := by
  have hmem : p ∈ r.index.values := List.mem_map.mpr ⟨_, Catalog.mem_of_get? hp, rfl⟩
  unfold unvisited
  rw [List.toFinset_cons, Finset.sdiff_insert]
  exact Finset.card_erase_lt_of_mem (by simp [hmem, hvisited])

/-- The depth-first walk up from a list of names.  A class that has been visited is
passed over. -/
def walk (r : Registry) (visited : List ClassId) (names : List QualifiedName) : List Stop :=
  match names with
  | [] => []
  | listed :: rest =>
    match _ : r.idOf? listed with
    | none => .dangling listed :: r.walk visited rest
    | some p =>
      if _ : p ∈ visited then r.walk visited rest
      else .visit p :: r.walk (p :: visited) (r.referencesOf p ++ rest)
termination_by (r.unvisited visited, names.length)
decreasing_by
  · exact Prod.Lex.right _ (Nat.lt_succ_self _)
  · exact Prod.Lex.right _ (Nat.lt_succ_self _)
  · exact Prod.Lex.left _ _ (unvisited_cons_lt ‹_› ‹_›)

/-- The walk that comes to a class and then goes on with a list of names. -/
def walkFrom (r : Registry) (visited : List ClassId) (c : ClassId) (rest : List QualifiedName) :
    List Stop :=
  if c ∈ visited then r.walk visited rest
  else .visit c :: r.walk (c :: visited) (r.referencesOf c ++ rest)

/-- The stops of the walk up from a class, which is the first one. -/
def preorder (r : Registry) (c : ClassId) : List Stop :=
  r.walkFrom [] c []

theorem walk_nil (r : Registry) (visited : List ClassId) : r.walk visited [] = [] := by
  rw [walk]

theorem walk_unbound (h : r.idOf? listed = none) (visited : List ClassId)
    (rest : List QualifiedName) :
    r.walk visited (listed :: rest) = .dangling listed :: r.walk visited rest := by
  rw [walk]
  split <;> simp_all

theorem walk_bound (h : r.idOf? listed = some p) (visited : List ClassId)
    (rest : List QualifiedName) : r.walk visited (listed :: rest) = r.walkFrom visited p rest := by
  rw [walk, walkFrom]
  split <;> simp_all

theorem preorder_eq (r : Registry) (c : ClassId) :
    r.preorder c = .visit c :: r.walk [c] (r.referencesOf c) := by
  rw [preorder, walkFrom, if_neg List.not_mem_nil, List.append_nil]

/-! ## What the walk visits -/

/-- Where a name leads. -/
def stopAt (r : Registry) (listed : QualifiedName) : Stop :=
  match r.idOf? listed with
  | some p => .visit p
  | none => .dangling listed

theorem stopAt_bound (h : r.idOf? listed = some p) : r.stopAt listed = .visit p := by
  rw [stopAt, h]

theorem stopAt_unbound (h : r.idOf? listed = none) : r.stopAt listed = .dangling listed := by
  rw [stopAt, h]

/-- From a class one comes to whatever its names lead to. -/
inductive StepsTo (r : Registry) : Stop → Stop → Prop where
  | up {c : ClassId} {listed : QualifiedName} (mentions : r.Mentions c listed) :
      StepsTo r (.visit c) (r.stopAt listed)

theorem stepsTo_visit_iff :
    Relation.ReflTransGen r.StepsTo (.visit c) (.visit x) ↔ r.Reaches c x := by
  constructor
  · generalize hstop : Stop.visit x = stop
    intro h
    induction h generalizing x with
    | refl =>
      cases hstop
      exact .refl
    | tail _ hlast ih =>
      cases hlast with
      | @up y listed mentions =>
        cases hp : r.idOf? listed with
        | none =>
          rw [stopAt_unbound hp] at hstop
          cases hstop
        | some p =>
          rw [stopAt_bound hp] at hstop
          cases hstop
          exact (ih rfl).tail (.of_mentions mentions hp)
  · intro h
    induction h with
    | refl => exact .refl
    | tail _ href ih =>
      obtain ⟨d, listed, hd, hlisted, hp⟩ := href
      exact ih.tail (stopAt_bound hp ▸ .up ⟨d, hd, hlisted⟩)

theorem stepsTo_dangling_iff :
    Relation.ReflTransGen r.StepsTo (.visit c) (.dangling listed) ↔ r.Missing c listed := by
  constructor
  · intro h
    obtain hrefl | ⟨stop, hstop, hlast⟩ := Relation.ReflTransGen.cases_tail h
    · cases hrefl
    generalize hend : Stop.dangling listed = last at hlast
    cases hlast with
    | @up x other mentions =>
      cases hp : r.idOf? other with
      | some p =>
        rw [stopAt_bound hp] at hend
        cases hend
      | none =>
        rw [stopAt_unbound hp] at hend
        cases hend
        exact ⟨hp, x, stepsTo_visit_iff.mp hstop, mentions⟩
  · rintro ⟨hnone, x, hx, hmentions⟩
    exact (stepsTo_visit_iff.mpr hx).tail (stopAt_unbound hnone ▸ .up hmentions)

/-- The walk goes nowhere but where its names lead. -/
theorem stepsTo_of_mem_walk (r : Registry) (visited : List ClassId) (names : List QualifiedName) :
    ∀ stop ∈ r.walk visited names,
      ∃ listed ∈ names, Relation.ReflTransGen r.StepsTo (r.stopAt listed) stop := by
  fun_induction walk r visited names with
  | case1 visited => simp
  | case2 visited listed rest hnone ih =>
    intro stop hstop
    rcases List.mem_cons.mp hstop with rfl | hstop
    · exact ⟨listed, List.mem_cons_self, by rw [stopAt_unbound hnone]⟩
    · obtain ⟨other, hother, hsteps⟩ := ih stop hstop
      exact ⟨other, List.mem_cons_of_mem _ hother, hsteps⟩
  | case3 visited listed rest p hp hvisited ih =>
    intro stop hstop
    obtain ⟨other, hother, hsteps⟩ := ih stop hstop
    exact ⟨other, List.mem_cons_of_mem _ hother, hsteps⟩
  | case4 visited listed rest p hp hvisited ih =>
    intro stop hstop
    rcases List.mem_cons.mp hstop with rfl | hstop
    · exact ⟨listed, List.mem_cons_self, by rw [stopAt_bound hp]⟩
    · obtain ⟨other, hother, hsteps⟩ := ih stop hstop
      rcases List.mem_append.mp hother with hother | hother
      · exact ⟨listed, List.mem_cons_self,
          stopAt_bound hp ▸ .head (.up (mem_referencesOf.mp hother)) hsteps⟩
      · exact ⟨other, List.mem_cons_of_mem _ hother, hsteps⟩

/-- The stop is on the walk, or it was made before. -/
def Covered (visited : List ClassId) (order : List Stop) (stop : Stop) : Prop :=
  stop ∈ order ∨ ∃ x ∈ visited, stop = .visit x

theorem Covered.cons (h : Covered visited order stop) (first : Stop) :
    Covered visited (first :: order) stop :=
  h.imp_left (List.mem_cons_of_mem first)

/-- A class that has just been visited is on the walk. -/
theorem Covered.of_cons (h : Covered (p :: visited) order stop) :
    Covered visited (.visit p :: order) stop := by
  rcases h with hmem | ⟨x, hx, rfl⟩
  · exact .inl (List.mem_cons_of_mem _ hmem)
  · rcases List.mem_cons.mp hx with rfl | hx
    · exact .inl List.mem_cons_self
    · exact .inr ⟨x, hx, rfl⟩

/-- Nothing is missed: the walk comes to wherever its names lead, and to wherever its
stops lead. -/
theorem covered_walk (r : Registry) (visited : List ClassId) (names : List QualifiedName) :
    (∀ listed ∈ names, Covered visited (r.walk visited names) (r.stopAt listed)) ∧
      ∀ stop ∈ r.walk visited names, ∀ next, r.StepsTo stop next →
        Covered visited (r.walk visited names) next := by
  fun_induction walk r visited names with
  | case1 visited => simp
  | case2 visited listed rest hnone ih =>
    refine ⟨fun other hother => ?_, fun stop hstop next hnext => ?_⟩
    · rcases List.mem_cons.mp hother with rfl | hother
      · exact .inl (by simp [stopAt_unbound hnone])
      · exact (ih.1 other hother).cons _
    · rcases List.mem_cons.mp hstop with rfl | hstop
      · cases hnext
      · exact (ih.2 stop hstop next hnext).cons _
  | case3 visited listed rest p hp hvisited ih =>
    refine ⟨fun other hother => ?_, ih.2⟩
    rcases List.mem_cons.mp hother with rfl | hother
    · exact .inr ⟨p, hvisited, stopAt_bound hp⟩
    · exact ih.1 other hother
  | case4 visited listed rest p hp hvisited ih =>
    refine ⟨fun other hother => ?_, fun stop hstop next hnext => ?_⟩
    · rcases List.mem_cons.mp hother with rfl | hother
      · exact .inl (by simp [stopAt_bound hp])
      · exact (ih.1 other (List.mem_append_right _ hother)).of_cons
    · rcases List.mem_cons.mp hstop with rfl | hstop
      · cases hnext with
        | up mentions =>
          exact (ih.1 _ (List.mem_append_left _ (mem_referencesOf.mpr mentions))).of_cons
      · exact (ih.2 stop hstop next hnext).of_cons

theorem mem_preorder_iff :
    stop ∈ r.preorder c ↔ Relation.ReflTransGen r.StepsTo (.visit c) stop := by
  rw [preorder_eq]
  constructor
  · intro h
    rcases List.mem_cons.mp h with rfl | h
    · exact .refl
    · obtain ⟨listed, hlisted, hsteps⟩ := stepsTo_of_mem_walk r _ _ stop h
      exact .head (.up (mem_referencesOf.mp hlisted)) hsteps
  · have hcovered : ∀ next, Covered [c] (r.walk [c] (r.referencesOf c)) next →
        next ∈ .visit c :: r.walk [c] (r.referencesOf c) := by
      rintro next (hmem | ⟨x, hx, rfl⟩)
      · exact List.mem_cons_of_mem _ hmem
      · simp_all
    obtain ⟨hnames, hclosed⟩ := covered_walk r [c] (r.referencesOf c)
    intro h
    induction h with
    | refl => exact List.mem_cons_self
    | tail _ hlast ih =>
      rcases List.mem_cons.mp ih with rfl | hstop
      · cases hlast with
        | up mentions => exact hcovered _ (hnames _ (mem_referencesOf.mpr mentions))
      · exact hcovered _ (hclosed _ hstop _ hlast)

/-- The walk visits new classes, and none of them twice. -/
theorem nodup_walk (r : Registry) (visited : List ClassId) (names : List QualifiedName) :
    (∀ x ∈ (r.walk visited names).filterMap Stop.class?, x ∉ visited) ∧
      ((r.walk visited names).filterMap Stop.class?).Nodup := by
  fun_induction walk r visited names with
  | case1 visited => simp
  | case2 visited listed rest hnone ih => exact ih
  | case3 visited listed rest p hp hvisited ih => exact ih
  | case4 visited listed rest p hp hvisited ih =>
    rw [List.filterMap_cons_some (show Stop.class? (.visit p) = some p from rfl)]
    refine ⟨fun x hx => ?_, List.nodup_cons.mpr ⟨fun hmem => ?_, ih.2⟩⟩
    · rcases List.mem_cons.mp hx with rfl | hx
      · exact hvisited
      · exact fun hold => ih.1 x hx (List.mem_cons_of_mem p hold)
    · exact ih.1 p hmem List.mem_cons_self

theorem nodup_preorder (r : Registry) (c : ClassId) :
    ((r.preorder c).filterMap Stop.class?).Nodup := by
  obtain ⟨hnew, hnodup⟩ := nodup_walk r [c] (r.referencesOf c)
  rw [preorder_eq, List.filterMap_cons_some (show Stop.class? (.visit c) = some c from rfl)]
  exact List.nodup_cons.mpr ⟨fun hmem => hnew c hmem List.mem_cons_self, hnodup⟩

/-! ## Parents come first -/

/-- The walk goes up the parents before it comes to any interface. -/
theorem parents_prefix_walkFrom {path : List ClassId} (hpath : (c :: path).IsChain r.IsParent)
    (hnodup : (c :: path).Nodup) (hnew : ∀ x ∈ c :: path, x ∉ visited)
    (rest : List QualifiedName) : (c :: path).map Stop.visit <+: r.walkFrom visited c rest := by
  induction path generalizing c visited rest with
  | nil =>
    rw [walkFrom, if_neg (hnew c List.mem_cons_self)]
    exact ⟨_, rfl⟩
  | cons p path ih =>
    rw [List.isChain_cons_cons] at hpath
    obtain ⟨⟨d, parent, hd, hparent, hp⟩, hpath⟩ := hpath
    rw [List.nodup_cons] at hnodup
    have hreferences : r.referencesOf c = parent :: d.interfaces := by
      rw [referencesOf_eq hd, ClassDecl.references, hparent]
      rfl
    rw [walkFrom, if_neg (hnew c List.mem_cons_self), hreferences, List.cons_append, walk_bound hp,
      List.map_cons, List.prefix_cons_inj]
    refine ih hpath hnodup.2 (fun x hx hmem => ?_) _
    rcases List.mem_cons.mp hmem with rfl | hmem
    · exact hnodup.1 hx
    · exact hnew x (List.mem_cons_of_mem c hx) hmem

/-- There is a way up the parents on which no class is met twice. -/
theorem exists_path_of_ascent (h : Relation.ReflTransGen r.IsParent c x) :
    ∃ path, (c :: path).IsChain r.IsParent ∧ (c :: path).Nodup ∧ (c :: path).getLast? = some x := by
  induction h using Relation.ReflTransGen.head_induction_on with
  | refl => exact ⟨[], List.isChain_singleton x, List.nodup_singleton x, rfl⟩
  | @head c y hparent _ ih =>
    obtain ⟨path, hpath, hnodup, hlast⟩ := ih
    by_cases hc : c ∈ y :: path
    · -- the way from `y` comes back to `c`: what is above that is left
      obtain ⟨before, after, hsplit⟩ := List.append_of_mem hc
      rw [hsplit] at hpath hnodup hlast
      refine ⟨after, hpath.right_of_append, hnodup.of_append_right, ?_⟩
      rwa [List.getLast?_append_cons] at hlast
    · refine ⟨y :: path, hpath.cons_cons hparent, List.nodup_cons.mpr ⟨hc, hnodup⟩, ?_⟩
      rwa [List.getLast?_cons_cons]

/-! ## The search along the walk -/

/-- The search goes no further: the class declares the constant, or the name is not
bound. -/
def Decides (r : Registry) (name : String) : Stop → Prop
  | .visit c => r.DeclaresConstant c name
  | .dangling _ => True

instance (r : Registry) (name : String) : (stop : Stop) → Decidable (r.Decides name stop)
  | .visit c => inferInstanceAs (Decidable (r.DeclaresConstant c name))
  | .dangling _ => inferInstanceAs (Decidable True)

/-- The first stop that decides a search. -/
def firstStop (r : Registry) (name : String) (order : List Stop) : Option Stop :=
  order.find? fun stop => r.Decides name stop

theorem firstStop_dangling (listed : QualifiedName) (order : List Stop) :
    r.firstStop name (.dangling listed :: order) = some (.dangling listed) :=
  List.find?_cons_of_pos (decide_eq_true trivial)

theorem firstStop_of_declares (h : r.DeclaresConstant c name) (order : List Stop) :
    r.firstStop name (.visit c :: order) = some (.visit c) :=
  List.find?_cons_of_pos (decide_eq_true h)

theorem firstStop_of_not (h : ¬ r.DeclaresConstant c name) (order : List Stop) :
    r.firstStop name (.visit c :: order) = r.firstStop name order :=
  List.find?_cons_of_neg fun hdecides => h (of_decide_eq_true hdecides)

/-- Nothing decides the search exactly if all names that are met are bound and nothing
that is reached declares the constant. -/
theorem firstStop_eq_none_iff :
    r.firstStop name (r.preorder c) = none ↔
      (∀ listed, ¬ r.Missing c listed) ∧ r.Undeclared name c := by
  simp only [firstStop, List.find?_eq_none, mem_preorder_iff, decide_eq_true_eq, Undeclared]
  constructor
  · intro h
    refine ⟨fun listed hmissing => ?_, fun x hx => ?_⟩
    · exact h (.dangling listed) (stepsTo_dangling_iff.mpr hmissing) trivial
    · exact h (.visit x) (stepsTo_visit_iff.mpr hx)
  · rintro ⟨hbound, hundeclared⟩ (x | listed) hstop
    · exact hundeclared x (stepsTo_visit_iff.mp hstop)
    · exact absurd (stepsTo_dangling_iff.mp hstop) (hbound listed)

/-- A part of a search ends at the first stop that decides it on a part of the walk.
Where it ends in vain, the walk goes on from the classes that it has visited, with
whatever names are left. -/
def KeepsTo (r : Registry) (name : String) (part : List QualifiedName → List Stop)
    (search : Eval Registry (Option ClassId × List ClassId)) : Prop :=
  (search r).Meets
    (fun found s => s = r ∧ ∀ rest, r.firstStop name (part rest) =
      match found with
      | (some x, _) => some (.visit x)
      | (none, after) => r.firstStop name (r.walk after rest))
    (fun f s => s = r ∧ ∃ listed, f = .raised (.classNotFound listed.text) ∧
      ∀ rest, r.firstStop name (part rest) = some (.dangling listed))
    True

theorem searchReferences_keepsTo
    {search : ClassId → List ClassId → Eval Registry (Option ClassId × List ClassId)}
    (hr : r.Indexed) (hhook : r.autoloader = none)
    (hsearch : ∀ p visited, r.Issued p → r.KeepsTo name (r.walkFrom visited p) (search p visited))
    (names : List QualifiedName) (visited : List ClassId) :
    r.KeepsTo name (fun rest => r.walk visited (names ++ rest))
      (searchReferences search names visited) := by
  induction names generalizing visited with
  | nil => exact ⟨rfl, fun rest => rfl⟩
  | cons listed others ih =>
    have hlookup := (Within.refl hhook).lookup listed
    unfold KeepsTo
    rw [searchReferences, Eval.bind_apply, hlookup]
    simp only [List.cons_append]
    cases hp : r.idOf? listed with
    | none =>
      refine ⟨rfl, listed, rfl, fun rest => ?_⟩
      rw [walk_unbound hp, firstStop_dangling]
    | some p =>
      simp only [walk_bound hp]
      refine Eval.meets_bind (Outcome.Meets.imp (hsearch p visited (hr listed p hp))
        (fun _ _ h => h) ?_ id) ?_
      · rintro f s ⟨hs, missing, hf, hfirst⟩
        exact ⟨hs, missing, hf, fun rest => hfirst (others ++ rest)⟩
      · rintro ⟨owner?, between⟩ s ⟨rfl, hfirst⟩
        cases owner? with
        | some owner => exact ⟨rfl, fun rest => hfirst (others ++ rest)⟩
        | none =>
          -- the rest of the names goes on from where the search has left off
          simp only [hfirst]
          exact ih between

theorem searchConstant_keepsTo (hr : r.Indexed) (hhook : r.autoloader = none) (name : String)
    (depth : Nat) :
    ∀ c visited, r.Issued c →
      r.KeepsTo name (r.walkFrom visited c) (searchConstant name depth c visited) := by
  induction depth with
  | zero => exact fun _ _ _ => trivial
  | succ depth ih =>
    intro c visited hc
    obtain ⟨d, hd⟩ := issued_iff_decl?.mp hc
    unfold KeepsTo searchConstant
    split
    · rename_i hvisited
      have hvisited : c ∈ visited := by simpa using hvisited
      exact ⟨rfl, fun rest => by rw [walkFrom, if_pos hvisited]⟩
    · rename_i hnew
      have hnew : c ∉ visited := by simpa using hnew
      rw [decl_bind hd]
      split
      · rename_i hown
        refine ⟨rfl, fun rest => ?_⟩
        rw [walkFrom, if_neg hnew, firstStop_of_declares ⟨d, hd, hown⟩]
      · rename_i hown
        have hnot : ¬ r.DeclaresConstant c name := by
          rintro ⟨d', hd', hown'⟩
          rw [hd] at hd'
          cases hd'
          exact hown hown'
        have hwalk : ∀ rest, r.firstStop name (r.walkFrom visited c rest) =
            r.firstStop name (r.walk (c :: visited) (d.references ++ rest)) := fun rest => by
          rw [walkFrom, if_neg hnew, firstStop_of_not hnot, referencesOf_eq hd]
        simp only [hwalk]
        exact searchReferences_keepsTo hr hhook ih d.references (c :: visited)

/-- Where a search of the classes above `c` ends, which declares `d`. -/
def endOfSearch (r : Registry) (c : ClassId) (d : ClassDecl) (name : String) :
    Outcome Registry LazySite :=
  match r.firstStop name (r.preorder c) with
  | some (.visit x) => .value ⟨x, .constant name⟩ r
  | some (.dangling listed) => .failure (.raised (.classNotFound listed.text)) r
  | none => .failure (.raised (.undefinedConstant d.name.text name)) r

theorem locate_eq_endOfSearch (hr : r.Indexed) (hhook : r.autoloader = none)
    (hd : r.decl? c = some d) {current : ClassId} {qualifier : Qualifier}
    (htarget : target current qualifier r = .value c r) {depth : Nat} (hdepth : r.size < depth) :
    locate depth current qualifier name r = r.endOfSearch c d name := by
  have hc : r.Issued c := .of_decl? hd
  have hends : searchConstant name depth c [] r ≠ .tooDeep := by
    intro hspent
    have hstill :=
      searchConstant_still (.refl hhook) hr name depth c [] hc ⟨List.nodup_nil, by simp⟩
    rw [Still, hspent] at hstill
    exact absurd hstill (Nat.not_le.mpr hdepth)
  have hkeeps := searchConstant_keepsTo hr hhook name depth c [] hc
  unfold KeepsTo at hkeeps
  show (target current qualifier >>= _) r = _
  rw [Eval.bind_apply, htarget]
  dsimp only
  rw [Eval.bind_apply, endOfSearch, preorder]
  cases hsearch : searchConstant name depth c [] r with
  | tooDeep => exact absurd hsearch hends
  | failure f s =>
    rw [hsearch] at hkeeps
    obtain ⟨rfl, listed, rfl, hfirst⟩ := hkeeps
    rw [hfirst]
  | value found s =>
    rw [hsearch] at hkeeps
    obtain ⟨owner?, after⟩ := found
    obtain ⟨rfl, hfirst⟩ := hkeeps
    rw [hfirst]
    cases owner? with
    | some x => rfl
    | none =>
      dsimp only
      rw [walk_nil, decl_bind hd]
      rfl

/-! ## Searches -/

/-- The order lists the walk up from a class. -/
structure Surveys (r : Registry) (c : ClassId) (order : List Stop) : Prop where
  once : (order.filterMap Stop.class?).Nodup
  reached : ∀ x, .visit x ∈ order ↔ r.Reaches c x
  missing : ∀ listed, .dangling listed ∈ order ↔ r.Missing c listed
  /-- Everything up the parents comes before the rest. -/
  parents : ∀ path, (c :: path).IsChain r.IsParent → (c :: path).Nodup →
    (c :: path).map Stop.visit <+: order

/-- What a search of the classes above `c`, which declares `d`, ends with: `order` is
gone through up to the first stop that decides. -/
structure Searched (r : Registry) (c : ClassId) (d : ClassDecl) (order : List Stop)
    (name : String) (result : Outcome Registry LazySite) : Prop where
  found : ∀ x, result = .value ⟨x, .constant name⟩ r ↔
    r.firstStop name order = some (.visit x)
  unbound : ∀ listed, r.firstStop name order = some (.dangling listed) →
    result = .failure (.raised (.classNotFound listed.text)) r
  undefined : result = .failure (.raised (.undefinedConstant d.name.text name)) r ↔
    (∀ listed, ¬ r.Missing c listed) ∧ r.Undeclared name c
  /-- If a class up the parents declares the constant, such a class is found. -/
  nearest : ∀ y, Relation.ReflTransGen r.IsParent c y → r.DeclaresConstant y name →
    ∃ x, Relation.ReflTransGen r.IsParent c x ∧ result = .value ⟨x, .constant name⟩ r

theorem surveys_preorder (r : Registry) (c : ClassId) : r.Surveys c (r.preorder c) where
  once := nodup_preorder r c
  reached _ := mem_preorder_iff.trans stepsTo_visit_iff
  missing _ := mem_preorder_iff.trans stepsTo_dangling_iff
  parents _ hpath hnodup := parents_prefix_walkFrom hpath hnodup (by simp) []

theorem ascends_of_mem {path : List ClassId} (hpath : (c :: path).IsChain r.IsParent)
    (hx : x ∈ c :: path) : Relation.ReflTransGen r.IsParent c x := by
  induction path generalizing c with
  | nil => exact List.mem_singleton.mp hx ▸ .refl
  | cons p path ih =>
    rw [List.isChain_cons_cons] at hpath
    rcases List.mem_cons.mp hx with rfl | hx
    · exact .refl
    · exact .head hpath.1 (ih hpath.2 hx)

/-- The first stop that decides is up the parents, if any class there declares the
constant. -/
theorem Surveys.firstStop_of_ascent (h : r.Surveys c order)
    (hx : Relation.ReflTransGen r.IsParent c x) (hdeclares : r.DeclaresConstant x name) :
    ∃ y, Relation.ReflTransGen r.IsParent c y ∧ r.firstStop name order = some (.visit y) := by
  obtain ⟨path, hpath, hnodup, hlast⟩ := exists_path_of_ascent hx
  have hmem : x ∈ c :: path := List.mem_of_getLast? hlast
  obtain ⟨others, rfl⟩ := h.parents path hpath hnodup
  have hsome : (r.firstStop name ((c :: path).map Stop.visit)).isSome = true := by
    rw [firstStop, List.find?_isSome]
    exact ⟨.visit x, List.mem_map_of_mem hmem, decide_eq_true hdeclares⟩
  obtain ⟨stop, hstop⟩ := Option.isSome_iff_exists.mp hsome
  obtain ⟨y, hy, rfl⟩ := List.mem_map.mp (List.mem_of_find?_eq_some hstop)
  refine ⟨y, ascends_of_mem hpath hy, ?_⟩
  rw [firstStop, List.find?_append, ← firstStop, hstop]
  rfl

theorem searched_endOfSearch (r : Registry) (c : ClassId) (d : ClassDecl) (name : String) :
    r.Searched c d (r.preorder c) name (r.endOfSearch c d name) := by
  have hvisit : ∀ x, r.firstStop name (r.preorder c) = some (.visit x) →
      r.endOfSearch c d name = .value ⟨x, .constant name⟩ r := fun x hx => by
    rw [endOfSearch, hx]
  refine ⟨fun x => ⟨fun hresult => ?_, hvisit x⟩, fun listed hlisted => ?_, ?_,
    fun y hy hdeclares => ?_⟩
  · unfold endOfSearch at hresult
    split at hresult
    · rename_i hfirst
      cases hresult
      exact hfirst
    · cases hresult
    · cases hresult
  · rw [endOfSearch, hlisted]
  · rw [← firstStop_eq_none_iff, endOfSearch]
    split <;> simp_all
  · obtain ⟨x, hx, hfirst⟩ := (surveys_preorder r c).firstStop_of_ascent hy hdeclares
    exact ⟨x, hx, hvisit x hfirst⟩

/-- Where no hook is installed, whatever has been resolved or has failed: a fetch from
a class goes through the order that visits each class once, parents first, up to the
first class that declares the constant or the first name that is not bound.  The bound on
nesting suffices if it exceeds the number of classes. -/
theorem Reachable.search_in_preorder (h : r.Reachable) (hhook : r.autoloader = none)
    (hd : r.decl? c = some d) :
    r.Surveys c (r.preorder c) ∧
      ∀ name depth current qualifier, target current qualifier r = .value c r → r.size < depth →
        fetch depth current qualifier name = locate depth current qualifier name >>= force depth ∧
          r.Searched c d (r.preorder c) name (locate depth current qualifier name r) := by
  refine ⟨surveys_preorder r c, fun name depth current qualifier htarget hdepth => ?_⟩
  refine ⟨fetchWith_eq _ depth current qualifier name, ?_⟩
  rw [locate_eq_endOfSearch h.indexed hhook hd htarget hdepth]
  exact searched_endOfSearch r c d name

/-- Two classes are each other's parent, and each lists an interface that declares the
constant.  The search visits both classes, then the interface of the second one; the
name that is not bound comes later and matters only where nothing is found. -/
theorem Reachable.search_in_preorder_around_cycle :
    let decls : List ClassDecl :=
      [{ name := ⟨"A"⟩, parent := some ⟨"B"⟩, interfaces := [⟨"I"⟩, ⟨"Ghost"⟩] },
        { name := ⟨"B"⟩, parent := some ⟨"A"⟩, interfaces := [⟨"J"⟩] },
        .addConstant { name := "X", value := .settled (.int 1) }
          { name := ⟨"I"⟩, kind := .interface },
        .addConstant { name := "X", value := .settled (.int 2) }
          { name := ⟨"J"⟩, kind := .interface }]
    ∃ r d, Run (new {}) (decls.map .register) r ∧ r.autoloader = none ∧ r.decl? ⟨0⟩ = some d ∧
      r.Surveys ⟨0⟩ (r.preorder ⟨0⟩) ∧
      r.Searched ⟨0⟩ d (r.preorder ⟨0⟩) "X" (locate 5 ⟨0⟩ .self "X" r) ∧
      r.firstStop "X" (r.preorder ⟨0⟩) = some (.visit ⟨3⟩) ∧
      r.Searched ⟨0⟩ d (r.preorder ⟨0⟩) "Z" (locate 5 ⟨0⟩ .self "Z" r) ∧
      (locate 5 ⟨0⟩ .self "Z" r).answer? = some (.error (.raised (.classNotFound "Ghost"))) := by
  intro decls
  have hrun : (performAll 1 (decls.map .register) (new {})).map (fun r =>
      (r.autoloader.isNone, (r.decl? ⟨0⟩).isSome, r.size, (locate 5 ⟨0⟩ .self "X" r).answer?,
        (locate 5 ⟨0⟩ .self "Z" r).answer?)) =
      some (true, true, 4, some (.ok ⟨⟨3⟩, .constant "X"⟩),
        some (.error (.raised (.classNotFound "Ghost")))) := rfl
  obtain ⟨r, hr, hresults⟩ := Option.map_eq_some_iff.mp hrun
  simp only [Prod.mk.injEq] at hresults
  obtain ⟨hhook, hdeclared, hsize, hfound, hunbound⟩ := hresults
  replace hhook : r.autoloader = none := Option.isNone_iff_eq_none.mp hhook
  obtain ⟨d, hd⟩ := Option.isSome_iff_exists.mp hdeclared
  have hrun : Run (new {}) _ r := .of_performAll hr
  have hdepth : r.size < 5 := by omega
  obtain ⟨hsurveys, hsearched⟩ := Reachable.search_in_preorder hrun.reachable hhook hd
  have hX := (hsearched "X" 5 ⟨0⟩ .self rfl hdepth).2
  have hZ := (hsearched "Z" 5 ⟨0⟩ .self rfl hdepth).2
  refine ⟨r, d, hrun, hhook, hd, hsurveys, hX, ?_, hZ, hunbound⟩
  obtain ⟨s, hs⟩ := Outcome.answer?_eq_ok_iff.mp hfound
  have hstill := locate_still (.refl hhook) hrun.idle.1 (.of_decl? hd) 5 .self "X"
  rw [Still, hs] at hstill
  rw [hstill.1] at hs
  exact (hX.found ⟨3⟩).mp hs

end Registry
end Lineage
