/-
Registries that differ in spelling only.

Two registries without a hook are the same but for spelling if every class has the
same number in both, has come as far, and inherits from the same classes, if its table
has the same keys in the same order, and if the same values are stored.  This file says
what is read off two such registries, and that they stay the same under each change
that is made to both.  Beside them stand the operations and their answers.
-/
import Lineage.Proofs.Spelling

namespace Lineage

/-! ## Links -/

structure SharedMethod.Respelled (m m' : SharedMethod) : Prop where
  owner : m.owner = m'.owner
  decl : m.decl.Respelled m'.decl

/-- The same classes, and tables with the same keys in the same order. -/
structure Links.Respelled (l l' : Links) : Prop where
  parent : l.parent = l'.parent
  interfaces : l.interfaces = l'.interfaces
  ancestors : l.ancestors = l'.ancestors
  methods : Catalog.Related SharedMethod.Respelled l.methods l'.methods
  constructor : Option.Rel SharedMethod.Respelled l.constructor l'.constructor

theorem SharedMethod.Respelled.same {a a' b b' : SharedMethod} (ha : a.Respelled a')
    (hb : b.Respelled b') : a.same b = a'.same b' := by
  have hkey : a.decl.key = a'.decl.key := ha.decl.name
  have hkey' : b.decl.key = b'.decl.key := hb.decl.name
  rw [SharedMethod.same, SharedMethod.same, ha.owner, hb.owner, hkey, hkey']

namespace Links.Respelled

variable {l l' : Links}

theorem refl_of_ancestors (ancestors : List ClassId) :
    ({ ancestors := ancestors } : Links).Respelled { ancestors := ancestors } :=
  ⟨rfl, rfl, rfl, .nil, .none⟩

theorem addAncestors (h : l.Respelled l') (others : List ClassId) :
    (l.addAncestors others).Respelled (l'.addAncestors others) :=
  { h with ancestors := by rw [Links.addAncestors, Links.addAncestors, h.ancestors] }

theorem method? (h : l.Respelled l') {name name' : String} (hname : Text.Recased name name') :
    Option.Rel SharedMethod.Respelled (l.method? name) (l'.method? name') := by
  rw [Links.method?, Links.method?, hname]
  exact h.methods.get? _

theorem hasAncestor (h : l.Respelled l') (candidate : ClassId) :
    l.hasAncestor candidate = l'.hasAncestor candidate := by
  rw [Links.hasAncestor, Links.hasAncestor, h.ancestors]

theorem extend (h : l.Respelled l') (role : Role) (id : ClassId) {b b' : Links}
    (hb : b.Respelled b') : (l.extend role id b).Respelled (l'.extend role id b') := by
  have hadded : (l.addAncestors b.ancestors).Respelled (l'.addAncestors b'.ancestors) := by
    rw [hb.ancestors]
    exact h.addAncestors b'.ancestors
  cases role with
  | parent => exact { hadded with parent := rfl, methods := hb.methods }
  | interface => exact { hadded with interfaces := congrArg (· ++ [id]) h.interfaces }

theorem declare (h : l.Respelled l') (id : ClassId) {entry entry' : String × MethodDecl}
    (hkey : entry.1 = entry'.1) (hm : entry.2.Respelled entry'.2) :
    (l.declare id entry).Respelled (l'.declare id entry') :=
  { h with methods := h.methods.put hkey ⟨rfl, hm⟩ }

end Links.Respelled

/-! ## Registries -/

structure Config.Respelled (c c' : Config) : Prop where
  constructorName : Text.Recased c.constructorName c'.constructorName
  verify : c.verify = c'.verify

inductive Standing.Respelled : Standing → Standing → Prop where
  | unresolved : Respelled .unresolved .unresolved
  | resolved {l l' : Links} (h : l.Respelled l') : Respelled (.resolved l) (.resolved l')
  | failed {e e' : Error} (h : e.Respelled e') : Respelled (.failed e) (.failed e')

inductive Fault.Respelled : Fault → Fault → Prop where
  | raised {e e' : Error} (h : e.Respelled e') : Respelled (.raised e) (.raised e')
  | unissued (id : ClassId) : Respelled (.unissued id) (.unissued id)

inductive Event.Respelled : Event → Event → Prop where
  | noted (label : String) : Respelled (.noted label) (.noted label)
  | began (site : LazySite) : Respelled (.began site) (.began site)
  | ended (site : LazySite) {result result' : Except Error Value}
      (h : AnsweredAlike result result') : Respelled (.ended site result) (.ended site result')

structure Registration.Respelled (f f' : Registration) : Prop where
  decl : f.decl.Respelled f'.decl
  standing : f.standing.Respelled f'.standing
  statics : f.statics = f'.statics

/-- Two registries without a hook in which everything is the same but for spelling: the
numbers of classes, how far they have come, their links, and their values. -/
structure Registry.Respelled (r s : Registry) : Prop where
  config : r.config.Respelled s.config
  registrations : List.Forall₂ Registration.Respelled r.registrations s.registrations
  index : r.index = s.index
  hookless : r.autoloader = none ∧ s.autoloader = none
  resolving : r.resolving = s.resolving
  evaluating : r.evaluating = s.evaluating
  events : List.Forall₂ Event.Respelled r.events s.events

theorem Registration.Respelled.links {f f' : Registration} (h : f.Respelled f') :
    Except.Related Error.Respelled Links.Respelled f.links f'.links := by
  obtain ⟨d, st, t⟩ := f
  obtain ⟨d', st', t'⟩ := f'
  have hst : st.Respelled st' := h.standing
  cases hst with
  | unresolved => exact .error (.notResolved h.decl.name.text)
  | resolved hl => exact .ok hl
  | failed he => exact .error he

theorem Registration.Respelled.isResolved {f f' : Registration} (h : f.Respelled f') :
    f.isResolved = f'.isResolved := by
  obtain ⟨d, st, t⟩ := f
  obtain ⟨d', st', t'⟩ := f'
  have hst : st.Respelled st' := h.standing
  cases hst <;> rfl

theorem Registration.Respelled.error? {f f' : Registration} (h : f.Respelled f') :
    Option.Rel Error.Respelled f.error? f'.error? := by
  obtain ⟨d, st, t⟩ := f
  obtain ⟨d', st', t'⟩ := f'
  have hst : st.Respelled st' := h.standing
  cases hst with
  | unresolved => exact .none
  | resolved _ => exact .none
  | failed he => exact .some he

namespace Registry.Respelled

variable {r s : Registry} {c : ClassId}

theorem new {config config' : Config} (h : config.Respelled config') :
    (Registry.new config).Respelled (Registry.new config') where
  config := h
  registrations := .nil
  index := rfl
  hookless := ⟨rfl, rfl⟩
  resolving := rfl
  evaluating := rfl
  events := .nil

/-! ### Reading -/

theorem size (h : r.Respelled s) : r.size = s.size :=
  h.registrations.length_eq

theorem registration? (h : r.Respelled s) (c : ClassId) :
    Option.Rel Registration.Respelled (r.registration? c) (s.registration? c) :=
  rel_getElem? h.registrations c.index

theorem registration (h : r.Respelled s) (c : ClassId) :
    Except.Related Fault.Respelled Registration.Respelled (r.registration c)
      (s.registration c) := by
  rw [Registry.registration, Registry.registration]
  obtain ⟨hf, hf'⟩ | ⟨f, f', hf, hf', hrel⟩ := rel_cases (h.registration? c)
  · rw [hf, hf']
    exact .error (.unissued c)
  · rw [hf, hf']
    exact .ok hrel

theorem decl (h : r.Respelled s) (c : ClassId) :
    Except.Related Fault.Respelled ClassDecl.Respelled (r.decl c) (s.decl c) :=
  (h.registration c).map fun _ _ hf => hf.decl

theorem links (h : r.Respelled s) (c : ClassId) :
    Except.Related Fault.Respelled Links.Respelled (r.links c) (s.links c) := by
  have hreg := h.registration c
  rw [Registry.links, Registry.links]
  generalize r.registration c = o at hreg ⊢
  generalize s.registration c = o' at hreg ⊢
  cases hreg with
  | error hf => exact .error hf
  | @ok f f' hf =>
    have hlinks := hf.links
    dsimp only
    generalize f.links = l at hlinks ⊢
    generalize f'.links = l' at hlinks ⊢
    cases hlinks with
    | ok hl => exact .ok hl
    | error he => exact .error (.raised he)

theorem nameText (h : r.Respelled s) (c : ClassId) :
    Text.Recased (r.nameText c) (s.nameText c) := by
  rw [Registry.nameText, Registry.nameText]
  obtain ⟨hf, hf'⟩ | ⟨f, f', hf, hf', hrel⟩ := rel_cases (h.registration? c)
  · rw [hf, hf']
  · rw [hf, hf']
    exact hrel.decl.name.text

theorem decl? (h : r.Respelled s) (c : ClassId) :
    Option.Rel ClassDecl.Respelled (r.decl? c) (s.decl? c) :=
  rel_map_option (fun _ _ hf => hf.decl) (h.registration? c)

theorem classes (h : r.Respelled s) :
    List.Forall₂ (fun f f' => f.1 = f'.1 ∧ f.2.Respelled f'.2) r.classes s.classes :=
  rel_mapIdx (fun _ _ _ hf => ⟨rfl, hf.decl⟩) h.registrations

theorem isResolved (h : r.Respelled s) (c : ClassId) :
    Except.Related Fault.Respelled Eq (r.isResolved c) (s.isResolved c) :=
  (h.registration c).map fun _ _ hf => hf.isResolved

theorem resolutionError (h : r.Respelled s) (c : ClassId) :
    Except.Related Fault.Respelled (Option.Rel Error.Respelled) (r.resolutionError c)
      (s.resolutionError c) :=
  (h.registration c).map fun _ _ hf => hf.error?

theorem isInstanceOf (h : r.Respelled s) (c candidate : ClassId) :
    Except.Related Fault.Respelled Eq (r.isInstanceOf c candidate) (s.isInstanceOf c candidate) :=
  (h.links c).map fun _ _ hl => hl.hasAncestor candidate

theorem findMethod (h : r.Respelled s) (c : ClassId) {m m' : String} (hm : Text.Recased m m') :
    Except.Related Fault.Respelled (Option.Rel SharedMethod.Respelled) (r.findMethod c m)
      (s.findMethod c m') :=
  (h.links c).map fun _ _ hl => hl.method? hm

theorem constructor (h : r.Respelled s) (c : ClassId) :
    Except.Related Fault.Respelled (Option.Rel SharedMethod.Respelled) (r.constructor c)
      (s.constructor c) :=
  (h.links c).map fun _ _ hl => hl.constructor

theorem sameMethod (h : r.Respelled s) (c p : ClassId) {m m' n n' : String}
    (hm : Text.Recased m m') (hn : Text.Recased n n') :
    Except.Related Fault.Respelled Eq (r.sameMethod c m p n) (s.sameMethod c m' p n') := by
  refine (h.registration c).bind fun _ _ _ => (h.registration p).bind fun _ _ _ => ?_
  refine (h.findMethod c hm).bind fun x x' hx => (h.findMethod p hn).bind fun y y' hy => ?_
  refine .ok ?_
  cases hx with
  | none => rfl
  | some hx =>
    cases hy with
    | none => rfl
    | some hy => exact congrArg some (hx.same hy)

theorem idOf? (h : r.Respelled s) {n n' : QualifiedName} (hn : n.Respelled n') :
    r.idOf? n = s.idOf? n' := by
  rw [Registry.idOf?, Registry.idOf?, h.index, hn.key]

theorem contains (h : r.Respelled s) {n n' : QualifiedName} (hn : n.Respelled n') :
    r.contains n = s.contains n' := by
  rw [Registry.contains, Registry.contains, h.index, hn.key]

theorem cycle? (h : r.Respelled s) (c : ClassId) :
    Option.Rel Error.Respelled (r.cycle? c) (s.cycle? c) := by
  rw [Registry.cycle?, Registry.cycle?, h.resolving]
  split
  · refine .some (.inheritanceCycle (h.nameText c) ?_)
    exact List.forall₂_map_left_iff.mpr
      (List.forall₂_map_right_iff.mpr (List.forall₂_same.mpr fun x _ => h.nameText x))
  · exact .none

/-! ### Changing -/

theorem updateAt (h : r.Respelled s) (c : ClassId) {f g : Registration → Registration}
    (hfg : ∀ a b, a.Respelled b → (f a).Respelled (g b)) :
    (r.updateAt c f).Respelled (s.updateAt c g) :=
  { h with registrations := rel_modify hfg h.registrations c.index }

theorem setStanding (h : r.Respelled s) (c : ClassId) {st st' : Standing}
    (hst : st.Respelled st') : (r.setStanding c st).Respelled (s.setStanding c st') :=
  h.updateAt c fun _ _ hf => { hf with standing := hst }

theorem settle (h : r.Respelled s) (site : LazySite) (v : Value) :
    (r.settle site v).Respelled (s.settle site v) :=
  h.updateAt site.owner fun _ _ hf => { hf with decl := hf.decl.settle site.member v }

theorem setStatics (h : r.Respelled s) (c : ClassId) (table : StaticTable) :
    (r.setStatics c table).Respelled (s.setStatics c table) :=
  h.updateAt c fun _ _ hf => { hf with statics := rfl }

theorem append (h : r.Respelled s) {d d' : ClassDecl} (hd : d.Respelled d') :
    (r.append d).Respelled (s.append d') :=
  { h with
    registrations := List.rel_append h.registrations (.cons ⟨hd, .unresolved, rfl⟩ .nil)
    index := by
      show r.index.put d.name.key _ = s.index.put d'.name.key _
      rw [h.index, hd.name.key, h.size] }

theorem record (h : r.Respelled s) {event event' : Event} (he : event.Respelled event') :
    (r.record event).Respelled (s.record event') :=
  { h with events := .cons he h.events }

theorem beginEvaluation (h : r.Respelled s) (site : LazySite) :
    (r.beginEvaluation site).Respelled (s.beginEvaluation site) :=
  { h with
    evaluating := congrArg (site :: ·) h.evaluating
    events := .cons (.began site) h.events }

theorem endEvaluation (h : r.Respelled s) (site : LazySite) {result result' : Except Error Value}
    (hresult : AnsweredAlike result result') :
    (r.endEvaluation site result).Respelled (s.endEvaluation site result') := by
  have hended : Registry.Respelled
      ({ r with evaluating := r.evaluating.erase site }.record (.ended site result))
      ({ s with evaluating := s.evaluating.erase site }.record (.ended site result')) :=
    { h with
      evaluating := congrArg (·.erase site) h.evaluating
      events := .cons (.ended site hresult) h.events }
  cases hresult with
  | ok hv =>
    subst hv
    exact hended.settle site _
  | error he => exact hended

theorem beginLinking (h : r.Respelled s) (c : ClassId) :
    (r.beginLinking c).Respelled (s.beginLinking c) :=
  { h with resolving := congrArg (c :: ·) h.resolving }

theorem endLinking (h : r.Respelled s) (c : ClassId) {result result' : Except Error Links}
    (hresult : Except.Related Error.Respelled Links.Respelled result result') :
    (r.endLinking c result).Respelled (s.endLinking c result') := by
  have hended : Registry.Respelled { r with resolving := r.resolving.tail }
      { s with resolving := s.resolving.tail } :=
    { h with resolving := congrArg List.tail h.resolving }
  cases hresult with
  | ok hl => exact hended.setStanding c (.resolved hl)
  | error he => exact hended.setStanding c (.failed he)

end Registry.Respelled

/-! ## Texts about a registry -/

namespace Text

theorem Recased.append {a a' b b' : String} (h : Recased a a') (h' : Recased b b') :
    Recased (a ++ b) (a' ++ b') := by
  rw [Recased, fold_append, fold_append, h, h']

theorem Recased.intercalate (sep : String) {l l' : List String} (h : List.Forall₂ Recased l l') :
    Recased (String.intercalate sep l) (String.intercalate sep l') := by
  induction h with
  | nil => rfl
  | cons hab hrest ih =>
    cases hrest with
    | nil => rwa [String.intercalate_singleton, String.intercalate_singleton]
    | cons hcd hrest =>
      rw [String.intercalate_cons_cons, String.intercalate_cons_cons]
      exact (hab.append rfl).append ih

theorem isHidden_of_printable {c : Char} (h : 0x20 ≤ c.toNat) (h' : c.toNat < 0x7f) :
    isHidden c = false := by
  obtain ⟨rest, hrest⟩ : ∃ rest, hiddenBounds = 0x0 :: 0x20 :: 0x7f :: rest := ⟨_, rfl⟩
  have hbound : ¬ 0x7f ≤ c.toNat := by omega
  simp [isHidden, hrest, h, hbound]

/-- A letter of the alphabet is shown as it is. -/
theorem quoteChar_of_letter {c : Char}
    (h : 65 ≤ c.toNat ∧ c.toNat ≤ 90 ∨ 97 ≤ c.toNat ∧ c.toNat ≤ 122) : quoteChar c = [c] := by
  have hne : ∀ d : Char, d.toNat < 65 ∨ d.toNat = 92 → c ≠ d := by
    rintro d hd rfl
    omega
  exact quoteChar_of_plain (hne _ (by decide)) (hne _ (by decide))
    (isHidden_of_printable (by omega) (by omega)) (hne _ (by decide)) (hne _ (by decide))
    (hne _ (by decide)) (hne _ (by decide))

/-- Only letters change when they are folded. -/
theorem map_toLower_quoteChar (c : Char) :
    (quoteChar c).map Char.toLower = (quoteChar c.toLower).map Char.toLower := by
  by_cases hc : c.toLower = c
  · rw [hc]
  have hcapital : 65 ≤ c.toNat ∧ c.toNat ≤ 90 ∧ c.toLower.toNat = c.toNat + 32 := by
    unfold Char.toLower at hc ⊢
    split at hc
    · rename_i h
      have lo := UInt32.le_iff_toNat_le.mp h.1
      have hi := UInt32.le_iff_toNat_le.mp h.2
      rw [dif_pos h]
      simp at lo hi
      have hsum : (c.val + ('a'.val - 'A'.val)).toNat = c.toNat + 32 := by
        rw [UInt32.toNat_add]
        simp
        omega
      exact ⟨lo, hi, hsum⟩
    · exact absurd rfl hc
  obtain ⟨hlo, hhi, hlower⟩ := hcapital
  rw [quoteChar_of_letter (.inl ⟨hlo, hhi⟩), quoteChar_of_letter (.inr (by omega)),
    List.map_singleton, List.map_singleton, toLower_toLower]

theorem Recased.quoted {a b : String} (h : Recased a b) :
    Recased (Text.quoted a) (Text.quoted b) := by
  have hshown : ∀ l : List Char, (l.flatMap quoteChar).map Char.toLower =
      (l.map Char.toLower).flatMap fun c => (quoteChar c).map Char.toLower := by
    intro l
    rw [List.map_flatMap, List.flatMap_map]
    exact List.flatMap_congr fun c _ => map_toLower_quoteChar c
  have hletters : a.toList.map Char.toLower = b.toList.map Char.toLower := by
    rw [← toList_fold, ← toList_fold, h]
  apply String.toList_injective
  simp only [toList_fold, Text.quoted, String.toList_ofList, List.map_cons, List.map_append,
    hshown, hletters]

end Text

theorem Registry.recordText_recased (name : String) {fields fields' : List (String × String)}
    (h : List.Forall₂ (fun f f' => f.1 = f'.1 ∧ Text.Recased f.2 f'.2) fields fields') :
    Text.Recased (recordText name fields) (recordText name fields') := by
  rw [recordText, recordText]
  refine .append (.append rfl (.intercalate ", " ?_)) rfl
  refine List.rel_map (fun f f' hf => ?_) h
  obtain ⟨hfield, hvalue⟩ := hf
  dsimp only
  rw [hfield]
  exact .append rfl hvalue

theorem Registry.Respelled.text {r s : Registry} (h : r.Respelled s) :
    Text.Recased r.text s.text := by
  have hcount : r.registrations.countP Registration.isResolved =
      s.registrations.countP Registration.isResolved := by
    rw [List.countP_eq_length_filter, List.countP_eq_length_filter]
    have hfilter := List.rel_filter
      (fun _ _ hf => Iff.of_eq (congrArg (· = true) (Registration.Respelled.isResolved hf)))
      h.registrations
    exact hfilter.length_eq
  rw [Registry.text, Registry.text, h.size, hcount, h.hookless.1, h.hookless.2]
  refine Registry.recordText_recased _ (.cons ⟨rfl, rfl⟩ (.cons ⟨rfl, rfl⟩ (.cons ⟨rfl, rfl⟩
    (.cons ⟨rfl, ?_⟩ .nil))))
  rw [Config.text, Config.text, h.config.verify]
  exact Registry.recordText_recased _ (.cons ⟨rfl, h.config.constructorName.quoted⟩
    (.cons ⟨rfl, rfl⟩ .nil))

/-! ## Operations and answers -/

/-- The same operation on the same numbers with the same values, where the sources of
declarations are compared on answers that `A` relates.  Nothing corresponds to an
operation that puts a hook in place. -/
inductive Operation.RespelledOn (A : Except Error Value → Except Error Value → Prop) :
    Operation → Operation → Prop where
  | register {d d' : ClassDecl} (h : d.RespelledOn A d') :
    RespelledOn A (.register d) (.register d')
  | declare {d d' : ClassDecl} (h : d.RespelledOn A d') :
    RespelledOn A (.declare d) (.declare d')
  | clearAutoloader : RespelledOn A .clearAutoloader .clearAutoloader
  | find {n n' : QualifiedName} (h : n.Respelled n') : RespelledOn A (.find n) (.find n')
  | contains {n n' : QualifiedName} (h : n.Respelled n') :
    RespelledOn A (.contains n) (.contains n')
  | lookup {n n' : QualifiedName} (h : n.Respelled n') : RespelledOn A (.lookup n) (.lookup n')
  | resolve {n n' : QualifiedName} (h : n.Respelled n') : RespelledOn A (.resolve n) (.resolve n')
  | resolveId (c : ClassId) : RespelledOn A (.resolveId c) (.resolveId c)
  | resolveAll : RespelledOn A .resolveAll .resolveAll
  | isResolved (c : ClassId) : RespelledOn A (.isResolved c) (.isResolved c)
  | resolutionError (c : ClassId) : RespelledOn A (.resolutionError c) (.resolutionError c)
  | links (c : ClassId) : RespelledOn A (.links c) (.links c)
  | decl (c : ClassId) : RespelledOn A (.decl c) (.decl c)
  | classes : RespelledOn A .classes .classes
  | size : RespelledOn A .size .size
  | config : RespelledOn A .config .config
  | text : RespelledOn A .text .text
  | isInstanceOf (c p : ClassId) : RespelledOn A (.isInstanceOf c p) (.isInstanceOf c p)
  | findMethod (c : ClassId) {m m' : String} (h : Text.Recased m m') :
    RespelledOn A (.findMethod c m) (.findMethod c m')
  | constructor (c : ClassId) : RespelledOn A (.constructor c) (.constructor c)
  | sameMethod (c p : ClassId) {m m' n n' : String} (hm : Text.Recased m m')
      (hn : Text.Recased n n') : RespelledOn A (.sameMethod c m p n) (.sameMethod c m' p n')
  | constant (c : ClassId) (name : String) : RespelledOn A (.constant c name) (.constant c name)
  | statics (c : ClassId) : RespelledOn A (.statics c) (.statics c)
  | setStatic (c : ClassId) (name : String) (v : Value) :
    RespelledOn A (.setStatic c name v) (.setStatic c name v)
  | replaceStatics (c : ClassId) (table : StaticTable) :
    RespelledOn A (.replaceStatics c table) (.replaceStatics c table)
  | staticOwner (c : ClassId) (name : String) :
    RespelledOn A (.staticOwner c name) (.staticOwner c name)
  | staticProperty (c : ClassId) (name : String) :
    RespelledOn A (.staticProperty c name) (.staticProperty c name)
  | setStaticProperty (c : ClassId) (name : String) (v : Value) :
    RespelledOn A (.setStaticProperty c name v) (.setStaticProperty c name v)

/-- One operation, in which names are spelled in two ways. -/
abbrev Operation.Rewritten : Operation → Operation → Prop :=
  Operation.RespelledOn Eq

abbrev Operation.Respelled : Operation → Operation → Prop :=
  Operation.RespelledOn AnsweredAlike

theorem Operation.RespelledOn.respelled {op op' : Operation} (h : op.Rewritten op')
    (hsources : op.Supplies ClassDecl.IgnoresSpelling) : op.Respelled op' := by
  cases h with
  | register h => exact .register (h.respelled (hsources.declared _ rfl))
  | declare h => exact .declare (h.respelled (hsources.declared _ rfl))
  | _ => constructor <;> assumption

/-- Numbers, flags, counts and values are the same; errors, links, methods and
declarations are the same but for spelling. -/
inductive Answer.Respelled : Answer → Answer → Prop where
  | nothing : Respelled .nothing .nothing
  | id (c : ClassId) : Respelled (.id c) (.id c)
  | id? (c : Option ClassId) : Respelled (.id? c) (.id? c)
  | flag (b : Bool) : Respelled (.flag b) (.flag b)
  | sameness (b : Option Bool) : Respelled (.sameness b) (.sameness b)
  | error? {e e' : Option Error} (h : Option.Rel Error.Respelled e e') :
    Respelled (.error? e) (.error? e')
  | failures {l l' : List (ClassId × Error)}
      (h : List.Forall₂ (fun f f' => f.1 = f'.1 ∧ f.2.Respelled f'.2) l l') :
    Respelled (.failures l) (.failures l')
  | links {l l' : Links} (h : l.Respelled l') : Respelled (.links l) (.links l')
  | decl? {d d' : Option ClassDecl} (h : Option.Rel ClassDecl.Respelled d d') :
    Respelled (.decl? d) (.decl? d')
  | classes {l l' : List (ClassId × ClassDecl)}
      (h : List.Forall₂ (fun f f' => f.1 = f'.1 ∧ f.2.Respelled f'.2) l l') :
    Respelled (.classes l) (.classes l')
  | size (n : Nat) : Respelled (.size n) (.size n)
  | config {c c' : Config} (h : c.Respelled c') : Respelled (.config c) (.config c')
  | text {t t' : String} (h : Text.Recased t t') : Respelled (.text t) (.text t')
  | method? {m m' : Option SharedMethod} (h : Option.Rel SharedMethod.Respelled m m') :
    Respelled (.method? m) (.method? m')
  | value (v : Value) : Respelled (.value v) (.value v)
  | value? (v : Option Value) : Respelled (.value? v) (.value? v)
  | statics (table : StaticTable) : Respelled (.statics table) (.statics table)

end Lineage
