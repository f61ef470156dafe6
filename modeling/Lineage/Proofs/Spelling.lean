/-
Declarations that differ in spelling only.

Names of classes and of methods are compared without regard to letter case, and a
class name may be written with a leading separator or without.  `Respelled` says of two
pieces of data, for each kind of data, that they are the same but for such spellings;
names of constants and properties have one spelling only.  Declarations that are built
in the same steps are the same but for spelling if their parts are.

A program in place of an expression gets to see names, too, in the errors that its fetches
are answered with.  So there are two relations.  Data that is rewritten has the same
programs in it, which may spell the classes that they fetch from in another way
(`Program.Rewritten`).  Data that is the same but for spelling has programs that go on in
the same way also if the answers they get are only the same but for spelling
(`Program.Respelled`).  The first implies the second if the programs do not look at how an
error spells names (`ClassDecl.RespelledOn.respelled`).  Expressions do not, and neither do
fallbacks.
-/
import Lineage.Proofs.Confined
import Mathlib.Data.List.Forall2

namespace Lineage

/-! ## Relations on collections -/

section Related

variable {α α' β β' ε ε' : Type} {R : α → α' → Prop} {S : β → β' → Prop} {E : ε → ε' → Prop}

theorem rel_cases {o : Option α} {o' : Option α'} (h : Option.Rel R o o') :
    (o = none ∧ o' = none) ∨ ∃ a a', o = some a ∧ o' = some a' ∧ R a a' := by
  cases h with
  | none => exact .inl ⟨rfl, rfl⟩
  | some h => exact .inr ⟨_, _, rfl, rfl, h⟩

theorem rel_map_option {f : α → β} {g : α' → β'} (hfg : ∀ a a', R a a' → S (f a) (g a'))
    {o : Option α} {o' : Option α'} (h : Option.Rel R o o') :
    Option.Rel S (o.map f) (o'.map g) := by
  cases h with
  | none => exact .none
  | some h => exact .some (hfg _ _ h)

theorem rel_getElem? {l : List α} {l' : List α'} (h : List.Forall₂ R l l') (i : Nat) :
    Option.Rel R l[i]? l'[i]? := by
  induction h generalizing i with
  | nil => exact .none
  | cons hab _ ih =>
    cases i with
    | zero => exact .some hab
    | succ i => exact ih i

theorem rel_modify {f : α → α} {g : α' → α'} (hfg : ∀ a a', R a a' → R (f a) (g a'))
    {l : List α} {l' : List α'} (h : List.Forall₂ R l l') (i : Nat) :
    List.Forall₂ R (l.modify i f) (l'.modify i g) := by
  induction h generalizing i with
  | nil => cases i <;> exact .nil
  | cons hab hrest ih =>
    cases i with
    | zero => exact .cons (hfg _ _ hab) hrest
    | succ i => exact .cons hab (ih i)

theorem rel_mapIdx {f : Nat → α → β} {g : Nat → α' → β'}
    (hfg : ∀ i a a', R a a' → S (f i a) (g i a')) {l : List α} {l' : List α'}
    (h : List.Forall₂ R l l') : List.Forall₂ S (l.mapIdx f) (l'.mapIdx g) := by
  induction h generalizing f g with
  | nil => exact .nil
  | cons hab _ ih =>
    rw [List.mapIdx_cons, List.mapIdx_cons]
    exact .cons (hfg 0 _ _ hab) (ih fun i => hfg (i + 1))

theorem rel_find? {p : α → Bool} {q : α' → Bool} (hpq : ∀ a a', R a a' → p a = q a')
    {l : List α} {l' : List α'} (h : List.Forall₂ R l l') :
    Option.Rel R (l.find? p) (l'.find? q) := by
  induction h with
  | nil => exact .none
  | @cons a b _ _ hab _ ih =>
    rw [List.find?_cons, List.find?_cons, hpq a b hab]
    cases q b with
    | true => exact .some hab
    | false => exact ih

theorem forall₂_imp_getElem? {T : α → α' → Prop} {l : List α} {l' : List α'}
    (h : List.Forall₂ R l l') (hRT : ∀ (i : Nat) a a', l[i]? = some a → R a a' → T a a') :
    List.Forall₂ T l l' := by
  induction h with
  | nil => exact .nil
  | cons hab _ ih => exact .cons (hRT 0 _ _ rfl hab) (ih fun i => hRT (i + 1))

theorem map_eq_of_rel {f : α → β} {g : α' → β} (hfg : ∀ a a', R a a' → f a = g a')
    {l : List α} {l' : List α'} (h : List.Forall₂ R l l') : l.map f = l'.map g := by
  have heq : List.Forall₂ Eq (l.map f) (l'.map g) := List.rel_map hfg h
  rwa [List.forall₂_eq_eq_eq] at heq

/-- Both went well, or both did not. -/
inductive Except.Related (E : ε → ε' → Prop) (R : α → α' → Prop) :
    Except ε α → Except ε' α' → Prop where
  | ok {a : α} {a' : α'} (h : R a a') : Related E R (.ok a) (.ok a')
  | error {e : ε} {e' : ε'} (h : E e e') : Related E R (.error e) (.error e')

theorem Except.Related.map {f : α → β} {g : α' → β'} {x : Except ε α} {x' : Except ε' α'}
    (h : Related E R x x') (hfg : ∀ a a', R a a' → S (f a) (g a')) :
    Related E S (x.map f) (x'.map g) := by
  cases h with
  | ok h => exact .ok (hfg _ _ h)
  | error h => exact .error h

theorem Except.Related.bind {f : α → Except ε β} {g : α' → Except ε' β'} {x : Except ε α}
    {x' : Except ε' α'} (h : Related E R x x')
    (hfg : ∀ a a', R a a' → Related E S (f a) (g a')) : Related E S (x >>= f) (x' >>= g) := by
  cases h with
  | ok h => exact hfg _ _ h
  | error h => exact .error h

/-- The same names in the same order, and related values under them. -/
def Catalog.Related (R : α → α' → Prop) (c : Catalog α) (d : Catalog α') : Prop :=
  List.Forall₂ (fun entry entry' => entry.1 = entry'.1 ∧ R entry.2 entry'.2) c.entries d.entries

namespace Catalog.Related

variable {c : Catalog α} {d : Catalog α'}

theorem names (h : Related R c d) : c.names = d.names :=
  map_eq_of_rel (fun _ _ hentry => hentry.1) h

theorem contains (h : Related R c d) (name : String) : c.contains name = d.contains name := by
  rw [Catalog.contains, Catalog.contains, h.names]

theorem get? (h : Related R c d) (name : String) : Option.Rel R (c.get? name) (d.get? name) := by
  suffices ∀ (l : List (String × α)) (l' : List (String × α')),
      List.Forall₂ (fun entry entry' => entry.1 = entry'.1 ∧ R entry.2 entry'.2) l l' →
      Option.Rel R (l.lookup name) (l'.lookup name) from this _ _ h
  intro l l' h
  induction h with
  | nil => exact .none
  | @cons entry entry' _ _ hentry _ ih =>
    obtain ⟨key, a⟩ := entry
    obtain ⟨key', a'⟩ := entry'
    obtain ⟨rfl, ha⟩ := hentry
    rw [List.lookup_cons, List.lookup_cons]
    cases name == key with
    | true => exact .some ha
    | false => exact ih

theorem imp {T : α → α' → Prop} (h : Related R c d)
    (hRT : ∀ name a a', c.get? name = some a → R a a' → T a a') : Related T c d :=
  forall₂_imp_getElem? h fun _ entry _ hentry hrel =>
    ⟨hrel.1, hRT entry.1 _ _ (Catalog.get?_of_mem (List.mem_of_getElem? hentry)) hrel.2⟩

theorem put (h : Related R c d) {name name' : String} (hname : name = name') {a : α} {a' : α'}
    (ha : R a a') : Related R (c.put name a) (d.put name' a') := by
  subst hname
  unfold Catalog.put
  rw [Related]
  have hnames := h.names
  by_cases hin : name ∈ c.names
  · rw [dif_pos hin, dif_pos (hnames ▸ hin)]
    refine List.rel_map (fun entry entry' hentry => ⟨hentry.1, ?_⟩) h
    rw [hentry.1]
    split
    · exact ha
    · exact hentry.2
  · rw [dif_neg hin, dif_neg (hnames ▸ hin)]
    exact List.rel_append h (.cons ⟨rfl, ha⟩ .nil)

theorem modify {f : α → α} {g : α' → α'} (h : Related R c d) (name : String)
    (hfg : ∀ a a', R a a' → R (f a) (g a')) :
    Related R (c.modify name f) (d.modify name g) := by
  refine List.rel_map (fun entry entry' hentry => ⟨hentry.1, ?_⟩) h
  rw [hentry.1]
  split
  · exact hfg _ _ hentry.2
  · exact hentry.2

end Catalog.Related

end Related

/-! ## Names -/

/-- The texts differ in letter case only. -/
abbrev Text.Recased (a b : String) : Prop := fold a = fold b

namespace QualifiedName

/-- A written name that begins with no separator may get one. -/
inductive Led : String → String → Prop where
  | asIs (written : String) : Led written written
  | led {written : String} (h : written.toList.head? ≠ some separator) :
    Led written (String.singleton separator ++ written)

/-- The names were written in the same way but for letter case and a leading
separator. -/
def Respelled (a b : QualifiedName) : Prop :=
  ∃ v w v' w', Text.Recased v w ∧ Led v v' ∧ Led w w' ∧ a = parse v' ∧ b = parse w'

/-- No letter is turned into a separator, and no separator into anything else. -/
theorem toLower_eq_separator_iff (c : Char) : c.toLower = separator ↔ c = separator := by
  constructor
  · intro h
    unfold Char.toLower at h
    split at h
    · rename_i hc
      have lo := UInt32.le_iff_toNat_le.mp hc.1
      have hi := UInt32.le_iff_toNat_le.mp hc.2
      have hv := congrArg (fun c : Char => c.val.toNat) h
      simp [separator] at hv lo hi
      omega
    · exact h
  · rintro rfl
    rfl

theorem map_toLower_stripSeparator (l : List Char) :
    (stripSeparator l).map Char.toLower = stripSeparator (l.map Char.toLower) := by
  cases l with
  | nil => rfl
  | cons c rest =>
    by_cases hc : c = separator
    · simp [stripSeparator, hc, (toLower_eq_separator_iff _).mpr rfl]
    · simp [stripSeparator, hc, mt (toLower_eq_separator_iff c).mp hc]

/-- A leading separator is not part of the name. -/
theorem parse_lead (written : String) :
    parse (String.singleton separator ++ written) = { text := written } := by
  simp [parse, stripSeparator]

theorem Led.parse_eq {v v' : String} (h : Led v v') : parse v' = parse v := by
  cases h with
  | asIs => rfl
  | led hfree =>
    rw [parse_lead, parse]
    congr 1
    have hstrip : stripSeparator v.toList = v.toList := by
      cases hl : v.toList with
      | nil => rfl
      | cons c rest =>
        rw [hl] at hfree
        exact if_neg fun hc => hfree (congrArg some hc)
    rw [hstrip, String.ofList_toList]

theorem key_parse (written : String) :
    (parse written).key = String.ofList (stripSeparator (Text.fold written).toList) := by
  apply String.toList_injective
  simp [parse, key, map_toLower_stripSeparator]

/-- Names are the same but for spelling exactly when they are filed under the same
key. -/
theorem respelled_iff {a b : QualifiedName} : a.Respelled b ↔ a.key = b.key := by
  constructor
  · rintro ⟨v, w, v', w', hcase, hv, hw, rfl, rfl⟩
    rw [hv.parse_eq, hw.parse_eq, key_parse, key_parse, hcase]
  · intro h
    refine ⟨_, _, _, _, ?_, .asIs (String.singleton separator ++ a.text),
      .asIs (String.singleton separator ++ b.text), (parse_lead _).symm, (parse_lead _).symm⟩
    rw [Text.Recased, Text.fold_append, Text.fold_append]
    exact congrArg _ h

theorem Respelled.key {a b : QualifiedName} (h : a.Respelled b) : a.key = b.key :=
  respelled_iff.mp h

theorem Respelled.text {a b : QualifiedName} (h : a.Respelled b) : Text.Recased a.text b.text :=
  h.key

end QualifiedName

/-! ## Errors and expressions -/

inductive Violation.Respelled : Violation → Violation → Prop where
  | parentOfKind (kind : Kind) : Respelled (.parentOfKind kind) (.parentOfKind kind)
  | parentIs {p p' : String} (h : Text.Recased p p') (kind : Kind) :
    Respelled (.parentIs p kind) (.parentIs p' kind)
  | finalParent : Respelled .finalParent .finalParent
  | notInterface {n n' : String} (h : Text.Recased n n') :
    Respelled (.notInterface n) (.notInterface n')
  | finalMethod : Respelled .finalMethod .finalMethod
  | stated (reason : String) : Respelled (.stated reason) (.stated reason)

/-- Errors of one kind, about the same constant and with the same reason, that may spell
the names of classes and methods in different ways. -/
inductive Error.Respelled : Error → Error → Prop where
  | duplicateClass {n n' : String} (h : Text.Recased n n') :
    Respelled (.duplicateClass n) (.duplicateClass n')
  | classNotFound {n n' : String} (h : Text.Recased n n') :
    Respelled (.classNotFound n) (.classNotFound n')
  | inheritanceCycle {n n' : String} {chain chain' : List String} (h : Text.Recased n n')
      (hchain : List.Forall₂ Text.Recased chain chain') :
    Respelled (.inheritanceCycle n chain) (.inheritanceCycle n' chain')
  | circularConstant {c c' : String} (h : Text.Recased c c') (name : String) :
    Respelled (.circularConstant c name) (.circularConstant c' name)
  | notResolved {n n' : String} (h : Text.Recased n n') :
    Respelled (.notResolved n) (.notResolved n')
  | undefinedConstant {c c' : String} (h : Text.Recased c c') (name : String) :
    Respelled (.undefinedConstant c name) (.undefinedConstant c' name)
  | noParentScope {n n' : String} (h : Text.Recased n n') :
    Respelled (.noParentScope n) (.noParentScope n')
  | invalidInheritance {c c' t t' : String} {v v' : Violation} (hc : Text.Recased c c')
      (ht : Text.Recased t t') (hv : v.Respelled v') :
    Respelled (.invalidInheritance c t v) (.invalidInheritance c' t' v')
  | evaluation (failure : EvaluationFailure) : Respelled (.evaluation failure) (.evaluation failure)

theorem Violation.Respelled.refl (v : Violation) : v.Respelled v := by
  cases v with
  | parentOfKind kind => exact .parentOfKind kind
  | parentIs parent kind => exact .parentIs rfl kind
  | finalParent => exact .finalParent
  | notInterface name => exact .notInterface rfl
  | finalMethod => exact .finalMethod
  | stated reason => exact .stated reason

theorem Error.Respelled.refl (e : Error) : e.Respelled e := by
  cases e with
  | duplicateClass name => exact .duplicateClass rfl
  | classNotFound name => exact .classNotFound rfl
  | inheritanceCycle name chain =>
    exact .inheritanceCycle rfl (List.forall₂_same.mpr fun _ _ => rfl)
  | circularConstant owner name => exact .circularConstant rfl name
  | notResolved name => exact .notResolved rfl
  | undefinedConstant owner name => exact .undefinedConstant rfl name
  | noParentScope name => exact .noParentScope rfl
  | invalidInheritance name target violation => exact .invalidInheritance rfl rfl (.refl violation)
  | evaluation failure => exact .evaluation failure

/-- The same value, or errors that are the same but for spelling. -/
abbrev AnsweredAlike : Except Error Value → Except Error Value → Prop :=
  Except.Related Error.Respelled Eq

theorem AnsweredAlike.refl (result : Except Error Value) : AnsweredAlike result result := by
  cases result with
  | ok v => exact .ok rfl
  | error e => exact .error (.refl e)

inductive Qualifier.Respelled : Qualifier → Qualifier → Prop where
  | self : Respelled .self .self
  | static : Respelled .static .static
  | parent : Respelled .parent .parent
  | named {n n' : QualifiedName} (h : n.Respelled n') : Respelled (.named n) (.named n')

theorem Qualifier.Respelled.refl (q : Qualifier) : q.Respelled q := by
  cases q with
  | self => exact .self
  | static => exact .static
  | parent => exact .parent
  | named name => exact .named (QualifiedName.respelled_iff.mpr rfl)

theorem Qualifier.Respelled.trans {q₁ q₂ q₃ : Qualifier} (h : q₁.Respelled q₂)
    (h' : q₂.Respelled q₃) : q₁.Respelled q₃ := by
  cases h with
  | self => exact h'
  | static => exact h'
  | parent => exact h'
  | named hn =>
    cases h' with
    | named hn' => exact .named (QualifiedName.respelled_iff.mpr (hn.key.trans hn'.key))

inductive Expr.Respelled : Expr → Expr → Prop where
  | literal (v : Value) : Respelled (.literal v) (.literal v)
  | constant {q q' : Qualifier} (h : q.Respelled q') (name : String) :
    Respelled (.constant q name) (.constant q' name)
  | binary (op : Operator) {a a' b b' : Expr} (ha : Respelled a a') (hb : Respelled b b') :
    Respelled (.binary op a b) (.binary op a' b')
  | negate {a a' : Expr} (h : Respelled a a') : Respelled (.negate a) (.negate a')

theorem Expr.Respelled.refl (e : Expr) : e.Respelled e := by
  induction e with
  | literal v => exact .literal v
  | constant q name => exact .constant (.refl q) name
  | binary op _ _ iha ihb => exact .binary op iha ihb
  | negate _ ih => exact .negate ih

/-! ## Programs

`RespelledOn A` compares what programs do with answers that `A` relates.  There are two
uses of it.  Programs that are rewritten do the same with the same answer.  Programs that
are the same but for spelling do so also if the answers are the same but for spelling. -/

/-- The programs fetch the same constants, leave the same notes, and end with results
that `A` relates, whatever related answers they get. -/
inductive Program.RespelledOn (A : Except Error Value → Except Error Value → Prop) :
    Program → Program → Prop where
  | done {result result' : Except Error Value} (h : A result result') :
    RespelledOn A (.done result) (.done result')
  | fetch {q q' : Qualifier} {name : String} {next next' : Except Error Value → Program}
      (hq : q.Respelled q')
      (hnext : ∀ answer answer', A answer answer' → RespelledOn A (next answer) (next' answer')) :
    RespelledOn A (.fetch q name next) (.fetch q' name next')
  | note (label : String) {p p' : Program} (h : RespelledOn A p p') :
    RespelledOn A (.note label p) (.note label p')

/-- One program, in which the classes it fetches from are spelled in two ways. -/
abbrev Program.Rewritten : Program → Program → Prop :=
  Program.RespelledOn Eq

/-- Programs that go on in the same way also if their answers differ in spelling. -/
abbrev Program.Respelled : Program → Program → Prop :=
  Program.RespelledOn AnsweredAlike

/-- The program does not look at how the errors it is answered with spell the names of
classes and methods. -/
def Program.IgnoresSpelling (p : Program) : Prop :=
  p.Respelled p

namespace Program

variable {A : Except Error Value → Except Error Value → Prop} {p p' q q' : Program}

/-- What is rewritten goes on as before, so it is enough that one of the two programs
looks at no spelling. -/
theorem RespelledOn.rewrite (h : p.Respelled q) (hq : q.Rewritten q') : p.Respelled q' := by
  induction h generalizing q' with
  | done hresult =>
    cases hq with
    | done heq => exact .done (heq ▸ hresult)
  | fetch hqualifier _ ih =>
    cases hq with
    | fetch hqualifier' hnext =>
      exact .fetch (hqualifier.trans hqualifier') fun answer answer' ha =>
        ih answer answer' ha (hnext answer' answer' rfl)
  | note label _ ih =>
    cases hq with
    | note _ hrest => exact .note label (ih hrest)

theorem RespelledOn.andThen {next next' : Except Error Value → Program} (h : p.RespelledOn A p')
    (hnext : ∀ answer answer', A answer answer' → (next answer).RespelledOn A (next' answer')) :
    (p.andThen next).RespelledOn A (p'.andThen next') := by
  induction h with
  | done hresult => exact hnext _ _ hresult
  | fetch hq _ ih => exact .fetch hq fun answer answer' ha => ih answer answer' ha
  | note label _ ih => exact .note label ih

/-! An answer is related to itself, and to others at most if they are the same but for
spelling. -/

variable (hrefl : ∀ answer, A answer answer)
  (halike : ∀ answer answer', A answer answer' → AnsweredAlike answer answer')

include halike in
theorem RespelledOn.onValue {next next' : Value → Program} (h : p.RespelledOn A p')
    (hnext : ∀ v, (next v).RespelledOn A (next' v)) :
    (p.onValue next).RespelledOn A (p'.onValue next') := by
  refine h.andThen fun answer answer' ha => ?_
  cases halike answer answer' ha with
  | ok hv => exact hv ▸ hnext _
  | error _ => exact .done ha

include hrefl halike

theorem RespelledOn.orElse (hp : p.RespelledOn A p') (hq : q.RespelledOn A q') :
    (p.orElse q).RespelledOn A (p'.orElse q') := by
  refine hp.andThen fun answer answer' ha => ?_
  cases halike answer answer' ha with
  | ok hv =>
    subst hv
    exact .done (hrefl _)
  | error _ => exact hq

/-- An expression goes on with values only, and an operator has no names to spell. -/
theorem RespelledOn.ofExpr {e e' : Expr} (h : e.Respelled e') :
    (Program.ofExpr e).RespelledOn A (Program.ofExpr e') := by
  induction h with
  | literal v => exact .done (hrefl _)
  | constant hq name => exact .fetch hq fun _ _ ha => .done ha
  | binary op _ _ iha ihb =>
    exact iha.onValue halike fun a => ihb.onValue halike fun b => .done (hrefl _)
  | negate _ ih => exact ih.onValue halike fun a => .done (hrefl _)

end Program

/-! ## Sources -/

inductive Initializer.RespelledOn (A : Except Error Value → Except Error Value → Prop) :
    Initializer → Initializer → Prop where
  | expr {e e' : Expr} (h : e.Respelled e') : RespelledOn A (.expr e) (.expr e')
  | program {p p' : Program} (h : p.RespelledOn A p') : RespelledOn A (.program p) (.program p')

abbrev Initializer.Rewritten : Initializer → Initializer → Prop :=
  Initializer.RespelledOn Eq

abbrev Initializer.Respelled : Initializer → Initializer → Prop :=
  Initializer.RespelledOn AnsweredAlike

def Initializer.IgnoresSpelling (source : Initializer) : Prop :=
  source.toProgram.IgnoresSpelling

namespace Initializer

variable {source source' fallback fallback' : Initializer}

theorem RespelledOn.toProgram (h : source.Respelled source') :
    source.toProgram.Respelled source'.toProgram := by
  cases h with
  | expr h => exact .ofExpr AnsweredAlike.refl (fun _ _ h => h) h
  | program h => exact h

theorem RespelledOn.respelled (h : source.Rewritten source') (hi : source.IgnoresSpelling) :
    source.Respelled source' := by
  cases h with
  | expr h => exact .expr h
  | program h => exact .program (Program.RespelledOn.rewrite hi h)

theorem RespelledOn.toProgram_rewritten (h : source.Rewritten source') :
    source.toProgram.Rewritten source'.toProgram := by
  cases h with
  | expr h => exact .ofExpr (fun _ => rfl) (fun _ _ h => h ▸ AnsweredAlike.refl _) h
  | program h => exact h

theorem RespelledOn.orElse (h : source.Rewritten source') (hf : fallback.Rewritten fallback') :
    (source.orElse fallback).Rewritten (source'.orElse fallback') :=
  .program (.orElse (fun _ => rfl) (fun _ _ h => h ▸ AnsweredAlike.refl _) h.toProgram_rewritten
    hf.toProgram_rewritten)

/-! ### Sources that look at no spelling -/

theorem ignoresSpelling_expr (e : Expr) : (expr e).IgnoresSpelling :=
  RespelledOn.toProgram (.expr (.refl e))

theorem IgnoresSpelling.noted (label : String) (h : source.IgnoresSpelling) :
    (source.noted label).IgnoresSpelling :=
  .note label h

/-- That the first source failed is seen, but not with which error. -/
theorem IgnoresSpelling.orElse (h : source.IgnoresSpelling) (hf : fallback.IgnoresSpelling) :
    (source.orElse fallback).IgnoresSpelling :=
  Program.RespelledOn.orElse AnsweredAlike.refl (fun _ _ h => h) h hf

end Initializer

theorem Combination.ignoresSpelling (k : Combination) : k.source.IgnoresSpelling := by
  induction k with
  | expr e => exact Initializer.ignoresSpelling_expr e
  | noted label _ ih => exact ih.noted label
  | orElse _ _ ihf ihs => exact ihf.orElse ihs

inductive Lazy.RespelledOn (A : Except Error Value → Except Error Value → Prop) :
    Lazy → Lazy → Prop where
  | pending {source source' : Initializer} (h : source.RespelledOn A source') :
    RespelledOn A (.pending source) (.pending source')
  | settled (v : Value) : RespelledOn A (.settled v) (.settled v)

abbrev Lazy.Respelled : Lazy → Lazy → Prop :=
  Lazy.RespelledOn AnsweredAlike

/-! ## Declarations -/

section RespelledOn

variable (A : Except Error Value → Except Error Value → Prop)

structure ConstantDecl.RespelledOn (c c' : ConstantDecl) : Prop where
  name : c.name = c'.name
  modifiers : c.modifiers = c'.modifiers
  value : c.value.RespelledOn A c'.value

structure PropertyDecl.RespelledOn (p p' : PropertyDecl) : Prop where
  name : p.name = p'.name
  modifiers : p.modifiers = p'.modifiers
  default : Option.Rel (Lazy.RespelledOn A) p.default p'.default
  location : p.location = p'.location

/-- Methods are filed under their folded names, too. -/
structure MethodDecl.Respelled (m m' : MethodDecl) : Prop where
  name : Text.Recased m.name m'.name
  modifiers : m.modifiers = m'.modifiers
  body : m.body = m'.body
  location : m.location = m'.location
  declaredBy : Option.Rel QualifiedName.Respelled m.declaredBy m'.declaredBy

/-- Classes of one declaration in which names are spelled in two ways, and sources are
compared on answers that `A` relates. -/
structure ClassDecl.RespelledOn (d d' : ClassDecl) : Prop where
  name : d.name.Respelled d'.name
  kind : d.kind = d'.kind
  modifiers : d.modifiers = d'.modifiers
  location : d.location = d'.location
  parent : Option.Rel QualifiedName.Respelled d.parent d'.parent
  interfaces : List.Forall₂ QualifiedName.Respelled d.interfaces d'.interfaces
  constants : Catalog.Related (ConstantDecl.RespelledOn A) d.constants d'.constants
  properties : List.Forall₂ (PropertyDecl.RespelledOn A) d.properties d'.properties
  methods : Catalog.Related MethodDecl.Respelled d.methods d'.methods

end RespelledOn

/-- One declaration in which names are spelled in two ways. -/
abbrev ClassDecl.Rewritten : ClassDecl → ClassDecl → Prop :=
  ClassDecl.RespelledOn Eq

abbrev ClassDecl.Respelled : ClassDecl → ClassDecl → Prop :=
  ClassDecl.RespelledOn AnsweredAlike

/-- No value of the class comes from a program that looks at the spelling of an error. -/
def ClassDecl.IgnoresSpelling (d : ClassDecl) : Prop :=
  ∀ m source, d.lazy? m = some (.pending source) → source.IgnoresSpelling

/-- An expression never sees an error. -/
theorem ClassDecl.Plain.ignoresSpelling {d : ClassDecl} (h : d.Plain) : d.IgnoresSpelling := by
  intro m source hm
  obtain ⟨x, rfl⟩ := h m source hm
  exact Initializer.ignoresSpelling_expr x

variable {A : Except Error Value → Except Error Value → Prop}

theorem Lazy.RespelledOn.settle {l l' : Lazy} (h : l.RespelledOn A l') (v : Value) :
    (l.settle v).RespelledOn A (l'.settle v) := by
  cases h with
  | pending _ => exact .settled v
  | settled w => exact .settled w

theorem Lazy.RespelledOn.respelled {l l' : Lazy} (h : l.RespelledOn Eq l')
    (hi : ∀ source, l = .pending source → source.IgnoresSpelling) : l.Respelled l' := by
  cases h with
  | pending h => exact .pending (h.respelled (hi _ rfl))
  | settled v => exact .settled v

theorem ConstantDecl.RespelledOn.settle {c c' : ConstantDecl} (h : c.RespelledOn A c')
    (v : Value) : (c.settle v).RespelledOn A (c'.settle v) :=
  ⟨h.name, h.modifiers, h.value.settle v⟩

theorem PropertyDecl.RespelledOn.settle {p p' : PropertyDecl} (h : p.RespelledOn A p')
    (v : Value) : (p.settle v).RespelledOn A (p'.settle v) :=
  ⟨h.name, h.modifiers, rel_map_option (fun _ _ hl => hl.settle v) h.default, h.location⟩

theorem PropertyDecl.RespelledOn.defaultValue? {p p' : PropertyDecl} (h : p.RespelledOn A p') :
    p.defaultValue? = p'.defaultValue? := by
  rw [PropertyDecl.defaultValue?, PropertyDecl.defaultValue?]
  obtain ⟨hl, hl'⟩ | ⟨l, l', hl, hl', h⟩ := rel_cases h.default
  · rw [hl, hl']
  · rw [hl, hl']
    cases h with
    | pending _ => rfl
    | settled v => rfl

theorem MethodDecl.Respelled.qualifiedName {m m' : MethodDecl} (h : m.Respelled m') :
    Text.Recased m.qualifiedName m'.qualifiedName := by
  rw [MethodDecl.qualifiedName, MethodDecl.qualifiedName]
  obtain ⟨hn, hn'⟩ | ⟨n, n', hn, hn', hname⟩ := rel_cases h.declaredBy
  · rw [hn, hn']
    exact h.name
  · rw [hn, hn']
    dsimp only
    rw [Text.Recased, Text.fold_append, Text.fold_append, Text.fold_append, Text.fold_append,
      hname.text, h.name]

theorem MethodDecl.Respelled.overrideViolation? {m m' : MethodDecl} (h : m.Respelled m') :
    Option.Rel Violation.Respelled m.overrideViolation? m'.overrideViolation? := by
  rw [MethodDecl.overrideViolation?, MethodDecl.overrideViolation?, MethodDecl.isFinal,
    MethodDecl.isFinal, h.modifiers]
  split
  · exact .some .finalMethod
  · exact .none

namespace ClassDecl.RespelledOn

variable {d d' b b' : ClassDecl}

/-! ### Declarations that are built in the same steps -/

theorem named {n n' : QualifiedName} (h : n.Respelled n') :
    ({ name := n } : ClassDecl).RespelledOn A { name := n' } :=
  ⟨h, rfl, rfl, rfl, .none, .nil, .nil, .nil, .nil⟩

theorem withParent (h : d.RespelledOn A d') {n n' : QualifiedName} (hn : n.Respelled n') :
    (d.withParent n).RespelledOn A (d'.withParent n') :=
  { h with parent := .some hn }

theorem addConstant (h : d.RespelledOn A d') {c c' : ConstantDecl} (hc : c.RespelledOn A c') :
    (d.addConstant c).RespelledOn A (d'.addConstant c') :=
  { h with constants := h.constants.put hc.name hc }

/-- A method replaces one whose name differs in letter case only, in both cases or in
none. -/
theorem addMethod (h : d.RespelledOn A d') {m m' : MethodDecl} (hm : m.Respelled m') :
    (d.addMethod m).RespelledOn A (d'.addMethod m') :=
  { h with methods := h.methods.put hm.name { hm with declaredBy := .some h.name } }

/-- Only the sources are compared in another way, and one of the two declarations has
none that look at a spelling. -/
theorem respelled (h : d.Rewritten d') (hi : d.IgnoresSpelling) : d.Respelled d' :=
  { h with
    constants := h.constants.imp fun name c c' hget hc =>
      { hc with
        value := hc.value.respelled fun source hsource => by
          refine hi (.constant name) source ?_
          exact (congrArg (Option.map ConstantDecl.value) hget).trans (congrArg some hsource) }
    properties := by
      refine forall₂_imp_getElem? h.properties fun i p p' hget hp => ?_
      refine { hp with default := ?_ }
      obtain ⟨hl, hl'⟩ | ⟨l, l', hl, hl', hlazy⟩ := rel_cases hp.default
      · rw [hl, hl']
        exact .none
      · rw [hl, hl']
        refine .some (hlazy.respelled fun source hsource => hi (.default i) source ?_)
        rw [ClassDecl.lazy?, hget, ← hsource, ← hl]
        rfl }

/-! ### What is read off a declaration -/

theorem references (h : d.RespelledOn A d') :
    List.Forall₂ QualifiedName.Respelled d.references d'.references := by
  rw [ClassDecl.references, ClassDecl.references]
  obtain ⟨hn, hn'⟩ | ⟨n, n', hn, hn', hname⟩ := rel_cases h.parent
  · rw [hn, hn']
    exact h.interfaces
  · rw [hn, hn']
    exact .cons hname h.interfaces

theorem inheritances (h : d.RespelledOn A d') :
    List.Forall₂ (fun ref ref' => ref.1 = ref'.1 ∧ ref.2.Respelled ref'.2) d.inheritances
      d'.inheritances := by
  have hlisted : List.Forall₂ (fun ref ref' => ref.1 = ref'.1 ∧ ref.2.Respelled ref'.2)
      (d.interfaces.map (Role.interface, ·)) (d'.interfaces.map (Role.interface, ·)) :=
    List.rel_map (fun _ _ hn => ⟨rfl, hn⟩) h.interfaces
  rw [ClassDecl.inheritances, ClassDecl.inheritances]
  obtain ⟨hn, hn'⟩ | ⟨n, n', hn, hn', hname⟩ := rel_cases h.parent
  · rw [hn, hn']
    exact hlisted
  · rw [hn, hn']
    exact .cons ⟨rfl, hname⟩ hlisted

theorem lazy? (h : d.RespelledOn A d') (m : LazyMember) :
    Option.Rel (Lazy.RespelledOn A) (d.lazy? m) (d'.lazy? m) := by
  cases m with
  | constant name => exact rel_map_option (fun _ _ hc => hc.value) (h.constants.get? name)
  | default i =>
    have hp := rel_getElem? h.properties i
    show Option.Rel _ (d.properties[i]?.bind _) (d'.properties[i]?.bind _)
    generalize d.properties[i]? = o at hp ⊢
    generalize d'.properties[i]? = o' at hp ⊢
    cases hp with
    | none => exact .none
    | some hp => exact hp.default

theorem label (h : d.RespelledOn A d') (m : LazyMember) : m.label d = m.label d' := by
  cases m with
  | constant name => rfl
  | default i =>
    rw [LazyMember.label, LazyMember.label]
    obtain ⟨hp, hp'⟩ | ⟨p, p', hp, hp', hrel⟩ := rel_cases (rel_getElem? h.properties i)
    · rw [hp, hp']
    · rw [hp, hp']
      dsimp only
      rw [hrel.name]

theorem lazyMembers (h : d.RespelledOn A d') : d.lazyMembers = d'.lazyMembers := by
  rw [ClassDecl.lazyMembers, ClassDecl.lazyMembers, h.constants.names, h.properties.length_eq]

theorem settle (h : d.RespelledOn A d') (m : LazyMember) (v : Value) :
    (d.settle m v).RespelledOn A (d'.settle m v) := by
  cases m with
  | constant name =>
    exact { h with constants := h.constants.modify name fun _ _ hc => hc.settle v }
  | default i =>
    exact { h with properties := rel_modify (fun _ _ hp => hp.settle v) h.properties i }

theorem declaresStatic (h : d.RespelledOn A d') (name : String) :
    Registry.declaresStatic d name = Registry.declaresStatic d' name := by
  have hfind : Option.Rel (PropertyDecl.RespelledOn A) (d.property? name) (d'.property? name) :=
    rel_find? (fun p p' hp => by rw [hp.name]) h.properties
  rw [Registry.declaresStatic, Registry.declaresStatic]
  obtain ⟨hp, hp'⟩ | ⟨p, p', hp, hp', hrel⟩ := rel_cases hfind
  · rw [hp, hp']
  · rw [hp, hp', Option.any_some, Option.any_some, PropertyDecl.isStatic, PropertyDecl.isStatic,
      hrel.modifiers]

theorem statics (h : d.RespelledOn A d') : StaticTable.ofDecl d = StaticTable.ofDecl d' := by
  have hstatic : List.Forall₂ (PropertyDecl.RespelledOn A) d.staticProperties
      d'.staticProperties := by
    refine List.rel_filter (fun p p' hp => ?_) h.properties
    exact Iff.of_eq (congrArg (fun m : Modifiers => m.isStatic = true) hp.modifiers)
  rw [StaticTable.ofDecl, StaticTable.ofDecl]
  congr 1
  exact map_eq_of_rel (fun p p' hp => by rw [hp.name, hp.defaultValue?]) hstatic

theorem isFinal (h : d.RespelledOn A d') : d.isFinal = d'.isFinal := by
  rw [ClassDecl.isFinal, ClassDecl.isFinal, h.modifiers]

theorem parentViolation? (h : d.RespelledOn A d') (hb : b.RespelledOn A b') :
    Option.Rel Violation.Respelled (d.parentViolation? b) (d'.parentViolation? b') := by
  rw [ClassDecl.parentViolation?, ClassDecl.parentViolation?, h.kind, hb.kind, hb.isFinal]
  split
  · exact .some (.parentOfKind _)
  · split
    · exact .some (.parentIs hb.name.text _)
    · split
      · exact .some .finalParent
      · exact .none

theorem interfaceViolation? (h : d.RespelledOn A d') :
    Option.Rel Violation.Respelled d.interfaceViolation? d'.interfaceViolation? := by
  rw [ClassDecl.interfaceViolation?, ClassDecl.interfaceViolation?, h.kind]
  split
  · exact .none
  · exact .some (.notInterface h.name.text)

theorem violation? (h : d.RespelledOn A d') (hb : b.RespelledOn A b') (role : Role) :
    Option.Rel Violation.Respelled (role.violation? d b) (role.violation? d' b') := by
  cases role with
  | parent => exact h.parentViolation? hb
  | interface => exact hb.interfaceViolation?

end ClassDecl.RespelledOn

end Lineage
