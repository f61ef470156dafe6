/-
Names of classes, qualified by a namespace.
-/
import Lineage.Text.Fold

namespace Lineage

/-- A class name as it was written, without the one leading backslash that a
fully qualified reference may have.  Two names are the same if they agree up to
ASCII letter case; the spelling is kept for display. -/
structure QualifiedName where
  text : String
  deriving Repr, Inhabited

namespace QualifiedName

/-- What stands between the parts of a name. -/
def separator : Char := '\\'

/-- Drop one leading separator. -/
def stripSeparator : List Char → List Char
  | [] => []
  | c :: rest => if c = separator then rest else c :: rest

/-- Read a name from its written form. -/
def parse (written : String) : QualifiedName :=
  { text := String.ofList (stripSeparator written.toList) }

/-- The folded text under which a class is filed. -/
def key (name : QualifiedName) : String :=
  Text.fold name.text

instance : BEq QualifiedName := ⟨fun a b => a.key == b.key⟩

/-- The parts before and after the last separator. -/
def cutLast : List Char → Option (List Char × List Char)
  | [] => none
  | c :: rest =>
    match cutLast rest with
    | some (before, after) => some (c :: before, after)
    | none => if c = separator then some ([], rest) else none

/-- Everything before the last separator; a global name has none. -/
def space? (name : QualifiedName) : Option String :=
  (cutLast name.text.toList).map fun parts => String.ofList parts.1

/-- The name without its namespace. -/
def short (name : QualifiedName) : String :=
  match cutLast name.text.toList with
  | some (_, after) => String.ofList after
  | none => name.text

def isGlobal (name : QualifiedName) : Bool :=
  !name.text.toList.contains separator

/-- The name that `short` has in the same namespace.  It is read like any
written name, so a leading separator is dropped here too. -/
def sibling (name : QualifiedName) (short : String) : QualifiedName :=
  match name.space? with
  | some space => parse (space ++ String.singleton separator ++ short)
  | none => parse short

/-- The name marked as a class name, for diagnostics. -/
def marked (name : QualifiedName) : String :=
  "ClassName(" ++ name.text ++ ")"

/-! ## Reading and splitting -/

theorem beq_iff {a b : QualifiedName} : (a == b) = true ↔ a.key = b.key := by
  simp [BEq.beq]

/-- A name has no namespace exactly when it has no separator. -/
theorem cutLast_eq_none_iff (l : List Char) : cutLast l = none ↔ separator ∉ l := by
  induction l with
  | nil => simp [cutLast]
  | cons c rest ih =>
    unfold cutLast
    split
    · rename_i before after h
      have : ¬ separator ∉ rest := fun hn => by rw [ih.mpr hn] at h; cases h
      simp only [List.mem_cons, not_or]
      constructor
      · intro h'; cases h'
      · intro h'; exact absurd h'.2 this
    · rename_i h
      by_cases hc : c = separator
      · simp [hc]
      · simp [hc, Ne.symm hc, ih.mp h]

/-- The two parts, joined by the separator, are the whole, and the second part
has no separator. -/
theorem cutLast_eq_some_iff (l before after : List Char) :
    cutLast l = some (before, after) ↔ l = before ++ separator :: after ∧ separator ∉ after := by
  induction l generalizing before with
  | nil => simp [cutLast]
  | cons c rest ih =>
    unfold cutLast
    split
    · rename_i before' after' h
      have hr := (ih before').mp
      constructor
      · intro heq
        cases heq
        obtain ⟨rfl, hn⟩ := hr h
        exact ⟨rfl, hn⟩
      · rintro ⟨heq, hn⟩
        cases before with
        | nil =>
          simp only [List.nil_append, List.cons.injEq] at heq
          obtain ⟨rfl, rfl⟩ := heq
          rw [(cutLast_eq_none_iff rest).mpr hn] at h
          cases h
        | cons d before =>
          simp only [List.cons_append, List.cons.injEq] at heq
          obtain ⟨rfl, rfl⟩ := heq
          rw [(ih before).mpr ⟨rfl, hn⟩] at h
          cases h
          rfl
    · rename_i h
      have hrest := (cutLast_eq_none_iff rest).mp h
      by_cases hc : c = separator
      · subst hc
        simp only [if_true, Option.some.injEq, Prod.mk.injEq]
        constructor
        · rintro ⟨rfl, rfl⟩
          exact ⟨rfl, hrest⟩
        · rintro ⟨heq, hn⟩
          cases before with
          | nil =>
            simp only [List.nil_append, List.cons.injEq, true_and] at heq
            exact ⟨rfl, heq⟩
          | cons d before =>
            simp only [List.cons_append, List.cons.injEq] at heq
            exact absurd (heq.2 ▸ by simp) hrest
      · simp only [hc, if_false, reduceCtorEq, false_iff, not_and]
        intro heq
        cases before with
        | nil =>
          simp only [List.nil_append, List.cons.injEq] at heq
          exact absurd heq.1 hc
        | cons d before =>
          simp only [List.cons_append, List.cons.injEq] at heq
          exact absurd (heq.2 ▸ by simp) hrest

end QualifiedName
end Lineage
