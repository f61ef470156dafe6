/-
Taking a name apart and putting it together again.

A name is its namespace and its short name, joined by the separator
(`QualifiedName.within`), and joining undoes splitting.  `QualifiedName.sibling` reads the
joined text like a written name, so it drops a leading separator.  A name has one to drop
only if it was written with two (`QualifiedName.Rooted`).  Short names survive this, the
namespace of a rooted name does not, and the name that `sibling` builds from a name's own
parts is the name as it is read a second time (`QualifiedName.sibling_splits`).
-/
import Lineage.Name

namespace Lineage
namespace QualifiedName

variable {name : QualifiedName} {short : String}

/-! ## Splitting -/

theorem space?_eq_none_iff : name.space? = none ↔ separator ∉ name.text.toList := by
  rw [space?, Option.map_eq_none_iff, cutLast_eq_none_iff]

/-- The parts of a name whose text is known to be joined. -/
theorem split_of_text {before after : List Char}
    (ht : name.text.toList = before ++ separator :: after) (hfree : separator ∉ after) :
    name.space? = some (String.ofList before) ∧ name.short = String.ofList after := by
  have hcut := (cutLast_eq_some_iff _ _ _).mpr ⟨ht, hfree⟩
  exact ⟨by rw [space?, hcut]; rfl, by rw [QualifiedName.short, hcut]⟩

/-- A name without a separator is its own short name. -/
theorem split_of_global (hfree : separator ∉ name.text.toList) :
    name.space? = none ∧ name.short = name.text := by
  have hcut := (cutLast_eq_none_iff _).mpr hfree
  exact ⟨space?_eq_none_iff.mpr hfree, by rw [QualifiedName.short, hcut]⟩

/-- A name is global, or it is joined from the parts of a split. -/
theorem split_cases (name : QualifiedName) :
    separator ∉ name.text.toList ∨ ∃ before after,
      name.text.toList = before ++ separator :: after ∧ separator ∉ after := by
  cases hcut : cutLast name.text.toList with
  | none => exact .inl ((cutLast_eq_none_iff _).mp hcut)
  | some parts => exact .inr ⟨parts.1, parts.2, (cutLast_eq_some_iff _ _ _).mp hcut⟩

/-! ## Joining -/

/-- The name with this short name in the namespace of `name`, spelled out. -/
def within (name : QualifiedName) (short : String) : QualifiedName where
  text :=
    match name.space? with
    | some space => space ++ String.singleton separator ++ short
    | none => short

/-- A sibling is the joined name, read like a written one. -/
theorem sibling_eq_parse (name : QualifiedName) (short : String) :
    name.sibling short = parse (name.within short).text := by
  rw [sibling, within]
  cases name.space? <;> rfl

theorem within_split (name : QualifiedName) (hs : separator ∉ short.toList) :
    (name.within short).space? = name.space? ∧ (name.within short).short = short := by
  cases hspace : name.space? with
  | none =>
    have ht : (name.within short).text = short := by rw [within, hspace]
    have hsplit := split_of_global (ht ▸ hs)
    exact ⟨hsplit.1, hsplit.2.trans ht⟩
  | some space =>
    have ht : (name.within short).text.toList = space.toList ++ separator :: short.toList := by
      simp [within, hspace]
    have hsplit := split_of_text ht hs
    rwa [String.ofList_toList, String.ofList_toList] at hsplit

/-- Joining undoes splitting. -/
theorem within_short (name : QualifiedName) : name.within name.short = name := by
  obtain hfree | ⟨before, after, ht, hfree⟩ := split_cases name
  · obtain ⟨hspace, hshort⟩ := split_of_global hfree
    rw [within, hspace, hshort]
  · obtain ⟨hspace, hshort⟩ := split_of_text ht hfree
    have htext : (name.within name.short).text = name.text := by
      apply String.toList_injective
      simp [within, hspace, hshort, ht]
    exact congrArg QualifiedName.mk htext

/-! ## Reading a name again -/

/-- The name still begins with a separator. -/
def Rooted (name : QualifiedName) : Prop :=
  name.text.toList.head? = some separator

theorem rooted_parse_iff (written : String) :
    (parse written).Rooted ↔ [separator, separator] <+: written.toList := by
  rw [Rooted, parse, String.toList_ofList]
  rcases written.toList with _ | ⟨c, _ | ⟨d, rest⟩⟩
  · simp [stripSeparator]
  · by_cases hc : c = separator <;> simp [stripSeparator, hc]
  · by_cases hc : c = separator
    · simp [stripSeparator, hc, eq_comm]
    · simp [stripSeparator, hc, eq_comm]

theorem parse_text_of_not_rooted (h : ¬ name.Rooted) : parse name.text = name := by
  have hstrip : stripSeparator name.text.toList = name.text.toList := by
    cases hl : name.text.toList with
    | nil => rfl
    | cons c rest => exact if_neg fun hc => h (by rw [Rooted, hl, hc]; rfl)
  rw [parse, hstrip, String.ofList_toList]

theorem parse_text_of_rooted (h : name.Rooted) :
    name.text.toList = separator :: (parse name.text).text.toList := by
  obtain ⟨rest, hl⟩ := List.head?_eq_some_iff.mp h
  rw [parse, hl, String.toList_ofList]
  rfl

/-- A namespace without its leading separator; what is left of a namespace that is empty
is none. -/
def unrooted (space : String) : Option String :=
  match space.toList with
  | [] => none
  | _ :: _ => some (parse space).text

/-- A name read again has the same short name, and its namespace lacks the leading
separator. -/
theorem parse_split (name : QualifiedName) :
    (parse name.text).space? = name.space?.bind unrooted ∧
      (parse name.text).short = name.short := by
  obtain hfree | ⟨before, after, ht, hfree⟩ := split_cases name
  · have hroot : ¬ name.Rooted := fun h => hfree (List.mem_of_head? h)
    rw [parse_text_of_not_rooted hroot, (split_of_global hfree).1]
    exact ⟨rfl, rfl⟩
  · obtain ⟨hspace, hshort⟩ := split_of_text ht hfree
    cases before with
    | nil =>
      have hread : (parse name.text).text.toList = after := by
        rw [parse, ht, String.toList_ofList]
        rfl
      have hsplit := split_of_global (hread ▸ hfree)
      refine ⟨by rw [hsplit.1, hspace]; rfl, ?_⟩
      rw [hsplit.2, hshort, ← hread, String.ofList_toList]
    | cons c rest =>
      have hread : (parse name.text).text.toList =
          stripSeparator (c :: rest) ++ separator :: after := by
        rw [parse, ht, String.toList_ofList]
        by_cases hc : c = separator <;> simp [stripSeparator, hc]
      have hsplit := split_of_text hread hfree
      refine ⟨?_, hsplit.2.trans hshort.symm⟩
      rw [hsplit.1, hspace, Option.bind_some, unrooted, String.toList_ofList, parse,
        String.toList_ofList]

/-- Reading again changes the namespace of exactly the rooted names. -/
theorem space?_parse_text_iff (name : QualifiedName) :
    (parse name.text).space? = name.space? ↔ ¬ name.Rooted := by
  refine ⟨fun heq hroot => ?_, fun h => by rw [parse_text_of_not_rooted h]⟩
  -- The two names agree in both parts and so in their text, but one is shorter.
  have hsame : parse name.text = name := by
    rw [← within_short (parse name.text), (parse_split name).2, within, heq]
    exact within_short name
  have hlen := congrArg List.length (parse_text_of_rooted hroot)
  rw [hsame, List.length_cons] at hlen
  omega

/-- Reading again changes the key of exactly the rooted names. -/
theorem parse_text_beq_iff (name : QualifiedName) :
    (parse name.text == name) = true ↔ ¬ name.Rooted := by
  rw [beq_iff]
  refine ⟨fun heq hroot => ?_, fun h => by rw [parse_text_of_not_rooted h]⟩
  have hlen := congrArg (fun key => key.toList.length) heq
  simp only [key, Text.toList_fold, List.length_map] at hlen
  have hroots := congrArg List.length (parse_text_of_rooted hroot)
  rw [List.length_cons] at hroots
  omega

/-! ## Siblings -/

/-- A sibling of a written name has the short name asked for and the namespace that the
name has when it is read a second time; a name's own short name gives the name itself, read
a second time.  So siblings stay in the namespace, and splitting a name and joining its
parts is the identity, exactly if the name was not written with two leading separators. -/
theorem sibling_splits (written short : String) (hs : separator ∉ short.toList) :
    ((parse written).sibling short).short = short ∧
      ((parse written).sibling short).space? = (parse (parse written).text).space? ∧
      (parse written).sibling (parse written).short = parse (parse written).text ∧
      (((parse written).sibling short).space? = (parse written).space? ↔
        ¬ [separator, separator] <+: written.toList) ∧
      (((parse written).sibling (parse written).short == parse written) = true ↔
        ¬ [separator, separator] <+: written.toList) := by
  have hsplit := within_split (parse written) hs
  have hread := parse_split ((parse written).within short)
  have hspace : ((parse written).sibling short).space? = (parse (parse written).text).space? := by
    rw [sibling_eq_parse, hread.1, hsplit.1, (parse_split (parse written)).1]
  have hown : (parse written).sibling (parse written).short = parse (parse written).text := by
    rw [sibling_eq_parse, within_short]
  refine ⟨?_, hspace, hown, ?_, ?_⟩
  · rw [sibling_eq_parse, hread.2, hsplit.2]
  · rw [hspace, space?_parse_text_iff, rooted_parse_iff]
  · rw [hown, parse_text_beq_iff, rooted_parse_iff]

/-- Two leading separators leave a name in the namespace whose name is empty; its siblings
are global. -/
theorem sibling_splits_rooted :
    (parse "\\\\Foo").space? = some "" ∧ separator ∉ "Bar".toList ∧
      ((parse "\\\\Foo").sibling "Bar").short = "Bar" ∧
      ((parse "\\\\Foo").sibling "Bar").space? = none ∧
      ((parse "\\\\Foo").sibling "Bar").space? ≠ (parse "\\\\Foo").space? := by
  have hs : separator ∉ "Bar".toList := by decide
  obtain ⟨hshort, hspace, -, hkept, -⟩ := sibling_splits "\\\\Foo" "Bar" hs
  exact ⟨by decide, hs, hshort, hspace.trans (by decide), fun h => hkept.mp h (by decide)⟩

end QualifiedName
end Lineage
