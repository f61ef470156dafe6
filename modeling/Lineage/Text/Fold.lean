/-
Comparison of names without regard to letter case.
-/
namespace Lineage
namespace Text

/-- The text with each of the twenty-six ASCII capitals replaced by its small
letter.  Letters outside ASCII stay, so `É` and `é` fold to different texts. -/
def fold (s : String) : String :=
  String.ofList (s.toList.map Char.toLower)

@[simp] theorem toList_fold (s : String) : (fold s).toList = s.toList.map Char.toLower := by
  simp [fold]

/-- A small letter is no capital, so folding a letter twice is folding it once. -/
theorem toLower_toLower (c : Char) : c.toLower.toLower = c.toLower := by
  unfold Char.toLower
  split
  · rename_i h
    have lo := UInt32.le_iff_toNat_le.mp h.1
    have hi := UInt32.le_iff_toNat_le.mp h.2
    have big : ¬ (c.val + ('a'.val - 'A'.val)) ≤ 'Z'.val := by
      rw [UInt32.le_iff_toNat_le, UInt32.toNat_add]
      simp at lo hi ⊢
      omega
    exact dif_neg fun h' => big h'.2
  · rfl

/-- Folding is a choice of one spelling: a folded text is its own fold. -/
@[simp] theorem fold_fold (s : String) : fold (fold s) = fold s := by
  apply String.toList_injective
  simp only [toList_fold, List.map_map]
  exact List.map_congr_left fun c _ => toLower_toLower c

theorem fold_append (s t : String) : fold (s ++ t) = fold s ++ fold t := by
  apply String.toList_injective
  simp

end Text
end Lineage
