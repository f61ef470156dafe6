/-
The float nearest to an integer.

The divisor of an integer division is tested for zero as a float.  Rounding an integer to
double precision keeps a leading bit of it, so the float is zero exactly for the integer
zero (`Value.widen_beq_zero_iff`), also where the integer has more bits than a mantissa
holds.  The steps follow the rounding: a shift to the target exponent, a rounding up of
what the shift dropped, a second shift for the carry, and the packing of the result.
-/
import Lineage.Value.Arithmetic
import Mathlib

namespace Lineage
namespace Value

open Float.Model Float.Model.UnpackedFloat

/-! ## Rounding -/

theorem mantissa_shiftRight (em : ExtendedMantissa) (k : Nat) :
    (em >>> k).mantissa = em.mantissa / 2 ^ k := by
  induction k with
  | zero => exact (Nat.div_one _).symm
  | succ k ih =>
    change (em >>> k).mantissa / 2 = _
    rw [ih, Nat.div_div_eq_div_mul, Nat.pow_succ]

theorem mantissa_ofMantissaAndAccuracy (m : Nat) (accuracy : Accuracy) :
    (ExtendedMantissa.ofMantissaAndAccuracy m accuracy).mantissa = m := by
  rcases accuracy with _ | (_ | _ | _) <;> rfl

/-- Rounding never takes from the mantissa. -/
theorem mantissa_le_roundedMantissa (em : ExtendedMantissa) :
    em.mantissa ≤ em.roundedMantissa := by
  rcases em with ⟨m, r, s⟩
  cases r <;> cases s <;>
    simp [ExtendedMantissa.roundedMantissa, ExtendedMantissa.accuracy,
      Accuracy.roundToNearestEven]

theorem targetExponent_binary64 (m : Nat) (e : Int) :
    Format.binary64.targetExponent (totalExponent m e) = max (m.log2 + e - 52) (-1074) := by
  simp only [Format.targetExponent, totalExponent, Format.mantissaBits, Format.minExponent]
  norm_num
  omega

/-- A shift to the target exponent leaves the leading bit, and at most 53 bits. -/
theorem shiftToTargetExponent_bounds {m : Nat} {e : Int} (accuracy : Accuracy) (hm : 0 < m)
    (he : -1074 ≤ e) :
    0 < (shiftToTargetExponent Format.binary64 m e accuracy).1.mantissa ∧
      (shiftToTargetExponent Format.binary64 m e accuracy).1.mantissa < 2 ^ 53 ∧
      -1074 ≤ (shiftToTargetExponent Format.binary64 m e accuracy).2 := by
  obtain ⟨k, hk⟩ : ∃ k, k = (max (m.log2 + e - 52) (-1074) - e).toNat := ⟨_, rfl⟩
  have hshift : shiftToTargetExponent Format.binary64 m e accuracy =
      (ExtendedMantissa.ofMantissaAndAccuracy m accuracy >>> k, e + k) := by
    rw [shiftToTargetExponent, targetExponent_binary64, shiftToExponent, hk]
  rw [hshift]
  dsimp only
  rw [mantissa_shiftRight, mantissa_ofMantissaAndAccuracy]
  refine ⟨Nat.div_pos ?_ (Nat.two_pow_pos k), ?_, by omega⟩
  · calc 2 ^ k ≤ 2 ^ m.log2 := Nat.pow_le_pow_right (by omega) (by omega)
      _ ≤ m := Nat.log2_self_le hm.ne'
  · rw [Nat.div_lt_iff_lt_mul (Nat.two_pow_pos k), ← Nat.pow_add]
    calc m < 2 ^ (m.log2 + 1) := Nat.lt_log2_self
      _ ≤ 2 ^ (53 + k) := Nat.pow_le_pow_right (by omega) (by omega)

/-- What a positive mantissa is rounded to is finite and not zero. -/
theorem round_of_pos (sign : Sign) {m : Nat} (hm : 0 < m) :
    ∃ m' e' h', UnpackedFloat.round Format.binary64 sign m 0 = .finite sign m' e' h' ∧
      m' < 2 ^ 53 ∧ -1074 ≤ e' := by
  obtain ⟨k, hk⟩ : ∃ k, k = (0 - max ((m.log2 : Int) + 0 - 52) (-1074)).toNat := ⟨_, rfl⟩
  have hround : UnpackedFloat.round Format.binary64 sign m 0 =
      roundWithAccuracy Format.binary64 sign (m <<< k) (0 - k) .exact := by
    rw [UnpackedFloat.round, targetExponent_binary64, decreaseExponent, hk]
  have hpos : 0 < m <<< k := by
    rw [Nat.shiftLeft_eq]
    exact Nat.mul_pos hm (Nat.two_pow_pos k)
  obtain ⟨hfirst, -, he₁⟩ :=
    shiftToTargetExponent_bounds (m := m <<< k) (e := 0 - k) .exact hpos (by omega)
  rw [hround, roundWithAccuracy]
  generalize shiftToTargetExponent Format.binary64 (m <<< k) (0 - k) .exact = first
    at hfirst he₁ ⊢
  -- The rounding may carry into one more bit, which the second shift drops.
  have hrounded : 0 < first.1.roundedMantissa :=
    Nat.lt_of_lt_of_le hfirst (mantissa_le_roundedMantissa first.1)
  obtain ⟨hsecond, hlt, he₂⟩ := shiftToTargetExponent_bounds .exact hrounded he₁
  exact ⟨_, _, hsecond, dif_neg hsecond.ne', hlt, he₂⟩

/-! ## Packing -/

theorem unpack_packComponents_ne_zero {sign : Sign} {e : BitVec 11} {m : BitVec 52}
    (h : e ≠ 0#11 ∨ m ≠ 0#52) (sign' : Sign) :
    UnpackedFloat.unpack Format.binary64 (packComponents Format.binary64 sign e m) ≠
      .zero sign' := by
  rw [UnpackedFloat.unpack]
  simp only [unpackMantissa_packComponents, unpackExponent_packComponents]
  intro hzero
  split at hzero
  · split at hzero <;> cases hzero
  · split at hzero
    · rename_i he
      split at hzero
      · rename_i hm
        exact h.elim (fun h => h he) (fun h => h hm)
      · cases hzero
    · cases hzero

/-- A finite float that is not zero is none after packing. -/
theorem unpack_pack_ne_zero (sign : Sign) {m : Nat} {e : Int} (h : 0 < m) (hm : m < 2 ^ 53)
    (he : -1074 ≤ e) (sign' : Sign) :
    (Float.Model.pack (.finite sign m e h)).unpack ≠ .zero sign' := by
  obtain ⟨b, hb⟩ : ∃ b, b = (e + (Format.binary64.exponentBias : Int) +
    (Format.binary64.mantissaBitsWithoutImplicit : Int)).toNat := ⟨_, rfl⟩
  have hbiased : 0 < b := by
    have hbias : Format.binary64.exponentBias = 1023 := by decide
    have hbits : Format.binary64.mantissaBitsWithoutImplicit = 52 := rfl
    rw [hbias, hbits] at hb
    omega
  change UnpackedFloat.unpack Format.binary64
    (UnpackedFloat.pack Format.binary64 (.finite sign m e h)) ≠ _
  simp only [UnpackedFloat.pack, ← hb]
  split
  · exact unpack_packComponents_ne_zero (.inl (by decide)) sign'
  · rename_i hsmall
    split
    · -- A normal number has a biased exponent that is not zero.
      refine unpack_packComponents_ne_zero (.inl fun hzero => ?_) sign'
      have hb0 := congrArg BitVec.toNat hzero
      rw [BitVec.toNat_ofNat, Nat.mod_eq_of_lt (by omega)] at hb0
      simp at hb0
      omega
    · -- A subnormal number keeps its mantissa.
      rename_i hlog
      have hlt : m < 2 ^ 52 := by
        refine (Nat.log2_lt h.ne').mp ?_
        have := (Nat.log2_lt h.ne').mpr hm
        simp only [Format.mantissaBits] at hlog
        omega
      refine unpack_packComponents_ne_zero (.inr fun hzero => ?_) sign'
      have hm0 := congrArg BitVec.toNat hzero
      rw [BitVec.toNat_ofNat, Nat.mod_eq_of_lt hlt] at hm0
      simp at hm0
      omega

/-! ## Zero -/

theorem compare_zero_eq_iff (x : UnpackedFloat) :
    x.compare (.zero .positive) = some .eq ↔ ∃ sign, x = .zero sign := by
  rcases x with (_ | _) | _ | _ | ⟨_ | _⟩ <;> simp [UnpackedFloat.compare]

theorem unpack_zero : (0 : Float).toModel.unpack = .zero .positive :=
  rfl

theorem beq_zero_iff (x : Float) : (x == 0) = true ↔ ∃ sign, x.toModel.unpack = .zero sign := by
  change (x.toModel.unpack.compare (0 : Float).toModel.unpack == some .eq) = true ↔ _
  rw [unpack_zero, beq_iff_eq, compare_zero_eq_iff]

/-- An integer is zero as a float exactly if it is zero. -/
theorem widen_beq_zero_iff (n : Int64) : (widen n == 0) = true ↔ n = 0 := by
  rw [beq_zero_iff]
  refine ⟨fun ⟨sign', h⟩ => ?_, by rintro rfl; exact ⟨.positive, rfl⟩⟩
  by_contra hn
  have hi : n.toInt ≠ 0 := fun h0 => hn (Int64.toInt_inj.mp h0)
  have hsome : ∃ sign m, 0 < m ∧ UnpackedFloat.ofInt64 Format.binary64 n =
      UnpackedFloat.round Format.binary64 sign m 0 := by
    rw [UnpackedFloat.ofInt64, UnpackedFloat.ofInt, UnpackedFloat.normalize]
    rcases lt_or_gt_of_ne hi with hlt | hgt
    · exact ⟨.negative, (-n.toInt).toNat, by omega, by rw [compare_lt_iff_lt.mpr hlt]⟩
    · exact ⟨.positive, n.toInt.toNat, by omega, by rw [compare_gt_iff_gt.mpr hgt]⟩
  obtain ⟨sign, m, hm, hof⟩ := hsome
  obtain ⟨m', e', h', hround, hm', he'⟩ := round_of_pos sign hm
  refine unpack_pack_ne_zero sign h' hm' he' sign' ?_
  rw [← hround, ← hof]
  exact h

end Value
end Lineage
