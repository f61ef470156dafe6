/-
Arithmetic of 64-bit integers.

Sums, differences and products of two integers are exact where the true result has 64 bits
and floats where it has not (`Value.Promotes`).  A quotient is an integer exactly if the
division leaves nothing over and the result has 64 bits, which only the least integer
divided by -1 has not; a remainder is one always.  Only a divisor of zero fails, though
the code tests it as a float.  `Value.integer_arithmetic` says this of every pair of
integers, and of the negation of an expression in every scope.
-/
import Lineage.Expr.Program
import Lineage.Proofs.Widening

namespace Lineage
namespace Value

/-! ## Results of 64 bits -/

/-- The integer is one of 64 bits. -/
def Fits (n : Int) : Prop :=
  Int64.minValue.toInt ≤ n ∧ n ≤ Int64.maxValue.toInt

theorem fits_toInt (c : Int64) : Fits c.toInt :=
  ⟨c.minValue_le_toInt, c.toInt_le⟩

theorem toInt_ofInt_of_fits {n : Int} (h : Fits n) : (Int64.ofInt n).toInt = n := by
  have hmin : Int64.minValue.toInt = -2 ^ 63 := by decide
  have hmax : Int64.maxValue.toInt = 2 ^ 63 - 1 := by decide
  have hlo : -2 ^ 63 ≤ n := hmin ▸ h.1
  have hhi : n ≤ 2 ^ 63 - 1 := hmax ▸ h.2
  exact Int64.toInt_ofInt_of_le hlo (by omega)

theorem fits_iff {n : Int} : Fits n ↔ ∃ c : Int64, c.toInt = n :=
  ⟨fun h => ⟨_, toInt_ofInt_of_fits h⟩, fun ⟨c, h⟩ => h ▸ fits_toInt c⟩

theorem ofInt?_of_fits {n : Int} (h : Fits n) : ofInt? n = some (.int (Int64.ofInt n)) :=
  if_pos h

theorem ofInt?_of_not_fits {n : Int} (h : ¬ Fits n) : ofInt? n = none :=
  if_neg h

/-- The outcome is the integer if that has 64 bits, and a float otherwise. -/
structure Promotes (exact : Int) (outcome : Except Error Value) : Prop where
  succeeds : ∃ v, outcome = .ok v
  int_iff : ∀ c, outcome = .ok (.int c) ↔ c.toInt = exact
  float_iff : (∃ x, outcome = .ok (.float x)) ↔ ¬ Fits exact

theorem promotes_ofInt? (exact : Int) (x : Float) :
    Promotes exact (.ok ((ofInt? exact).getD (.float x))) := by
  refine ⟨⟨_, rfl⟩, fun c => ?_, ?_⟩
  · by_cases h : Fits exact
    · rw [ofInt?_of_fits h, Option.getD_some]
      constructor
      · intro heq
        cases heq
        exact toInt_ofInt_of_fits h
      · rintro rfl
        rw [Int64.ofInt_toInt]
    · rw [ofInt?_of_not_fits h, Option.getD_none]
      exact ⟨nofun, fun heq => absurd (fits_iff.mpr ⟨c, heq⟩) h⟩
  · by_cases h : Fits exact
    · rw [ofInt?_of_fits h, Option.getD_some]
      exact ⟨nofun, fun hn => absurd h hn⟩
    · rw [ofInt?_of_not_fits h, Option.getD_none]
      exact ⟨fun _ => h, fun _ => ⟨x, rfl⟩⟩

theorem promotes_numeric (op : Operator) (exact : Int → Int → Int)
    (rounded : Float → Float → Float) (a b : Int64) :
    Promotes (exact a.toInt b.toInt) (numeric op exact rounded (.int a) (.int b)) :=
  promotes_ofInt? _ _

/-! ## Quotients -/

theorem toInt_ne_zero {b : Int64} (hb : b ≠ 0) : b.toInt ≠ 0 :=
  fun h => hb (Int64.toInt_inj.mp h)

theorem div_zero (a : Int64) : div (.int a) (.int 0) = .error (.evaluation .divisionByZero) := by
  rw [div, asFloat?]
  exact if_pos ((widen_beq_zero_iff 0).mpr rfl)

theorem div_of_ne_zero (a : Int64) {b : Int64} (hb : b ≠ 0) :
    div (.int a) (.int b) = .ok ((quotient? a b).getD (.float (widen a / widen b))) := by
  rw [div, asFloat?]
  exact if_neg fun h => hb ((widen_beq_zero_iff b).mp h)

/-- The exact quotient, where there is one, is the only integer that the divisor takes to
the dividend. -/
theorem mul_eq_iff_tdiv {a b q : Int} (hb : b ≠ 0) :
    q * b = a ↔ a.tmod b = 0 ∧ a.tdiv b = q := by
  rw [← Int.dvd_iff_tmod_eq_zero]
  constructor
  · rintro rfl
    exact ⟨Int.dvd_mul_left _ _, Int.mul_tdiv_cancel _ hb⟩
  · rintro ⟨hdvd, rfl⟩
    exact Int.tdiv_mul_cancel hdvd

theorem div_eq_int_iff (a b q : Int64) :
    div (.int a) (.int b) = .ok (.int q) ↔ b ≠ 0 ∧ q.toInt * b.toInt = a.toInt := by
  by_cases hb : b = 0
  · subst hb
    rw [div_zero]
    exact ⟨nofun, fun h => absurd rfl h.1⟩
  · rw [div_of_ne_zero a hb, mul_eq_iff_tdiv (toInt_ne_zero hb), quotient?]
    by_cases hmod : a.toInt.tmod b.toInt = 0
    · rw [if_pos hmod, (promotes_ofInt? _ _).int_iff, eq_comm]
      exact ⟨fun h => ⟨hb, hmod, h⟩, fun h => h.2.2⟩
    · rw [if_neg hmod, Option.getD_none]
      exact ⟨nofun, fun h => absurd h.2.1 hmod⟩

theorem div_eq_error_iff (a b : Int64) (e : Error) :
    div (.int a) (.int b) = .error e ↔ b = 0 ∧ e = .evaluation .divisionByZero := by
  by_cases hb : b = 0
  · subst hb
    rw [div_zero]
    exact ⟨fun h => by cases h; exact ⟨rfl, rfl⟩, fun h => by rw [h.2]⟩
  · rw [div_of_ne_zero a hb]
    exact ⟨nofun, fun h => absurd h.1 hb⟩

/-- A division by another divisor than zero gives a number. -/
theorem div_number (a : Int64) {b : Int64} (hb : b ≠ 0) :
    (∃ q, div (.int a) (.int b) = .ok (.int q)) ∨ ∃ x, div (.int a) (.int b) = .ok (.float x) := by
  rw [div_of_ne_zero a hb, quotient?, ofInt?]
  split
  · split
    · exact .inl ⟨_, rfl⟩
    · exact .inr ⟨_, rfl⟩
  · exact .inr ⟨_, rfl⟩

/-- The quotient of two integers of 64 bits has 64 bits, but for the least one and -1. -/
theorem fits_tdiv_iff (a : Int64) {b : Int64} (hb : b ≠ 0) :
    Fits (a.toInt.tdiv b.toInt) ↔ ¬ (a = Int64.minValue ∧ b = -1) := by
  constructor
  · rintro h ⟨rfl, rfl⟩
    exact absurd h.2 (by decide)
  · intro h
    have hmin : Int64.minValue.toInt = -2 ^ 63 := by decide
    have hmax : Int64.maxValue.toInt = 2 ^ 63 - 1 := by decide
    have ha := fits_toInt a
    have hb' := toInt_ne_zero hb
    rw [Fits, hmin, hmax] at ha ⊢
    have habs : (a.toInt.tdiv b.toInt).natAbs = a.toInt.natAbs / b.toInt.natAbs :=
      Int.natAbs_tdiv _ _
    by_cases hone : b.toInt.natAbs = 1
    · -- Division by 1 or -1 keeps the magnitude, which is too large only for the least one.
      rcases Int.natAbs_eq_iff.mp hone with hb1 | hb1
      · rw [hb1, Int.natCast_one, Int.tdiv_one]
        exact ha
      · have hane : a.toInt ≠ -2 ^ 63 := fun ha' =>
          h ⟨Int64.toInt_inj.mp (ha'.trans hmin.symm), Int64.toInt_inj.mp hb1⟩
        rw [hb1, Int.natCast_one, Int.tdiv_neg, Int.tdiv_one]
        omega
    · have hhalf : a.toInt.natAbs / b.toInt.natAbs ≤ a.toInt.natAbs / 2 :=
        Nat.div_le_div_left (by omega) (by decide)
      omega

theorem exists_div_eq_int_iff (a b : Int64) :
    (∃ q, div (.int a) (.int b) = .ok (.int q)) ↔
      b ≠ 0 ∧ b.toInt ∣ a.toInt ∧ ¬ (a = Int64.minValue ∧ b = -1) := by
  constructor
  · rintro ⟨q, h⟩
    obtain ⟨hb, hq⟩ := (div_eq_int_iff a b q).mp h
    have htdiv := ((mul_eq_iff_tdiv (toInt_ne_zero hb)).mp hq).2
    exact ⟨hb, ⟨q.toInt, by rw [Int.mul_comm, hq]⟩,
      (fits_tdiv_iff a hb).mp (htdiv ▸ fits_toInt q)⟩
  · rintro ⟨hb, hdvd, hne⟩
    obtain ⟨q, hq⟩ := fits_iff.mp ((fits_tdiv_iff a hb).mpr hne)
    exact ⟨q, (div_eq_int_iff a b q).mpr ⟨hb, by rw [hq, Int.tdiv_mul_cancel hdvd]⟩⟩

theorem exists_div_eq_float_iff (a b : Int64) :
    (∃ x, div (.int a) (.int b) = .ok (.float x)) ↔
      b ≠ 0 ∧ (b.toInt ∣ a.toInt → a = Int64.minValue ∧ b = -1) := by
  constructor
  · rintro ⟨x, h⟩
    have hb : b ≠ 0 := by
      rintro rfl
      rw [div_zero] at h
      cases h
    refine ⟨hb, fun hdvd => ?_⟩
    by_contra hne
    obtain ⟨q, hq⟩ := (exists_div_eq_int_iff a b).mpr ⟨hb, hdvd, hne⟩
    rw [hq] at h
    cases h
  · rintro ⟨hb, hfloat⟩
    refine (div_number a hb).resolve_left fun hint => ?_
    obtain ⟨-, hdvd, hne⟩ := (exists_div_eq_int_iff a b).mp hint
    exact hne (hfloat hdvd)

/-! ## Remainders -/

theorem mod_of_ne_zero (a : Int64) {b : Int64} (hb : b ≠ 0) :
    mod (.int a) (.int b) = .ok (.int (Int64.ofInt (a.toInt.tmod b.toInt))) := by
  rw [mod]
  rintro rfl
  exact hb rfl

theorem mod_eq_error_iff (a b : Int64) (e : Error) :
    mod (.int a) (.int b) = .error e ↔ b = 0 ∧ e = .evaluation .moduloByZero := by
  by_cases hb : b = 0
  · subst hb
    exact ⟨fun h => by cases h; exact ⟨rfl, rfl⟩, fun h => by rw [h.2]; rfl⟩
  · rw [mod_of_ne_zero a hb]
    exact ⟨nofun, fun h => absurd h.1 hb⟩

theorem natAbs_tmod_lt (a : Int) {b : Int} (hb : b ≠ 0) : (a.tmod b).natAbs < b.natAbs := by
  rw [Int.natAbs_tmod]
  exact Nat.mod_lt _ (by omega)

theorem tmod_sign (a b : Int) : a.tmod b = 0 ∨ (a.tmod b).sign = a.sign := by
  rcases lt_trichotomy a 0 with ha | rfl | ha
  · have h : 0 ≤ (-a).tmod b := Int.tmod_nonneg b (by omega)
    rw [Int.neg_tmod] at h
    rcases Int.lt_or_eq_of_le (Int.le_of_neg_le_neg (by simpa using h) : a.tmod b ≤ 0) with h | h
    · exact .inr ((Int.sign_eq_neg_one_of_neg h).trans (Int.sign_eq_neg_one_of_neg ha).symm)
    · exact .inl h
  · exact .inl (Int.zero_tmod b)
  · rcases Int.lt_or_eq_of_le (Int.tmod_nonneg b ha.le) with h | h
    · exact .inr ((Int.sign_eq_one_of_pos h).trans (Int.sign_eq_one_of_pos ha).symm)
    · exact .inl h.symm

/-- A remainder is smaller than the divisor and so has 64 bits. -/
theorem fits_tmod (a : Int64) {b : Int64} (hb : b ≠ 0) : Fits (a.toInt.tmod b.toInt) := by
  have hlt := natAbs_tmod_lt a.toInt (toInt_ne_zero hb)
  have hmin : Int64.minValue.toInt = -2 ^ 63 := by decide
  have hmax : Int64.maxValue.toInt = 2 ^ 63 - 1 := by decide
  have hfit := fits_toInt b
  rw [Fits, hmin, hmax] at hfit ⊢
  omega

/-- The remainder completes the quotient that is rounded towards zero. -/
theorem mod_of_ne_zero_spec (a : Int64) {b : Int64} (hb : b ≠ 0) :
    ∃ r, mod (.int a) (.int b) = .ok (.int r) ∧
      a.toInt = b.toInt * a.toInt.tdiv b.toInt + r.toInt ∧
      r.toInt.natAbs < b.toInt.natAbs ∧ (r = 0 ∨ r.toInt.sign = a.toInt.sign) := by
  have hr := toInt_ofInt_of_fits (fits_tmod a hb)
  refine ⟨_, mod_of_ne_zero a hb, ?_, ?_, ?_⟩
  · rw [hr, Int.mul_tdiv_add_tmod]
  · rw [hr]
    exact natAbs_tmod_lt _ (toInt_ne_zero hb)
  · rw [hr, ← Int64.toInt_inj, hr]
    exact tmod_sign _ _

/-! ## Negation -/

theorem fits_neg_iff (a : Int64) : Fits (-a.toInt) ↔ a ≠ Int64.minValue := by
  have hmin : Int64.minValue.toInt = -2 ^ 63 := by decide
  have hmax : Int64.maxValue.toInt = 2 ^ 63 - 1 := by decide
  have ha := fits_toInt a
  rw [Fits, hmin, hmax] at ha ⊢
  rw [Ne, ← Int64.toInt_inj, hmin]
  omega

theorem toInt_neg_of_ne {a : Int64} (h : a ≠ Int64.minValue) : (-a).toInt = -a.toInt := by
  rw [Int64.toInt_neg, ← Int64.toInt_ofInt]
  exact toInt_ofInt_of_fits ((fits_neg_iff a).mpr h)

theorem promotes_negate (a : Int64) : Promotes (-a.toInt) (negate (.int a)) := by
  have h := promotes_numeric .sub (· - ·) (· - ·) 0 a
  rwa [Int64.toInt_zero, Int.zero_sub] at h

/-- The value of a negation is the negated value of the operand, in every scope. -/
theorem evaluate_negate {σ : Type} {scope : Scope σ} {operand : Expr} {s t : σ} {v : Value}
    (h : operand.evaluate scope s = .value v t) :
    (Expr.negate operand).evaluate scope s = Eval.ofExcept v.negate t := by
  rw [Expr.evaluate, Eval.bind_apply, h]

/-! ## All operators -/

/-- What the arithmetic operators do to two integers, and negation to the first of them. -/
structure IntegerArithmetic (a b : Int64) : Prop where
  add : Promotes (a.toInt + b.toInt) (Value.add (.int a) (.int b))
  sub : Promotes (a.toInt - b.toInt) (Value.sub (.int a) (.int b))
  mul : Promotes (a.toInt * b.toInt) (Value.mul (.int a) (.int b))
  div_error : ∀ e, Value.div (.int a) (.int b) = .error e ↔
    b = 0 ∧ e = .evaluation .divisionByZero
  div_int : ∀ q, Value.div (.int a) (.int b) = .ok (.int q) ↔
    b ≠ 0 ∧ q.toInt * b.toInt = a.toInt
  div_exact : (∃ q, Value.div (.int a) (.int b) = .ok (.int q)) ↔
    b ≠ 0 ∧ b.toInt ∣ a.toInt ∧ ¬ (a = Int64.minValue ∧ b = -1)
  div_float : (∃ x, Value.div (.int a) (.int b) = .ok (.float x)) ↔
    b ≠ 0 ∧ (b.toInt ∣ a.toInt → a = Int64.minValue ∧ b = -1)
  mod_error : ∀ e, Value.mod (.int a) (.int b) = .error e ↔
    b = 0 ∧ e = .evaluation .moduloByZero
  mod_int : b ≠ 0 → ∃ r, Value.mod (.int a) (.int b) = .ok (.int r) ∧
    a.toInt = b.toInt * a.toInt.tdiv b.toInt + r.toInt ∧
    r.toInt.natAbs < b.toInt.natAbs ∧ (r = 0 ∨ r.toInt.sign = a.toInt.sign)
  mod_min : a = Int64.minValue → b = -1 → Value.mod (.int a) (.int b) = .ok (.int 0)
  negate_int : a ≠ Int64.minValue → (-a).toInt = -a.toInt ∧
    ∀ {σ : Type} (scope : Scope σ) (operand : Expr) (s t : σ),
      operand.evaluate scope s = .value (.int a) t →
        (Expr.negate operand).evaluate scope s = .value (.int (-a)) t
  negate_min : a = Int64.minValue →
    ∀ {σ : Type} (scope : Scope σ) (operand : Expr) (s t : σ),
      operand.evaluate scope s = .value (.int a) t →
        ∃ x, (Expr.negate operand).evaluate scope s = .value (.float x) t

/-- Integer arithmetic is exact or goes over to floats, and fails only on a divisor of
zero. -/
theorem integer_arithmetic (a b : Int64) : IntegerArithmetic a b where
  add := promotes_numeric .add (· + ·) (· + ·) a b
  sub := promotes_numeric .sub (· - ·) (· - ·) a b
  mul := promotes_numeric .mul (· * ·) (· * ·) a b
  div_error := div_eq_error_iff a b
  div_int := div_eq_int_iff a b
  div_exact := exists_div_eq_int_iff a b
  div_float := exists_div_eq_float_iff a b
  mod_error := mod_eq_error_iff a b
  mod_int := mod_of_ne_zero_spec a
  mod_min := by
    rintro rfl rfl
    rfl
  negate_int := by
    intro hne
    refine ⟨toInt_neg_of_ne hne, fun scope operand s t h => ?_⟩
    rw [evaluate_negate h, ((promotes_negate a).int_iff (-a)).mpr (toInt_neg_of_ne hne)]
    rfl
  negate_min := by
    intro heq σ scope operand s t h
    have hfits : ¬ Fits (-a.toInt) := fun hf => (fits_neg_iff a).mp hf heq
    obtain ⟨x, hx⟩ := (promotes_negate a).float_iff.mpr hfits
    exact ⟨x, by rw [evaluate_negate h, hx]; rfl⟩

end Value
end Lineage
