import Mathlib

/-!
# Numbers as a `double` keeps them

A `double` has 53 binary digits. A number that has more goes to the nearest one that it can be, and
of two that are as near to the one whose last digit is even (`toDouble`). Numbers that are too large
or too small for its exponent are not looked at here; integers of 64 bits and their quotients are
neither.

**Rounding keeps the order** (`toDouble_mono`), whatever the sizes of the two numbers: within one power
of two the grid is the same, and the powers themselves are on the grid.
-/

set_option autoImplicit false

namespace Double

/-- The nearest integer, and of two the even one. -/
def roundEven (q : ℚ) : ℤ :=
  if q - ⌊q⌋ < 1 / 2 ∨ (q - ⌊q⌋ = 1 / 2 ∧ Even ⌊q⌋) then ⌊q⌋ else ⌊q⌋ + 1

/-- What the last of the 53 digits of a number counts. -/
def ulp (q : ℚ) : ℚ := 2 ^ (Int.log 2 q - 52)

/-- A number that is not negative, to 53 digits. -/
def magnitude (q : ℚ) : ℚ := roundEven (q / ulp q) * ulp q

/-- A number to 53 digits. -/
def toDouble (q : ℚ) : ℚ := if q < 0 then -magnitude (-q) else magnitude q

theorem floor_le_roundEven (q : ℚ) : ⌊q⌋ ≤ roundEven q := by
  unfold roundEven
  split
  · exact le_refl _
  · exact (Int.lt_succ _).le

theorem roundEven_le_floor (q : ℚ) : roundEven q ≤ ⌊q⌋ + 1 := by
  unfold roundEven
  split
  · exact (Int.lt_succ _).le
  · exact le_refl _

theorem roundEven_intCast (n : ℤ) : roundEven n = n := by
  rw [roundEven, Int.floor_intCast, sub_self]
  exact if_pos (.inl (by norm_num))

theorem roundEven_mono {p q : ℚ} (h : p ≤ q) : roundEven p ≤ roundEven q := by
  rcases (Int.floor_mono h).lt_or_eq with hlt | heq
  · exact (roundEven_le_floor p).trans ((Int.add_one_le_of_lt hlt).trans (floor_le_roundEven q))
  · -- both are between the same two integers
    unfold roundEven
    rw [heq]
    split
    · split
      · exact le_refl _
      · exact (Int.lt_succ _).le
    · next hp =>
      rw [if_neg]
      rintro (hq | ⟨hq, heven⟩)
      · exact hp (.inl (by linarith))
      · rcases (sub_le_sub_right h (⌊q⌋ : ℚ)).lt_or_eq with hlt | hsame
        · exact hp (.inl (by linarith))
        · exact hp (.inr ⟨hsame.trans hq, heven⟩)

theorem ulp_pos (q : ℚ) : 0 < ulp q := by
  unfold ulp
  positivity

/-- There are 53 digits up to the first one. -/
theorem two_pow_mul_ulp (n : ℕ) (q : ℚ) : 2 ^ n * ulp q = 2 ^ (Int.log 2 q - 52 + n) := by
  rw [ulp, zpow_add₀ two_ne_zero, zpow_natCast, mul_comm]

theorem magnitude_zero : magnitude 0 = 0 := by
  rw [magnitude, zero_div, show ((0 : ℚ)) = ((0 : ℤ) : ℚ) from Int.cast_zero.symm, roundEven_intCast,
    Int.cast_zero, zero_mul]

/-- A power of two is not rounded over, from below -/
theorem magnitude_le (q : ℚ) : magnitude q ≤ 2 ^ (Int.log 2 q + 1) := by
  have htop : 2 ^ 53 * ulp q = 2 ^ (Int.log 2 q + 1) := by
    rw [two_pow_mul_ulp]
    congr 1
    push_cast
    ring
  have hq : q ≤ 2 ^ 53 * ulp q := by
    rw [htop]
    exact_mod_cast (Int.lt_zpow_succ_log_self one_lt_two q).le
  have hround : roundEven (q / ulp q) ≤ 2 ^ 53 := by
    have hmono := roundEven_mono ((div_le_iff₀ (ulp_pos q)).mpr hq)
    have hint := roundEven_intCast (2 ^ 53)
    rw [Int.cast_pow, Int.cast_ofNat] at hint
    rwa [hint] at hmono
  calc magnitude q ≤ 2 ^ 53 * ulp q :=
        mul_le_mul_of_nonneg_right (by exact_mod_cast hround) (ulp_pos q).le
    _ = 2 ^ (Int.log 2 q + 1) := htop

/-- and from above. -/
theorem le_magnitude {q : ℚ} (hq : 0 < q) : 2 ^ Int.log 2 q ≤ magnitude q := by
  have hbottom : 2 ^ 52 * ulp q = 2 ^ Int.log 2 q := by
    rw [two_pow_mul_ulp]
    congr 1
    push_cast
    ring
  have hle : 2 ^ 52 * ulp q ≤ q := by
    rw [hbottom]
    exact_mod_cast Int.zpow_log_le_self one_lt_two hq
  have hround : 2 ^ 52 ≤ roundEven (q / ulp q) := by
    have hmono := roundEven_mono ((le_div_iff₀ (ulp_pos q)).mpr hle)
    have hint := roundEven_intCast (2 ^ 52)
    rw [Int.cast_pow, Int.cast_ofNat] at hint
    rwa [hint] at hmono
  calc (2 : ℚ) ^ Int.log 2 q = 2 ^ 52 * ulp q := hbottom.symm
    _ ≤ magnitude q := mul_le_mul_of_nonneg_right (by exact_mod_cast hround) (ulp_pos q).le

theorem magnitude_nonneg {q : ℚ} (hq : 0 ≤ q) : 0 ≤ magnitude q := by
  rcases hq.lt_or_eq with hpos | hzero
  · exact le_trans (by positivity) (le_magnitude hpos)
  · rw [← hzero, magnitude_zero]

theorem magnitude_mono {p q : ℚ} (hp : 0 ≤ p) (h : p ≤ q) : magnitude p ≤ magnitude q := by
  rcases hp.lt_or_eq with hpos | hzero
  · rcases (Int.log_mono_right (b := 2) hpos h).lt_or_eq with hlt | heq
    · calc magnitude p ≤ 2 ^ (Int.log 2 p + 1) := magnitude_le p
        _ ≤ 2 ^ Int.log 2 q := zpow_le_zpow_right₀ one_le_two hlt
        _ ≤ magnitude q := le_magnitude (hpos.trans_le h)
    · have hulp : ulp p = ulp q := by rw [ulp, ulp, heq]
      rw [magnitude, magnitude, hulp]
      refine mul_le_mul_of_nonneg_right ?_ (ulp_pos q).le
      exact_mod_cast roundEven_mono (div_le_div_of_nonneg_right h (ulp_pos q).le)
  · rw [← hzero, magnitude_zero]
    exact magnitude_nonneg (hp.trans h)

theorem toDouble_zero : toDouble 0 = 0 := by
  rw [toDouble, if_neg (lt_irrefl 0), magnitude_zero]

/-- **Rounding keeps the order.** -/
theorem toDouble_mono : Monotone toDouble := by
  intro p q h
  unfold toDouble
  split
  · next hp =>
    split
    · exact neg_le_neg (magnitude_mono (by linarith) (neg_le_neg h))
    · next hq =>
      have hneg := magnitude_nonneg (neg_nonneg.mpr hp.le)
      exact le_trans (neg_nonpos.mpr hneg) (magnitude_nonneg (not_lt.mp hq))
  · next hp =>
    rw [if_neg (not_lt.mpr (le_trans (not_lt.mp hp) h))]
    exact magnitude_mono (not_lt.mp hp) h

theorem toDouble_nonneg {q : ℚ} (hq : 0 ≤ q) : 0 ≤ toDouble q := toDouble_zero ▸ toDouble_mono hq

/-- 53 digits are kept, and the 54th is rounded to even. -/
example : toDouble (2 ^ 53) = 2 ^ 53 ∧ toDouble (2 ^ 53 + 1) = 2 ^ 53 ∧
    toDouble (2 ^ 53 + 3) = 2 ^ 53 + 4 := by
  decide +kernel

end Double
