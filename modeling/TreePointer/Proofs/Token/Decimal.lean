import TreePointer.Binary64.Basic

/-!
# Decimal numbers are read as they were written

A whole number below `2⁵³` is a binary64 number, so the decimal digits that are written for it are
read back without rounding. From the bound on, digits are still read as a number, but not as a whole
number that is known exactly.

* `Binary64.ofRatio_one`: a whole number below the bound rounds to itself.
* `Binary64.ofDecimal_toDigits`: its digits are read as that number.
* `Binary64.toNat?_ofDecimal_toDigits`: the digits of which numbers are read exactly.
-/

namespace TreePointer.Binary64

theorem digitsValue_toDigits (n : Nat) : digitsValue (Nat.toDigits 10 n) = n := by
  rw [digitsValue, ← Nat.ofDigitChars_eq_foldl]
  exact Nat.ofDigitChars_ten_toDigits

/-- A multiple of the divisor is divided without remainder. -/
theorem roundDiv_mul {q s : Nat} (hs : 0 < s) : roundDiv (q * s) s = q := by
  rw [roundDiv, Nat.mul_div_cancel q hs, Nat.mul_mod_left]
  simp only [Nat.mul_zero]
  rw [if_pos hs]

theorem log2_mul_le {n : Nat} (h : n < exactBound) (p : Nat) :
    Nat.log2 (n * Nat.pow 2 p) - 52 ≤ p := by
  show Nat.log2 (n * 2 ^ p) - 52 ≤ p
  by_cases h0 : n * 2 ^ p = 0
  · rw [h0, Nat.log2_zero]
    omega
  · have hlt : n * 2 ^ p < 2 ^ (53 + p) := by
      rw [Nat.pow_add]
      exact Nat.mul_lt_mul_of_pos_right h (Nat.pow_pos (by decide))
    have hlog := (Nat.log2_lt h0).mpr hlt
    omega

/-- The spacing at a whole number below the bound divides the number one. -/
theorem spacing_dvd_one {n : Nat} (h : n < exactBound) : spacing (n * one) ∣ one := by
  have hdvd : ∀ p, Nat.pow 2 (Nat.log2 (n * Nat.pow 2 p) - 52) ∣ Nat.pow 2 p := fun p =>
    Nat.pow_dvd_pow 2 (log2_mul_le h p)
  unfold spacing one
  exact hdvd places

/-- **A whole number below the bound** is its own nearest number. -/
theorem ofRatio_one {n : Nat} (h : n < exactBound) : ofRatio n 1 = ofNat n := by
  obtain ⟨q, hq⟩ := Nat.dvd_trans (spacing_dvd_one h) (Nat.dvd_mul_left one n)
  have hs : 0 < spacing (n * one) := pow_two_pos _
  have hround : roundDiv (n * one) (spacing (n * one)) * spacing (n * one) = n * one := by
    have e : roundDiv (n * one) (spacing (n * one)) = q := by
      generalize spacing (n * one) = s at hs hq
      rw [hq, Nat.mul_comm, roundDiv_mul hs]
    rw [e, Nat.mul_comm, ← hq]
  have hfinite : n * one < overflow := by
    have hbound : ∀ k, 53 ≤ k → n * one < Nat.pow 2 k * one := fun k hk =>
      Nat.mul_lt_mul_of_pos_right
        (Nat.lt_of_lt_of_le h (Nat.pow_le_pow_right (by decide) hk)) one_pos
    unfold overflow
    generalize hk : 1024 = k
    exact hbound k (by omega)
  rw [ofRatio, Nat.div_one, Nat.one_mul]
  simp only [hround, if_pos hfinite, ofNat]

theorem ofDecimal_digits (n : Nat) : ofDecimal (Nat.toDigits 10 n) [] = ofRatio n 1 := by
  rw [ofDecimal, List.append_nil, digitsValue_toDigits, List.length_nil, Nat.pow_eq, Nat.pow_zero]

theorem ofDecimal_toDigits {n : Nat} (h : n < exactBound) :
    ofDecimal (Nat.toDigits 10 n) [] = ofNat n :=
  (ofDecimal_digits n).trans (ofRatio_one h)

theorem div_le_roundDiv (num den : Nat) : num / den ≤ roundDiv num den := by
  rw [roundDiv]
  split
  · exact Nat.le_refl _
  · split
    · exact Nat.le_succ _
    · exact Nat.le_add_right _ _

/-- Rounding goes no lower than the next power of two below. -/
theorem pow_log2_le_round {x : Nat} (h : Nat.pow 2 52 ≤ x) :
    Nat.pow 2 (Nat.log2 x) ≤ roundDiv x (spacing x) * spacing x := by
  have hx : x ≠ 0 := Nat.ne_of_gt (Nat.lt_of_lt_of_le (pow_two_pos 52) h)
  have hlog : 52 ≤ Nat.log2 x := (Nat.le_log2 hx).mpr h
  have hsplit : Nat.pow 2 52 * spacing x = Nat.pow 2 (Nat.log2 x) := by
    show 2 ^ 52 * 2 ^ (Nat.log2 x - 52) = 2 ^ Nat.log2 x
    rw [← Nat.pow_add, Nat.add_sub_cancel' hlog]
  have hs : 0 < spacing x := pow_two_pos _
  have hquotient : Nat.pow 2 52 ≤ x / spacing x :=
    (Nat.le_div_iff_mul_le hs).mpr (hsplit ▸ Nat.log2_self_le hx)
  rw [← hsplit]
  exact Nat.mul_le_mul_right _ (Nat.le_trans hquotient (div_le_roundDiv _ _))

/-- What is at the bound or above it does not round to below the bound. -/
theorem exactBound_mul_le_round {n : Nat} (h : exactBound ≤ n) :
    exactBound * one ≤ roundDiv (n * one) (spacing (n * one)) * spacing (n * one) := by
  have hpow : ∀ p, exactBound * Nat.pow 2 p ≤ Nat.pow 2 (Nat.log2 (n * Nat.pow 2 p)) := by
    intro p
    have hsplit : exactBound * Nat.pow 2 p = Nat.pow 2 (53 + p) := (Nat.pow_add 2 53 p).symm
    have hle : Nat.pow 2 (53 + p) ≤ n * Nat.pow 2 p := hsplit ▸ Nat.mul_le_mul_right _ h
    have hne : n * Nat.pow 2 p ≠ 0 := Nat.ne_of_gt (Nat.lt_of_lt_of_le (pow_two_pos _) hle)
    rw [hsplit]
    exact Nat.pow_le_pow_right (by decide) ((Nat.le_log2 hne).mpr hle)
  have hlarge : Nat.pow 2 52 ≤ n * one :=
    Nat.le_trans (Nat.le_trans (Nat.pow_le_pow_right (by decide) (by decide)) h)
      (Nat.le_mul_of_pos_right n one_pos)
  refine Nat.le_trans ?_ (pow_log2_le_round hlarge)
  unfold one
  exact hpow places

/-- **The digits of a number** are read exactly just if it is below the bound. -/
theorem toNat?_ofDecimal_toDigits (n : Nat) :
    (ofDecimal (Nat.toDigits 10 n) []).toNat? = if n < exactBound then some n else none := by
  split
  · next h => rw [ofDecimal_toDigits h, ofNat_toNat? h]
  · next h =>
    have hround := exactBound_mul_le_round (Nat.le_of_not_lt h)
    rw [ofDecimal_digits, ofRatio, Nat.div_one, Nat.one_mul]
    generalize roundDiv (n * one) (spacing (n * one)) * spacing (n * one) = u at hround
    split
    · rw [toNat?, if_neg]
      rintro ⟨-, hlt⟩
      exact Nat.not_le_of_lt hlt ((Nat.le_div_iff_mul_le one_pos).mpr hround)
    · rfl

end TreePointer.Binary64
