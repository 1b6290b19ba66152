import Reckoner.Proofs.Decimal.Shortest

/-!
# Rounding to doubles

Arithmetic on doubles computes a significand with two more bits: the first bit behind the
significand, and whether there is anything behind that one. Rounding drops bits until the
significand is that of a double. The result is the double that is nearest to the number, the
even one of two; and there is only one.

* `Double.Stands`: the numbers that a significand with its two bits stands for. To drop bits
  is to divide by a power of two (`Double.Stands.shiftRight`);
* `Double.IsRounded`: the double that is nearest to a number. It is only one
  (`Double.IsRounded.unique`), and a double is nearest to itself (`Double.IsRounded.eq_of_exact`);
* `Double.isRounded_of_holds`: the interval of a double consists of such numbers;
* `Double.exists_isRounded`: rounding leads to the nearest double.
-/

namespace Reckoner.Double

open Float.Model Float.Model.UnpackedFloat Rounding

variable {em : ExtendedMantissa} {a : Accuracy} {s : Sign} {v y z : ℚ} {m n k : ℕ} {e q : ℤ}

/-! ## Significands with two more bits -/

/-- What is known of a number: the significand, and a half for the first bit behind it. -/
def known (em : ExtendedMantissa) : ℚ := em.mantissa + cond em.roundBit (1 / 2) 0

/-- The numbers that a significand with two more bits stands for. -/
def Stands (em : ExtendedMantissa) (y : ℚ) : Prop :=
  if em.stickyBit then known em < y ∧ y < known em + 1 / 2 else y = known em

theorem known_shiftRightOne (em : ExtendedMantissa) :
    known em.shiftRightOne = em.mantissa / 2 := by
  have hsum : ((em.mantissa % 2 : ℕ) : ℚ) + 2 * (em.mantissa / 2 : ℕ) = em.mantissa := by
    exact_mod_cast Nat.mod_add_div em.mantissa 2
  rw [known, ExtendedMantissa.shiftRightOne, ← hsum]
  rcases Nat.mod_two_eq_zero_or_one em.mantissa with hbit | hbit
  · simp [hbit]
  · simp [hbit]
    ring

/-- Such a number is at least the significand and below the next one. -/
theorem Stands.floor (h : Stands em y) : (em.mantissa : ℚ) ≤ y ∧ y < em.mantissa + 1 := by
  obtain ⟨m, r, s⟩ := em
  cases r <;> cases s <;> norm_num [Stands, known] at h <;> constructor <;> linarith

/-- To drop a bit is to divide by two. -/
theorem Stands.shiftRightOne (h : Stands em y) : Stands em.shiftRightOne (y / 2) := by
  rw [Stands, known_shiftRightOne]
  obtain ⟨m, r, s⟩ := em
  cases r <;> cases s <;> norm_num [Stands, known, ExtendedMantissa.shiftRightOne] at h ⊢
  · exact h
  all_goals constructor <;> linarith

theorem Stands.shiftRight (h : Stands em y) (k : ℕ) : Stands (em >>> k) (y / 2 ^ k) := by
  induction k with
  | zero =>
    rw [pow_zero, div_one]
    exact h
  | succ k ih =>
    rw [pow_succ, ← div_div]
    exact ih.shiftRightOne

theorem mantissa_shiftRight (em : ExtendedMantissa) (k : ℕ) :
    (em >>> k).mantissa = em.mantissa / 2 ^ k := by
  induction k with
  | zero => exact (Nat.div_one _).symm
  | succ k ih =>
    rw [pow_succ, ← Nat.div_div_eq_div_mul, ← ih]
    rfl

/-- A whole number is nearest to a number. Of two that are equally near it is the even one. -/
def IsNearest (n : ℕ) (y : ℚ) : Prop :=
  if n % 2 = 0 then (n : ℚ) - 1 / 2 ≤ y ∧ y ≤ n + 1 / 2 else (n : ℚ) - 1 / 2 < y ∧ y < n + 1 / 2

theorem isNearest_of_lt (h : (n : ℚ) - 1 / 2 < y ∧ y < n + 1 / 2) : IsNearest n y := by
  unfold IsNearest
  split_ifs
  · exact ⟨h.1.le, h.2.le⟩
  · exact h

theorem isNearest_of_even (hn : n % 2 = 0) (h : (n : ℚ) - 1 / 2 ≤ y ∧ y ≤ n + 1 / 2) :
    IsNearest n y := by
  rwa [IsNearest, if_pos hn]

theorem isNearest_cast (n : ℕ) : IsNearest n n := isNearest_of_lt (by constructor <;> linarith)

theorem IsNearest.le (h : IsNearest n y) : (n : ℚ) - 1 / 2 ≤ y ∧ y ≤ n + 1 / 2 := by
  unfold IsNearest at h
  split_ifs at h
  · exact h
  · exact ⟨h.1.le, h.2.le⟩

/-- A greater number does not have a smaller whole number nearest to it. -/
theorem IsNearest.mono (hm : IsNearest m y) (hn : IsNearest n z) (h : y ≤ z) : m ≤ n := by
  by_contra! hlt
  have hstep : (m : ℚ) ≤ n + 1 := by linarith [hm.le.1, hn.le.2]
  obtain rfl : m = n + 1 := by
    have hstep : m ≤ n + 1 := by exact_mod_cast hstep
    omega
  -- the point in the middle belongs to the even one only
  unfold IsNearest at hm hn
  push_cast at hm
  split_ifs at hm hn <;> first | omega | linarith

theorem IsNearest.unique (hm : IsNearest m y) (hn : IsNearest n y) : m = n :=
  Nat.le_antisymm (hm.mono hn le_rfl) (hn.mono hm le_rfl)

theorem Stands.isNearest (h : Stands em y) : IsNearest em.roundedMantissa y := by
  obtain ⟨m, r, s⟩ := em
  cases r <;> cases s <;>
    norm_num [Stands, known, ExtendedMantissa.roundedMantissa, ExtendedMantissa.accuracy,
      Accuracy.roundToNearestEven] at h ⊢
  · exact isNearest_of_lt (by constructor <;> linarith)
  · exact isNearest_of_lt (by constructor <;> linarith)
  · -- a tie
    rcases Nat.mod_two_eq_zero_or_one m with hm | hm <;> rw [hm]
    · exact isNearest_of_even (by omega) (by push_cast; constructor <;> linarith)
    · exact isNearest_of_even (by omega) (by push_cast; constructor <;> linarith)
  · exact isNearest_of_lt (by push_cast; constructor <;> linarith)

/-! ## The nearest double -/

theorem cast_leastNormal : (leastNormal : ℚ) = 4503599627370496 := by norm_num [leastNormal, Nat.shiftLeft_eq]

/-- The double `m * 2 ^ q` is nearest to a positive number, or to zero, if there is no greatest
    exponent. Below the normal doubles the exponent is the least one. -/
structure IsRounded (m : ℕ) (q : ℤ) (v : ℚ) : Prop where
  lt : m < 2 * leastNormal
  le : leastExponent ≤ q
  normal : q = leastExponent ∨ leastNormal - 1 / 4 ≤ v / 2 ^ q
  nearest : IsNearest m (v / 2 ^ q)

theorem IsRounded.leastNormal_le (h : IsRounded m q v) (hq : leastExponent < q) :
    leastNormal ≤ m := by
  have hnormal := h.normal.resolve_left (by omega)
  have hlt : (leastNormal : ℚ) < m + 1 := by linarith [h.nearest.le.2]
  have hlt : leastNormal < m + 1 := by exact_mod_cast hlt
  omega

theorem IsRounded.exponent_le (hm : IsRounded m q v) (hn : IsRounded n e v) : e ≤ q := by
  by_contra! hlt
  have hnormal := hn.normal.resolve_left (by have := hm.le; omega)
  have hdouble : 2 * (v / 2 ^ e) ≤ v / 2 ^ q := by
    have hpow : (2 : ℚ) ≤ 2 ^ (e - q) := by
      calc (2 : ℚ) = 2 ^ (1 : ℤ) := (zpow_one 2).symm
        _ ≤ 2 ^ (e - q) := zpow_le_zpow_right₀ one_le_two (by omega)
    have hsplit : v / 2 ^ q = v / 2 ^ e * 2 ^ (e - q) := by
      rw [zpow_sub₀ two_ne_zero]
      field_simp
    rw [cast_leastNormal] at hnormal
    rw [hsplit]
    nlinarith
  -- the number is so great that it would be rounded up to the next exponent
  have hgreat : IsNearest (2 * leastNormal) (2 * leastNormal - 1 / 2) :=
    isNearest_of_even (by omega) (by push_cast; constructor <;> linarith)
  have hle := hgreat.mono hm.nearest (by linarith)
  have := hm.lt
  omega

theorem IsRounded.unique (hm : IsRounded m q v) (hn : IsRounded n e v) : m = n ∧ q = e := by
  obtain rfl : q = e := le_antisymm (hn.exponent_le hm) (hm.exponent_le hn)
  exact ⟨hm.nearest.unique hn.nearest, rfl⟩

/-- A number that is a double is not rounded. -/
theorem IsRounded.eq_of_exact (h : IsRounded n q (m * 2 ^ e)) (hm : m ≤ 2 * leastNormal)
    (he : leastExponent ≤ e) : (n : ℚ) * 2 ^ q = m * 2 ^ e := by
  -- the number is a whole multiple of the power of two
  have hwhole : ∃ k : ℕ, (m * 2 ^ e / 2 ^ q : ℚ) = k := by
    rcases le_or_gt q e with hle | hlt
    · obtain ⟨j, rfl⟩ := Int.le.dest hle
      refine ⟨m * 2 ^ j, ?_⟩
      rw [zpow_add₀ two_ne_zero, zpow_natCast]
      push_cast
      field_simp
    · -- only if it is where the next exponent begins
      obtain ⟨j, rfl⟩ := Int.le.dest hlt.le
      have hpos : 0 < j := by omega
      have hscale : (m * 2 ^ e / 2 ^ (e + j : ℤ) : ℚ) = m / 2 ^ j := by
        rw [zpow_add₀ two_ne_zero, zpow_natCast]
        field_simp
      have hnormal := h.normal.resolve_left (by omega)
      rw [hscale, le_div_iff₀ (by positivity)] at hnormal
      have hm' : (m : ℚ) ≤ 2 * leastNormal := by exact_mod_cast hm
      have hj : j = 1 := by
        by_contra hne
        have hfour : (2 : ℚ) ^ 2 ≤ 2 ^ j := pow_le_pow_right₀ one_le_two (by omega)
        rw [cast_leastNormal] at hnormal hm'
        nlinarith
      subst hj
      have hge : (2 * leastNormal : ℚ) < m + 1 := by linarith
      have hge : 2 * leastNormal < m + 1 := by exact_mod_cast hge
      obtain rfl : m = 2 * leastNormal := by omega
      refine ⟨leastNormal, ?_⟩
      rw [hscale]
      push_cast
      ring
  obtain ⟨k, hk⟩ := hwhole
  have hnearest := h.nearest
  rw [hk] at hnearest
  rw [hnearest.unique (isNearest_cast k), ← hk]
  field_simp

/-- The interval of a double consists of the numbers that it is nearest to. -/
theorem isRounded_of_holds (hm : 0 < m) (hlt : m < 2 * leastNormal) (hle : leastExponent ≤ q)
    (hnormal : q = leastExponent ∨ leastNormal ≤ m) (h : (ofBinary m q).Holds v) :
    IsRounded m q v := by
  have hpow : (0 : ℚ) < 2 ^ q := by positivity
  have hexponent : (ofBinary m q).exponent = q - 2 := rfl
  have hclosed : (ofBinary m q).closed = decide (m % 2 = 0) := rfl
  have hscale (c : ℚ) : c * 2 ^ (q - 2) = c / 4 * 2 ^ q := by
    rw [zpow_sub₀ two_ne_zero]
    ring
  simp only [Holds, hexponent, hclosed, hscale, decide_eq_true_eq, ← le_div_iff₀ hpow,
    ← div_le_iff₀ hpow, ← lt_div_iff₀ hpow, ← div_lt_iff₀ hpow] at h
  have hupper : ((ofBinary m q).upper : ℚ) = 4 * m + 2 := by
    simp only [ofBinary]
    push_cast
    ring
  have hlower : 4 * (m : ℚ) - 2 ≤ (ofBinary m q).lower := by
    have hnat : 4 * m ≤ (ofBinary m q).lower + 2 := by
      simp only [ofBinary]
      split_ifs <;> omega
    have hcast : (4 * m : ℚ) ≤ (ofBinary m q).lower + 2 := by exact_mod_cast hnat
    linarith
  rw [hupper] at h
  refine ⟨hlt, hle, ?_, ?_⟩
  · refine or_iff_not_imp_left.mpr fun hne => ?_
    have hm := hnormal.resolve_left hne
    have hnat : 4 * leastNormal ≤ (ofBinary m q).lower + 1 := by
      simp only [ofBinary, Bool.and_eq_true, decide_eq_true_eq]
      split_ifs <;> omega
    have hcast : (4 * leastNormal : ℚ) ≤ (ofBinary m q).lower + 1 := by exact_mod_cast hnat
    split_ifs at h <;> linarith
  · unfold IsNearest
    split_ifs at h ⊢ <;> constructor <;> linarith

/-! ## Errors -/

/-- The greatest relative error of rounding to normal doubles. -/
def roundoff : ℚ := 1 / (2 * leastNormal - 1 / 2)

theorem roundoff_eq : roundoff = 2 / 18014398509481983 := by
  rw [roundoff, cast_leastNormal]
  norm_num

theorem roundoff_pos : 0 < roundoff := by
  rw [roundoff_eq]
  norm_num

theorem IsRounded.abs_sub_le_half (h : IsRounded m q v) : |m * 2 ^ q - v| ≤ 2 ^ q / 2 := by
  have hpow : (0 : ℚ) < 2 ^ q := by positivity
  have hnearest := h.nearest.le
  have hscale : (m * 2 ^ q - v : ℚ) = (m - v / 2 ^ q) * 2 ^ q := by field_simp
  have hhalf : |m - v / 2 ^ q| ≤ 1 / 2 := abs_le.mpr (by constructor <;> linarith)
  rw [hscale, abs_mul, abs_of_pos hpow]
  linarith [mul_le_mul_of_nonneg_right hhalf hpow.le]

theorem IsRounded.abs_sub_le_of_normal (h : IsRounded m q v)
    (hnormal : leastNormal - 1 / 4 ≤ v / 2 ^ q) : |m * 2 ^ q - v| ≤ v * roundoff := by
  rw [le_div_iff₀ (by positivity), cast_leastNormal] at hnormal
  rw [roundoff_eq]
  linarith [h.abs_sub_le_half]

/-- Below the normal doubles the error is at most half of the least double. -/
theorem IsRounded.abs_sub_le (h : IsRounded m q v) (hv : 0 ≤ v) :
    |m * 2 ^ q - v| ≤ v * roundoff + 2 ^ (leastExponent - 1) := by
  have hleast : (0 : ℚ) < 2 ^ (leastExponent - 1) := by positivity
  have hv : 0 ≤ v * roundoff := mul_nonneg hv roundoff_pos.le
  rcases h.normal with rfl | hnormal
  · rw [zpow_sub_one₀ two_ne_zero] at *
    linarith [h.abs_sub_le_half]
  · linarith [h.abs_sub_le_of_normal hnormal]

/-- There is no other error in numbers that are not small. -/
theorem IsRounded.abs_sub_le_of_one_le (h : IsRounded m q v) (hv : 1 ≤ v) :
    |m * 2 ^ q - v| ≤ v * roundoff := by
  refine h.abs_sub_le_of_normal (h.normal.elim (fun hq => ?_) id)
  have hsmall : (2 : ℚ) ^ q ≤ 2 ^ (-53 : ℤ) :=
    zpow_le_zpow_right₀ one_le_two (by rw [hq]; decide)
  norm_num at hsmall
  rw [le_div_iff₀ (by positivity), cast_leastNormal]
  linarith

/-! ## Rounding -/

/-- Parts of a double, without its sign if it is zero. -/
def ofParts (s : Sign) (m : ℕ) (q : ℤ) : UnpackedFloat :=
  if h : m = 0 then .zero s else .finite s m q (Nat.pos_of_ne_zero h)

theorem mantissa_ofMantissaAndAccuracy (m : ℕ) (a : Accuracy) :
    (ExtendedMantissa.ofMantissaAndAccuracy m a).mantissa = m := by
  cases a with
  | exact => rfl
  | inexact o => cases o <;> rfl

/-- The exponent to which the bits of a significand reach down that is to be rounded. -/
theorem exists_targetExponent (he : e ≤ leastExponent ∨ leastNormal ≤ m) :
    ∃ k : ℕ, shiftToTargetExponent .binary64 m e a =
        (ExtendedMantissa.ofMantissaAndAccuracy m a >>> k, e + k) ∧
      leastExponent ≤ e + k ∧ m / 2 ^ k < 2 * leastNormal ∧
      (e + k = leastExponent ∨ leastNormal ≤ m / 2 ^ k) := by
  have hnormal : leastNormal = 2 ^ 52 := rfl
  have hlog : leastNormal ≤ m → 52 ≤ m.log2 := fun h => by
    rw [Nat.le_log2 (by omega)]
    exact h
  refine ⟨(max (m.log2 + 1 + e - 53) leastExponent - e).toNat, rfl, by omega, ?_, ?_⟩
  · rw [Nat.div_lt_iff_lt_mul (by positivity), hnormal, ← pow_succ', ← pow_add]
    exact lt_of_lt_of_le Nat.lt_log2_self (Nat.pow_le_pow_right two_pos (by omega))
  · refine or_iff_not_imp_left.mpr fun hne => ?_
    have hm : m ≠ 0 := by
      rintro rfl
      rw [Nat.log2_zero] at hne
      omega
    rw [Nat.le_div_iff_mul_le (by positivity), hnormal, ← pow_add]
    refine (Nat.pow_le_pow_right two_pos ?_).trans (Nat.log2_self_le hm)
    omega

/-- Significand and exponent, after rounding has perhaps led to the next exponent. -/
def carried (n : ℕ) (q : ℤ) : ℕ × ℤ := if n = 2 * leastNormal then (leastNormal, q + 1) else (n, q)

theorem shiftToTargetExponent_rounded (hm : m ≤ 2 * leastNormal) (hq : leastExponent ≤ q) :
    (shiftToTargetExponent .binary64 m q .exact).map ExtendedMantissa.mantissa id =
      carried m q := by
  have hshift (k : ℕ) (h : (max (m.log2 + 1 + q - 53) leastExponent - q).toNat = k) :
      (shiftToTargetExponent .binary64 m q .exact).map ExtendedMantissa.mantissa id =
        (m / 2 ^ k, q + k) := by
    subst h
    exact Prod.ext (mantissa_shiftRight _ _) rfl
  unfold carried
  split_ifs with h
  · subst h
    have hlog : (2 * leastNormal).log2 = 53 := by decide
    rw [hshift 1 (by omega)]
    rfl
  · have hlog : m.log2 < 53 := by
      rcases Nat.eq_zero_or_pos m with rfl | hpos
      · decide
      · rw [Nat.log2_lt hpos.ne']
        have hnormal : 2 * leastNormal = 2 ^ 53 := rfl
        omega
    rw [hshift 0 (by omega), pow_zero, Nat.div_one, Nat.cast_zero, add_zero]

theorem roundWithAccuracy_eq (h : shiftToTargetExponent .binary64 m e a = (em, q))
    (hn : em.roundedMantissa ≤ 2 * leastNormal) (hq : leastExponent ≤ q) :
    roundWithAccuracy .binary64 s m e a =
      ofParts s (carried em.roundedMantissa q).1 (carried em.roundedMantissa q).2 := by
  rw [← shiftToTargetExponent_rounded hn hq]
  rw [roundWithAccuracy, h]
  rfl

theorem IsNearest.le_two_mul (hn : IsNearest n y) (hlt : y < 2 * leastNormal) :
    n ≤ 2 * leastNormal := by
  have hlt : (n : ℚ) < 2 * leastNormal + 1 := by linarith [hn.le.1]
  have hlt : n < 2 * leastNormal + 1 := by exact_mod_cast hlt
  omega

theorem isRounded_carried (hn : IsNearest n y) (hq : leastExponent ≤ q)
    (hlt : y < 2 * leastNormal) (hle : q = leastExponent ∨ leastNormal ≤ y) :
    IsRounded (carried n q).1 (carried n q).2 (y * 2 ^ q) := by
  have hpow : (2 : ℚ) ^ q ≠ 0 := by positivity
  have hscale : y * 2 ^ q / 2 ^ q = y := by field_simp
  unfold carried
  split_ifs with h
  · subst h
    have hhalf : y * 2 ^ q / 2 ^ (q + 1) = y / 2 := by
      rw [zpow_add_one₀ two_ne_zero]
      field_simp
    have hge := hn.le.1
    push_cast at hge
    refine ⟨(by decide : leastNormal < 2 * leastNormal), by omega, .inr ?_, ?_⟩ <;> rw [hhalf]
    · linarith
    · exact isNearest_of_lt (by constructor <;> linarith)
  · refine ⟨lt_of_le_of_ne (hn.le_two_mul hlt) h, hq, hle.imp id fun hle => ?_, ?_⟩ <;> rw [hscale]
    · linarith
    · exact hn

/-- Rounding leads to the nearest double. -/
theorem exists_isRounded (hs : Stands (.ofMantissaAndAccuracy m a) y)
    (he : e ≤ leastExponent ∨ leastNormal ≤ m) : ∃ n q, IsRounded n q (y * 2 ^ e) ∧
      roundWithAccuracy .binary64 s m e a = ofParts s n q := by
  obtain ⟨k, hshift, hq, hlt, hle⟩ := exists_targetExponent (a := a) he
  have hstands := hs.shiftRight k
  have hmantissa := mantissa_shiftRight (.ofMantissaAndAccuracy m a) k
  rw [mantissa_ofMantissaAndAccuracy] at hmantissa
  set em := ExtendedMantissa.ofMantissaAndAccuracy m a >>> k
  rw [← hmantissa] at hlt hle
  have hfloor := hstands.floor
  have hlt : y / 2 ^ k < 2 * leastNormal := by
    have hlt : (em.mantissa : ℚ) + 1 ≤ 2 * leastNormal := by exact_mod_cast hlt
    linarith
  have hle : e + k = leastExponent ∨ (leastNormal : ℚ) ≤ y / 2 ^ k := hle.imp id fun hle => by
    have hle : (leastNormal : ℚ) ≤ em.mantissa := by exact_mod_cast hle
    linarith
  have hscale : y * 2 ^ e = y / 2 ^ k * 2 ^ (e + k) := by
    rw [zpow_add₀ two_ne_zero, zpow_natCast]
    field_simp
  rw [hscale]
  exact ⟨_, _, isRounded_carried hstands.isNearest hq hlt hle,
    roundWithAccuracy_eq hshift (hstands.isNearest.le_two_mul hlt) hq⟩

end Reckoner.Double
