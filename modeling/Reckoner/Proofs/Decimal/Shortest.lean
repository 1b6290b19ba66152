import Reckoner.Decimal.Shortest
import Mathlib.Algebra.Order.Field.Rat
import Mathlib.Algebra.Order.Field.Power
import Mathlib.Tactic.FieldSimp
import Mathlib.Tactic.Positivity
import Mathlib.Tactic.Ring
import Mathlib.Tactic.Linarith
import Mathlib.Tactic.NormNum

/-!
# The interval of a shortest decimal

The shortest decimal of a double is one of the numbers that the double stands for: it lies in
the interval of those numbers. Every double has one, because the finest grid has a point in
each interval.

* `Decimal.value`: a decimal as a rational number;
* `Rounding.Holds`: the numbers in an interval. The exact arithmetic of the search decides
  this (`Rounding.contains_iff`);
* `Decimal.holds_of_shortest?`: shortest decimals lie in the interval;
* `Decimal.isSome_shortest?`: there is one for every significand and exponent of a double;
* `Decimal.significand_lt_of_shortest?`: it has no more digits than fit into a word.
-/

namespace Reckoner

/-- The number that a decimal is. -/
def Decimal.value (d : Decimal) : ℚ := d.significand * 10 ^ d.exponent

namespace Rounding

variable {tie : Tie} {r : Rounding} {k two ten : ℤ} {a d m : ℕ} {q : ℤ} {y : ℚ}

/-! ## Intervals -/

/-- The numbers in the interval. -/
def Holds (r : Rounding) (y : ℚ) : Prop :=
  if r.closed then r.lower * 2 ^ r.exponent ≤ y ∧ y ≤ r.upper * 2 ^ r.exponent
  else r.lower * 2 ^ r.exponent < y ∧ y < r.upper * 2 ^ r.exponent

theorem pow_toNat_div (b : ℚ) (hb : b ≠ 0) (e : ℤ) : b ^ e.toNat / b ^ (-e).toNat = b ^ e := by
  rw [← zpow_natCast, ← zpow_natCast, ← zpow_sub₀ hb]
  congr 1
  omega

/-- Numerator and denominator are the powers at one scale. -/
theorem exists_scale (two ten : ℤ) : ∃ c : ℚ, 0 < c ∧
    ((ratio two ten).1 : ℚ) = 2 ^ two * c ∧ ((ratio two ten).2 : ℚ) = 10 ^ ten * c := by
  refine ⟨10 ^ (-ten).toNat * 2 ^ (-two).toNat, by positivity, ?_, ?_⟩
  · rw [← pow_toNat_div 2 (by norm_num) two]
    simp only [ratio, Nat.shiftLeft_eq, Nat.pow_eq]
    push_cast
    field_simp
  · rw [← pow_toNat_div 10 (by norm_num) ten]
    simp only [ratio, Nat.shiftLeft_eq, Nat.pow_eq]
    push_cast
    field_simp

/-- Products with the two parts of a ratio compare like the numbers themselves. -/
theorem mul_ratio_le_iff (a d : ℕ) (two ten : ℤ) :
    (a * (ratio two ten).1 ≤ d * (ratio two ten).2 ↔ (a : ℚ) * 2 ^ two ≤ d * 10 ^ ten) ∧
    (d * (ratio two ten).2 ≤ a * (ratio two ten).1 ↔ (d : ℚ) * 10 ^ ten ≤ a * 2 ^ two) := by
  obtain ⟨c, hc, hnum, hden⟩ := exists_scale two ten
  have hcast {m n : ℕ} : m ≤ n ↔ (m : ℚ) ≤ n := Nat.cast_le.symm
  simp only [hcast, Nat.cast_mul, hnum, hden, ← mul_assoc, mul_le_mul_iff_left₀ hc, and_self]

/-- Whether the multiple lies in the interval is decided exactly. -/
theorem contains_iff : r.contains k d = true ↔ r.Holds (d * 10 ^ k) := by
  have hlower := mul_ratio_le_iff r.lower d r.exponent k
  have hupper := mul_ratio_le_iff r.upper d r.exponent k
  unfold contains Holds
  cases r.closed with
  | true => simp only [if_true, Bool.and_eq_true, decide_eq_true_eq, hlower.1, hupper.2]
  | false =>
    simp only [Bool.false_eq_true, if_false, Bool.and_eq_true, decide_eq_true_eq]
    rw [← not_le, ← not_le, hlower.2, hupper.1, not_le, not_le]

/-- Only a point of the interval is taken. -/
theorem contains_of_nearest? (h : r.nearest? tie k = some d) : r.contains k d = true := by
  simp only [nearest?] at h
  split at h
  · obtain rfl := Option.some.inj h
    split_ifs <;> assumption
  · obtain rfl := Option.some.inj h
    assumption
  · obtain rfl := Option.some.inj h
    assumption
  · cases h

/-! ## The interval of a double -/

/-- The interval of a positive double is well above zero. -/
theorem two_le_lower (hm : 0 < m) : 2 ≤ (ofBinary m q).lower := by
  simp only [ofBinary]
  split_ifs with h
  · simp only [Bool.and_eq_true, decide_eq_true_eq] at h
    have hnormal : 1 ≤ leastNormal := by decide
    omega
  · omega

theorem pos_of_holds (hm : 0 < m) (h : (ofBinary m q).Holds y) : 0 < y := by
  have hlower : (0 : ℚ) < (ofBinary m q).lower := by
    exact_mod_cast Nat.lt_of_lt_of_le Nat.two_pos (two_le_lower hm)
  have hpos : 0 < ((ofBinary m q).lower : ℚ) * 2 ^ (ofBinary m q).exponent := by positivity
  unfold Holds at h
  split_ifs at h
  · exact lt_of_lt_of_le hpos h.1
  · exact hpos.trans h.1

/-! ## Grids -/

theorem floor_mul_le (r : Rounding) (k : ℤ) :
    (r.floor k : ℚ) * 10 ^ k ≤ r.number * 2 ^ r.exponent :=
  (mul_ratio_le_iff ..).2.mp (Nat.div_mul_le_self ..)

theorem lt_floor_mul (r : Rounding) (k : ℤ) :
    (r.number : ℚ) * 2 ^ r.exponent < (r.floor k + 1 : ℕ) * 10 ^ k := by
  have hden : 0 < (ratio r.exponent k).2 := by
    simp only [ratio, Nat.shiftLeft_eq, Nat.pow_eq]
    positivity
  rw [← not_le, ← (mul_ratio_le_iff ..).2, not_le]
  exact Nat.lt_mul_of_div_lt (Nat.lt_succ_self _) hden

/-- A grid that is finer than a quarter of the distance of doubles has a point in the
    interval. -/
theorem isSome_nearest? (hm : 0 < m) (hk : (10 : ℚ) ^ k ≤ 2 ^ (q - 2)) :
    ((ofBinary m q).nearest? tie k).isSome = true := by
  have hfloor := floor_mul_le (ofBinary m q) k
  have hnext := lt_floor_mul (ofBinary m q) k
  have hlower : ((ofBinary m q).lower : ℚ) ≤ (ofBinary m q).number - 1 := by
    have hnat : (ofBinary m q).lower + 1 ≤ (ofBinary m q).number := by
      simp only [ofBinary]
      split_ifs <;> omega
    have hcast : ((ofBinary m q).lower : ℚ) + 1 ≤ (ofBinary m q).number := by exact_mod_cast hnat
    linarith only [hcast]
  have hupper : ((ofBinary m q).number : ℚ) + 2 = (ofBinary m q).upper := by
    simp [ofBinary]
  have hpow : (0 : ℚ) < 2 ^ (ofBinary m q).exponent := by positivity
  have hk : (10 : ℚ) ^ k ≤ 2 ^ (ofBinary m q).exponent := hk
  have hholds : (ofBinary m q).Holds ((ofBinary m q).floor k * 10 ^ k) := by
    have hbelow : ((ofBinary m q).lower : ℚ) * 2 ^ (ofBinary m q).exponent <
        (ofBinary m q).floor k * 10 ^ k := by
      push_cast at hnext
      nlinarith only [hlower, hnext, hk, hpow]
    have habove : ((ofBinary m q).floor k : ℚ) * 10 ^ k <
        (ofBinary m q).upper * 2 ^ (ofBinary m q).exponent := by
      nlinarith only [hupper, hfloor, hpow]
    unfold Holds
    split_ifs
    · exact ⟨hbelow.le, habove.le⟩
    · exact ⟨hbelow, habove⟩
  have hcontains := contains_iff.mpr hholds
  simp only [nearest?, hcontains]
  cases (ofBinary m q).contains k ((ofBinary m q).floor k + 1) <;> rfl

end Rounding

namespace Decimal

variable {tie : Tie} {r : Rounding} {n m : ℕ} {k q : ℤ} {d : Decimal}

theorem holds_of_onCoarsest? (h : onCoarsest? tie r n k = some d) : r.Holds d.value := by
  induction n generalizing k with
  | zero => cases h
  | succ n ih =>
    rw [onCoarsest?] at h
    split at h
    · rename_i hnearest
      obtain rfl := Option.some.inj h
      exact Rounding.contains_iff.mp (Rounding.contains_of_nearest? hnearest)
    · exact ih h

/-- A shortest decimal is one of the numbers that the double stands for. -/
theorem holds_of_shortest? (h : shortest? tie m q = some d) :
    (Rounding.ofBinary m q).Holds d.value := holds_of_onCoarsest? h

theorem significand_pos_of_shortest? (hm : 0 < m) (h : shortest? tie m q = some d) :
    0 < d.significand := by
  have hpos := Rounding.pos_of_holds hm (holds_of_shortest? h)
  refine Nat.pos_of_ne_zero fun hzero => ?_
  rw [value, hzero, Nat.cast_zero, zero_mul] at hpos
  exact lt_irrefl 0 hpos

theorem isSome_onCoarsest? {j : ℕ} (hj : j < n)
    (h : (r.nearest? tie (k - j)).isSome = true) : (onCoarsest? tie r n k).isSome = true := by
  induction n generalizing j k with
  | zero => exact absurd hj (Nat.not_lt_zero j)
  | succ n ih =>
    rw [onCoarsest?]
    split
    · rfl
    · rename_i hnone
      cases j with
      | zero =>
        rw [Nat.cast_zero, sub_zero, hnone] at h
        cases h
      | succ j =>
        refine ih (Nat.lt_of_succ_lt_succ hj) ?_
        rwa [sub_sub, add_comm 1, ← Nat.cast_succ]

/-- Every double has a shortest decimal. -/
theorem isSome_shortest? (hm : 0 < m) (hq : Rounding.leastExponent ≤ q) :
    (shortest? tie m q).isSome = true := by
  have hfinest : (10 : ℚ) ^ (-324 : ℤ) ≤ 2 ^ (q - 2) := by
    have hpow : (2 : ℚ) ^ (-1076 : ℤ) ≤ 2 ^ (q - 2) :=
      zpow_le_zpow_right₀ (by norm_num) (by simp only [Rounding.leastExponent] at hq; omega)
    refine le_trans ?_ hpow
    rw [zpow_neg, zpow_neg]
    have hnat : 2 ^ 1076 ≤ 10 ^ 324 := by decide +kernel
    exact inv_anti₀ (by positivity) (by exact_mod_cast hnat)
  exact isSome_onCoarsest? (show 632 < grids by decide) (Rounding.isSome_nearest? hm hfinest)

/-- The next coarser grid has no point in the interval. -/
theorem exponent_of_onCoarsest? (h : onCoarsest? tie r n k = some d) :
    d.exponent = k ∨ r.nearest? tie (d.exponent + 1) = none := by
  induction n generalizing k with
  | zero => cases h
  | succ n ih =>
    rw [onCoarsest?] at h
    split at h
    · obtain rfl := Option.some.inj h
      exact .inl rfl
    · rename_i hnone
      refine .inr ((ih h).elim (fun hk => ?_) id)
      rwa [hk, sub_add_cancel]

/-- A shortest decimal has at most eighteen digits. -/
theorem significand_lt_of_shortest? (hm : 0 < m) (hlt : m < 2 * Rounding.leastNormal)
    (hq : q ≤ 971) (h : shortest? tie m q = some d) : d.significand < 10 ^ 18 := by
  have hgrid : (2 : ℚ) ^ (q - 2) < 10 ^ (d.exponent + 1) := by
    rcases exponent_of_onCoarsest? h with hk | hnone
    · have hnat : 2 ^ 969 < 10 ^ 309 := by decide +kernel
      calc (2 : ℚ) ^ (q - 2) ≤ 2 ^ (969 : ℤ) := zpow_le_zpow_right₀ one_le_two (by omega)
        _ < 10 ^ (309 : ℤ) := by exact_mod_cast hnat
        _ = 10 ^ (d.exponent + 1) := by rw [hk, coarsest]; rfl
    · by_contra! hle
      have hsome : ((Rounding.ofBinary m q).nearest? tie (d.exponent + 1)).isSome = true :=
        Rounding.isSome_nearest? hm hle
      rw [hnone] at hsome
      cases hsome
  have hupper : d.value ≤ (4 * m + 2) * 2 ^ (q - 2) := by
    have hholds := holds_of_shortest? h
    have hcast : ((Rounding.ofBinary m q).upper : ℚ) = 4 * m + 2 := by
      simp [Rounding.ofBinary]
    rw [← hcast]
    unfold Rounding.Holds at hholds
    split_ifs at hholds
    · exact hholds.2
    · exact hholds.2.le
  have hten : (0 : ℚ) < 10 ^ d.exponent := by positivity
  have hm : (4 * m + 2 : ℚ) ≤ 2 ^ 55 := by
    have hnat : 4 * m + 2 ≤ 2 ^ 55 := by
      have hnormal : Rounding.leastNormal = 2 ^ 52 := rfl
      omega
    exact_mod_cast hnat
  rw [zpow_add_one₀ (by norm_num)] at hgrid
  have hlt : (d.significand : ℚ) < 10 ^ 18 := by
    refine lt_of_mul_lt_mul_right ?_ hten.le
    calc (d.significand : ℚ) * 10 ^ d.exponent ≤ (4 * m + 2) * 2 ^ (q - 2) := hupper
      _ ≤ 2 ^ 55 * 2 ^ (q - 2) := mul_le_mul_of_nonneg_right hm (by positivity)
      _ < 2 ^ 55 * (10 ^ d.exponent * 10) := mul_lt_mul_of_pos_left hgrid (by positivity)
      _ ≤ 10 ^ 18 * 10 ^ d.exponent := by nlinarith
  exact_mod_cast hlt

end Decimal

end Reckoner
