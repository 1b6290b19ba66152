import Reckoner.Proofs.Json.Number

/-!
# Doubles that are read back with an error

The steps in which a numeral is read round three or four times, and their errors add up. What is
read back differs from the double that was written by a small part of it, and by a few of the
least doubles where it is among them. No step leads beyond the doubles; that is close for the
greatest two of them, which are both read back as the greatest one.

* `number`: the number that a finite double is;
* `IsClose`: doubles that differ by so little;
* `Numeral.isNear_scaled?`: the errors of the steps before the last one;
* `Numeral.exists_value?`: every finite double is read back as one that is close to it.
-/

namespace Reckoner

open Float.Model Float.Model.UnpackedFloat Double Rounding

/-! ## Numbers -/

/-- The number that a finite double is. -/
def number (x : Float) : ℚ :=
  match unpack x with
  | .finite s m q _ => s.apply m * 2 ^ q
  | _ => 0

theorem number_of_unpack {x : Float} {s : Sign} {m : ℕ} {q : ℤ} (h : unpack x = ofParts s m q) :
    number x = s.apply m * 2 ^ q := by
  rw [number, h]
  unfold ofParts
  split_ifs with hm
  · cases s <;> simp [hm, Sign.apply]
  · rfl

/-- Numbers of one sign differ like their amounts. -/
theorem abs_number {x y : Float} {s : Sign} {m n : ℕ} {q e : ℤ} (hx : unpack x = ofParts s m q)
    (hy : unpack y = ofParts s n e) :
    |number y - number x| = |(n : ℚ) * 2 ^ e - m * 2 ^ q| ∧ |number x| = (m : ℚ) * 2 ^ q := by
  have hpos : (0 : ℚ) ≤ m * 2 ^ q := by positivity
  rw [number_of_unpack hx, number_of_unpack hy]
  cases s with
  | positive =>
    simp only [Sign.apply, Int.cast_natCast, true_and]
    exact abs_of_nonneg hpos
  | negative =>
    simp only [Sign.apply, Int.cast_neg, Int.cast_natCast, neg_mul, abs_neg]
    exact ⟨by rw [neg_sub_neg, abs_sub_comm], abs_of_nonneg hpos⟩

/-- A finite double is another one, but for a small part of it and a few of the least doubles. -/
def IsClose (x y : Float) : Prop :=
  y.isFinite = true ∧ |number y - number x| ≤ |number x| / 2 ^ 49 + 2 ^ (leastExponent + 2)

theorem isClose_of_parts {x y : Float} {s : Sign} {m n : ℕ} {q e : ℤ}
    (hx : unpack x = ofParts s m q) (hy : unpack y = ofParts s n e)
    (h : |(n : ℚ) * 2 ^ e - m * 2 ^ q| ≤ m * 2 ^ q / 2 ^ 49 + 2 ^ (leastExponent + 2)) :
    IsClose x y := by
  obtain ⟨hsub, habs⟩ := abs_number hx hy
  refine ⟨isFinite_of_unpack hy, ?_⟩
  rwa [hsub, habs]

/-! ## Errors of products and quotients -/

section Errors

variable {c v w v' w' x y a : ℚ}

/-- The errors of two factors add up. -/
theorem abs_mul_sub_mul_le (hv : |v' - v| ≤ v * roundoff) (hw : |w' - w| ≤ w * roundoff)
    (hv₀ : 0 ≤ v) : |v' * w' - v * w| ≤ v * w * (3 * roundoff) := by
  have hroundoff := roundoff_pos
  have hw' : |w'| ≤ w * 2 := by
    rw [roundoff_eq] at hw
    rw [abs_le] at hw ⊢
    constructor <;> linarith
  calc |v' * w' - v * w| = |(v' - v) * w' + v * (w' - w)| := by ring_nf
    _ ≤ |(v' - v) * w'| + |v * (w' - w)| := abs_add_le _ _
    _ = |v' - v| * |w'| + v * |w' - w| := by rw [abs_mul, abs_mul, abs_of_nonneg hv₀]
    _ ≤ v * roundoff * (w * 2) + v * (w * roundoff) := by gcongr
    _ = v * w * (3 * roundoff) := by ring

/-- The errors of a dividend and a divisor add up. -/
theorem abs_div_sub_div_le (hv : |v' - v| ≤ v * (c * roundoff) + a) (hw : |w' - w| ≤ w * roundoff)
    (hv₀ : 0 ≤ v) (hw₀ : 1 ≤ w) (ha : 0 ≤ a) (hc₀ : 0 ≤ c) (hc : c ≤ 5) :
    |v' / w' - v / w| ≤ v / w * ((c + 2) * roundoff) + 2 * a := by
  have hroundoff := roundoff_pos
  have hw' : w * (1 - roundoff) ≤ w' := by linarith [(abs_le.mp hw).1]
  have hpos : 0 < w := by linarith
  have hpos' : 1 / 2 ≤ w' := by
    rw [roundoff_eq] at hw'
    linarith
  have hnum : |(v' - v) * w - v * (w' - w)| ≤ (v * ((c + 1) * roundoff) + a) * w := by
    calc |(v' - v) * w - v * (w' - w)| ≤ |(v' - v) * w| + |v * (w' - w)| := abs_sub _ _
      _ = |v' - v| * w + v * |w' - w| := by
          rw [abs_mul, abs_mul, abs_of_nonneg hv₀, abs_of_pos hpos]
      _ ≤ (v * (c * roundoff) + a) * w + v * (w * roundoff) := by gcongr
      _ = (v * ((c + 1) * roundoff) + a) * w := by ring
  have hden : v * ((c + 1) * roundoff) + a ≤ (v / w * ((c + 2) * roundoff) + 2 * a) * w' := by
    have hfactor : c + 1 ≤ (c + 2) * (1 - roundoff) := by
      rw [roundoff_eq]
      linarith
    calc v * ((c + 1) * roundoff) + a
        ≤ v * ((c + 2) * (1 - roundoff) * roundoff) + 2 * a * (1 / 2) := by
          gcongr
          linarith
      _ = v / w * ((c + 2) * roundoff) * (w * (1 - roundoff)) + 2 * a * (1 / 2) := by field_simp
      _ ≤ v / w * ((c + 2) * roundoff) * w' + 2 * a * w' := by gcongr
      _ = (v / w * ((c + 2) * roundoff) + 2 * a) * w' := by ring
  have hsub : v' / w' - v / w = ((v' - v) * w - v * (w' - w)) / (w' * w) := by
    have hne : w' ≠ 0 := by linarith
    field_simp
    ring
  rw [hsub, abs_div, abs_of_pos (by positivity : 0 < w' * w), div_le_iff₀ (by positivity)]
  calc |(v' - v) * w - v * (w' - w)| ≤ (v * ((c + 1) * roundoff) + a) * w := hnum
    _ ≤ (v / w * ((c + 2) * roundoff) + 2 * a) * w' * w := by gcongr
    _ = (v / w * ((c + 2) * roundoff) + 2 * a) * (w' * w) := by ring

/-- One more rounding. -/
theorem abs_sub_le_of_rounding (hc : |c - v| ≤ v * (3 * roundoff))
    (hw : |w - c| ≤ c * roundoff + a) : |w - v| ≤ v * (5 * roundoff) + a := by
  rw [roundoff_eq] at *
  rw [abs_le] at *
  constructor <;> linarith

/-- Three roundings before the last one, and the rounding of the number that is written. -/
theorem abs_sub_le_of_near (hc₀ : 0 ≤ c) (hv₀ : 0 ≤ v) (ha : 0 ≤ a)
    (hx : |x - v| ≤ v * roundoff + a) (hc : |c - v| ≤ v * (7 * roundoff) + 2 * a)
    (hy : |y - c| ≤ c * roundoff + a) : |y - x| ≤ x / 2 ^ 49 + 8 * a := by
  rw [roundoff_eq] at *
  rw [abs_le] at *
  constructor <;> linarith

/-- Numbers up to this one are not rounded to one of the greatest two doubles. -/
def margin : ℚ := (2 * leastNormal - 5 / 2) * 2 ^ greatestExponent

theorem margin_le_overflow : margin ≤ overflow :=
  mul_le_mul_of_nonneg_right (by linarith) (by positivity)

/-- Two factors that are rounded up make a product greater by less than two doubles. -/
theorem mul_lt_overflow (hv : |v' - v| ≤ v * roundoff) (hw : |w' - w| ≤ w * roundoff)
    (hv₀ : 0 ≤ v) (hw'₀ : 0 ≤ w')
    (h : v * w ≤ margin) : v' * w' < overflow := by
  have hpow : (0 : ℚ) < 2 ^ greatestExponent := by positivity
  have hroundoff := roundoff_pos
  have hv' : v' ≤ v * (1 + roundoff) := by linarith [(abs_le.mp hv).2]
  have hw' : w' ≤ w * (1 + roundoff) := by linarith [(abs_le.mp hw).2]
  have hprod : v' * w' ≤ v * w * (1 + roundoff) ^ 2 := by
    calc v' * w' ≤ v * (1 + roundoff) * (w * (1 + roundoff)) :=
          mul_le_mul hv' hw' hw'₀ (by positivity)
      _ = v * w * (1 + roundoff) ^ 2 := by ring
  have hfactor : (2 * leastNormal - 5 / 2 : ℚ) * (1 + roundoff) ^ 2 < 2 * leastNormal - 1 / 2 := by
    rw [roundoff_eq, cast_leastNormal]
    norm_num
  calc v' * w' ≤ v * w * (1 + roundoff) ^ 2 := hprod
    _ ≤ (2 * leastNormal - 5 / 2) * 2 ^ greatestExponent * (1 + roundoff) ^ 2 :=
        mul_le_mul_of_nonneg_right h (by positivity)
    _ = (2 * leastNormal - 5 / 2) * (1 + roundoff) ^ 2 * 2 ^ greatestExponent := by ring
    _ < (2 * leastNormal - 1 / 2) * 2 ^ greatestExponent := by gcongr
    _ = overflow := rfl

end Errors

namespace Numeral

variable {x y : Float} {n : Numeral} {s : UnpackedFloat.Sign} {v : ℚ} {e m k word : ℕ}
  {q exponent : ℤ}

/-! ## Steps -/

theorem dividePower_of_le (x : Float) (hk : k ≤ greatestPower) :
    dividePower x k = x / powerOfTen k := by
  rw [dividePower, if_pos hk]

/-- A great power of ten is divided by in two steps. -/
theorem dividePower_of_lt (hx : Denotes x v) (hk : greatestPower < k)
    (hle : k ≤ greatestPower + greatestPower) :
    dividePower x k = x / powerOfTen greatestPower / powerOfTen (k - greatestPower) := by
  have hzero : (x == 0.0) = (unpack x).beq (.zero .positive) := rfl
  obtain ⟨m, q, hm, hunpack, -⟩ := hx
  have hne : ¬ (x == 0.0) = true := by
    rw [hzero, hunpack]
    exact Bool.false_ne_true
  rw [dividePower, if_neg (Nat.not_le_of_lt hk), if_neg hne]
  exact dividePower_of_le _ (Nat.sub_le_of_le_add hle)

theorem le_of_mul_le (hpos : 0 < word) (h : (word * 10 ^ e : ℚ) ≤ margin) : e ≤ 308 := by
  by_contra! hlt
  have hone : (1 : ℚ) ≤ word := by exact_mod_cast hpos
  refine lt_irrefl ((10 : ℚ) ^ 309) ?_
  calc (10 : ℚ) ^ 309 ≤ 10 ^ e := pow_le_pow_right₀ (by norm_num) hlt
    _ ≤ word * 10 ^ e := le_mul_of_one_le_left (by positivity) hone
    _ ≤ margin := h
    _ ≤ overflow := margin_le_overflow
    _ < 10 ^ 309 := overflow_lt_powerOfTen

theorem exists_toFloat (hpos : 0 < word) (hword : word < 10 ^ 18) :
    ∃ v, Denotes word.toUInt64.toFloat v ∧ |v - word| ≤ word * roundoff := by
  have hsize : word < UInt64.size := hword.trans (by decide)
  exact (roundsTo_toFloat hpos hsize).exists_denotes_of_one_le (word_lt_overflow hsize)
    (by exact_mod_cast hpos)

theorem exists_powerOfTen (hk : k ≤ 308) :
    ∃ v, Denotes (powerOfTen k) v ∧ |v - 10 ^ k| ≤ 10 ^ k * roundoff :=
  (roundsTo_powerOfTen hk).exists_denotes_of_one_le (powerOfTen_lt_overflow hk)
    (one_le_pow₀ (by norm_num))

theorem two_mul_half_least : (2 * 2 ^ (leastExponent - 1) : ℚ) = 2 ^ leastExponent := by
  rw [zpow_sub_one₀ two_ne_zero]
  ring

/-- Before the last step rounds, the number that is computed is close to the number that is
    written, and not beyond the doubles. -/
def IsNear (v : ℚ) (y : Float) : Prop :=
  ∃ c, RoundsTo c y ∧ 0 ≤ c ∧ c < overflow ∧ |c - v| ≤ v * (7 * roundoff) + 2 ^ leastExponent

theorem lt_overflow_of_abs_sub_le {c : ℚ} (hv : v ≤ 10 ^ 18)
    (h : |c - v| ≤ v * (7 * roundoff) + 2 ^ leastExponent) : c < overflow := by
  have hleast : (2 : ℚ) ^ leastExponent ≤ 1 := zpow_le_one_of_nonpos₀ one_le_two (by decide)
  have hc : c ≤ 10 ^ 20 := by
    rw [roundoff_eq] at h
    linarith [(abs_le.mp h).2]
  exact lt_of_le_of_lt hc (powerOfTen_lt_overflow (by decide))

theorem abs_sub_le_of_le_three {c : ℚ} (hv : 0 ≤ v) (h : |c - v| ≤ v * (3 * roundoff)) :
    |c - v| ≤ v * (7 * roundoff) + 2 ^ leastExponent := by
  have hroundoff := roundoff_pos
  have hmore : v * (3 * roundoff) ≤ v * (7 * roundoff) := by
    gcongr
    norm_num
  exact h.trans (hmore.trans (le_add_of_nonneg_right (by positivity)))

theorem isNear_multiply (hpos : 0 < word) (hword : word < 10 ^ 18)
    (h : (word * 10 ^ e : ℚ) ≤ margin) :
    ∃ y, multiplyPower? word.toUInt64.toFloat e = some y ∧ IsNear (word * 10 ^ e) y := by
  have he := le_of_mul_le hpos h
  obtain ⟨v, hx, hv⟩ := exists_toFloat hpos hword
  obtain ⟨w, hy, hw⟩ := exists_powerOfTen he
  have hrange := mul_lt_overflow hv hw (Nat.cast_nonneg word) hy.pos.le h
  exact ⟨_, multiplyPower?_eq he ((hx.mul hy).isInf_eq_false hrange), v * w, hx.mul hy,
    (mul_pos hx.pos hy.pos).le, hrange,
    abs_sub_le_of_le_three (by positivity) (abs_mul_sub_mul_le hv hw (Nat.cast_nonneg word))⟩

/-- One step of a division. -/
theorem exists_quotient (hpos : 0 < word) (hword : word < 10 ^ 18) (hk : k ≤ 308) :
    ∃ c, RoundsTo c (word.toUInt64.toFloat / powerOfTen k) ∧ 0 ≤ c ∧
      |c - word / 10 ^ k| ≤ word / 10 ^ k * (3 * roundoff) := by
  obtain ⟨v, hx, hv⟩ := exists_toFloat hpos hword
  obtain ⟨w, hy, hw⟩ := exists_powerOfTen hk
  have hv : |v - word| ≤ word * (1 * roundoff) + 0 := by rwa [one_mul, add_zero]
  have herror := abs_div_sub_div_le hv hw (Nat.cast_nonneg word) (one_le_pow₀ (by norm_num)) le_rfl
    zero_le_one (by norm_num)
  refine ⟨v / w, hx.div hy, (div_pos hx.pos hy.pos).le, ?_⟩
  norm_num at herror
  exact herror

theorem div_pow_le (hword : word < 10 ^ 18) (k : ℕ) : (word / 10 ^ k : ℚ) ≤ 10 ^ 18 := by
  have hten : (1 : ℚ) ≤ 10 ^ k := one_le_pow₀ (by norm_num)
  have hcast : (word : ℚ) ≤ 10 ^ 18 := by exact_mod_cast hword.le
  exact (div_le_self (Nat.cast_nonneg word) hten).trans hcast

theorem le_div_pow (hpos : 0 < word) : (2 * 2 ^ leastExponent : ℚ) ≤ word / 10 ^ 308 := by
  have hnat : 2 * 10 ^ 308 ≤ 2 ^ 1074 := by decide +kernel
  have hone : (1 : ℚ) ≤ word := by exact_mod_cast hpos
  have hpow : (2 : ℚ) ^ leastExponent = 1 / 2 ^ 1074 := by
    rw [leastExponent, zpow_neg, one_div]
    rfl
  rw [hpow, le_div_iff₀ (by positivity), mul_one_div, div_mul_eq_mul_div, div_le_iff₀ (by positivity)]
  refine le_trans (by exact_mod_cast hnat) (le_mul_of_one_le_left (by positivity) hone)

/-- Two steps of a division. -/
theorem isNear_divide_twice (hpos : 0 < word) (hword : word < 10 ^ 18) (hk : 308 < k)
    (hle : k ≤ 616) : IsNear (word / 10 ^ k) (dividePower word.toUInt64.toFloat k) := by
  obtain ⟨_, hx, -⟩ := exists_toFloat hpos hword
  obtain ⟨c, hc, -, hcerror⟩ := exists_quotient hpos hword (le_refl 308)
  have hsplit : (word / 10 ^ k : ℚ) = word / 10 ^ 308 / 10 ^ (k - 308) := by
    rw [div_div, ← pow_add, Nat.add_sub_cancel' hk.le]
  have hgreat := le_div_pow hpos
  have hrange := lt_overflow_of_abs_sub_le (div_pow_le hword 308)
    (abs_sub_le_of_le_three (by positivity) hcerror)
  rw [hsplit]
  generalize (word / 10 ^ 308 : ℚ) = v at *
  have hv : 0 ≤ v := le_trans (by positivity) hgreat
  have hleast : 2 ^ leastExponent ≤ c := by
    rw [roundoff_eq] at hcerror
    linarith [(abs_le.mp hcerror).1]
  obtain ⟨z, hz, hzerror⟩ := hc.exists_denotes hrange hleast
  obtain ⟨w, hy, hw⟩ := exists_powerOfTen (Nat.sub_le_of_le_add hle : k - 308 ≤ 308)
  have herror := abs_div_sub_div_le (abs_sub_le_of_rounding hcerror hzerror) hw hv
    (one_le_pow₀ (by norm_num)) (by positivity) (by norm_num) le_rfl
  have hfive : (5 + 2 : ℚ) = 7 := by norm_num
  rw [two_mul_half_least, hfive] at herror
  rw [dividePower_of_lt hx hk hle]
  refine ⟨z / w, hz.div hy, (div_pos hz.pos hy.pos).le, lt_overflow_of_abs_sub_le ?_ herror, herror⟩
  rw [← hsplit]
  exact div_pow_le hword k

theorem isNear_divide (hpos : 0 < word) (hword : word < 10 ^ 18) (hk : k ≤ 616) :
    IsNear (word / 10 ^ k) (dividePower word.toUInt64.toFloat k) := by
  rcases Nat.lt_or_ge 308 k with hlt | hle
  · exact isNear_divide_twice hpos hword hlt hk
  · obtain ⟨c, hc, hc₀, hcerror⟩ := exists_quotient hpos hword hle
    have herror := abs_sub_le_of_le_three (by positivity) hcerror
    rw [dividePower_of_le _ hle]
    exact ⟨c, hc, hc₀, lt_overflow_of_abs_sub_le (div_pow_le hword k) herror, herror⟩

/-! ## Numerals -/

theorem isNear_scaled? (hpos : 0 < word) (hword : word < 10 ^ 18) (hleast : -616 ≤ exponent)
    (h : (word * 10 ^ exponent : ℚ) ≤ margin) :
    ∃ y, scaled? word exponent = some y ∧ IsNear (word * 10 ^ exponent) y := by
  cases exponent with
  | ofNat e => exact isNear_multiply hpos hword h
  | negSucc e =>
    refine ⟨_, rfl, ?_⟩
    rw [zpow_negSucc]
    exact isNear_divide hpos hword (by omega)

/-- The decimal exponent of a double is not far below the least one. -/
theorem exponent_ge_of_isRounded (hm : 0 < m) (hword : word < 10 ^ 18)
    (h : IsRounded m q (word * 10 ^ exponent)) : -616 ≤ exponent := by
  by_contra! hlt
  have hone : (1 : ℚ) ≤ m := by exact_mod_cast hm
  have hword : (word : ℚ) ≤ 10 ^ 18 := by exact_mod_cast hword.le
  have hnat : 2 ^ 1075 < 10 ^ 599 := by decide +kernel
  have hhalf : (1 / 2 : ℚ) ≤ word * 10 ^ exponent / 2 ^ q := by linarith [h.nearest.le.1]
  have hten : (10 : ℚ) ^ 18 * 10 ^ (-617 : ℤ) = 10 ^ (-599 : ℤ) := by
    rw [← zpow_natCast, ← zpow_add₀ (by norm_num)]
    rfl
  refine lt_irrefl ((2 : ℚ) ^ (leastExponent - 1)) ?_
  calc (2 : ℚ) ^ (leastExponent - 1) ≤ 2 ^ (q - 1) :=
        zpow_le_zpow_right₀ one_le_two (sub_le_sub_right h.le 1)
    _ ≤ word * 10 ^ exponent := by
        rw [le_div_iff₀ (by positivity)] at hhalf
        rw [zpow_sub_one₀ two_ne_zero]
        linarith
    _ ≤ 10 ^ 18 * 10 ^ (-617 : ℤ) :=
        mul_le_mul hword (zpow_le_zpow_right₀ (by norm_num) (by omega)) (by positivity) (by positivity)
    _ < 2 ^ (leastExponent - 1) := by
        rw [hten, zpow_neg, leastExponent, show (-1074 - 1 : ℤ) = -1075 from rfl, zpow_neg]
        exact inv_strictAnti₀ (by positivity) (by exact_mod_cast hnat)

theorem le_of_isRounded (h : IsRounded m q v) (hq : q ≤ greatestExponent)
    (hm : q = greatestExponent → m + 3 ≤ 2 * leastNormal) :
    v ≤ margin := by
  unfold margin
  have hpow : (0 : ℚ) < 2 ^ q := by positivity
  have hv : v ≤ (m + 1 / 2) * 2 ^ q := (div_le_iff₀ hpow).mp h.nearest.le.2
  rcases hq.eq_or_lt with rfl | hlt
  · have hm : (m : ℚ) + 3 ≤ 2 * leastNormal := by exact_mod_cast hm rfl
    exact hv.trans (mul_le_mul_of_nonneg_right (by linarith) hpow.le)
  · have hm : (m : ℚ) + 1 ≤ 2 * leastNormal := by exact_mod_cast h.lt
    have hdouble : (2 : ℚ) ^ (q + 1) ≤ 2 ^ greatestExponent :=
      zpow_le_zpow_right₀ one_le_two (by omega)
    rw [zpow_add_one₀ two_ne_zero] at hdouble
    rw [cast_leastNormal] at *
    nlinarith

/-- The numerals of the greatest two doubles are read as the greatest one. -/
theorem value?_greatest (s : UnpackedFloat.Sign) (hm : m < 2 * leastNormal)
    (hge : 2 * leastNormal ≤ m + 2)
    (h : ofFloat? jsonStyle (.ofModel (.pack (ofParts s m greatestExponent))) = some n) :
    n.value? = some (.ofModel (.pack (ofParts s (2 * leastNormal - 1) greatestExponent))) := by
  have hall : ∀ s, ∀ m ∈ [2 * leastNormal - 1, 2 * leastNormal - 2],
      (ofFloat? jsonStyle (.ofModel (.pack (ofParts s m greatestExponent)))).map value? =
        some (some (.ofModel (.pack (ofParts s (2 * leastNormal - 1) greatestExponent)))) := by
    rintro (_ | _) <;> decide +kernel
  have hall := hall s m (by
    simp only [List.mem_cons, List.not_mem_nil, or_false]
    omega)
  rw [h] at hall
  exact Option.some.inj hall

end Numeral

/-! ## Doubles -/

/-- The greatest two doubles are close to each other. -/
theorem greatest_close {m : ℕ} (hm : m < 2 * leastNormal) (hge : 2 * leastNormal ≤ m + 2) :
    |((2 * leastNormal - 1 : ℕ) : ℚ) * 2 ^ greatestExponent - m * 2 ^ greatestExponent| ≤
      m * 2 ^ greatestExponent / 2 ^ 49 + 2 ^ (leastExponent + 2) := by
  have hpow : (0 : ℚ) < 2 ^ greatestExponent := by positivity
  have hleast : (0 : ℚ) < 2 ^ (leastExponent + 2) := by positivity
  have hle : (m : ℚ) ≤ (2 * leastNormal - 1 : ℕ) := by exact_mod_cast (by omega)
  have hnext : ((2 * leastNormal - 1 : ℕ) : ℚ) ≤ m + 1 := by exact_mod_cast (by omega)
  have hgreat : (2 ^ 49 : ℚ) ≤ m := by
    have hnat : 2 ^ 49 ≤ 2 * leastNormal - 2 := by decide
    exact_mod_cast (by omega : 2 ^ 49 ≤ m)
  rw [← sub_mul, abs_of_nonneg (mul_nonneg (by linarith) hpow.le)]
  calc (((2 * leastNormal - 1 : ℕ) : ℚ) - m) * 2 ^ greatestExponent
      ≤ m / 2 ^ 49 * 2 ^ greatestExponent := by
        gcongr
        rw [le_div_iff₀ (by positivity)]
        linarith
    _ = m * 2 ^ greatestExponent / 2 ^ 49 := by ring
    _ ≤ m * 2 ^ greatestExponent / 2 ^ 49 + 2 ^ (leastExponent + 2) := by linarith

namespace Numeral

variable {x : Float} {n : Numeral} {s : UnpackedFloat.Sign} {m : ℕ} {q : ℤ}

theorem exists_value?_greatest {hm : 0 < m} (hx : unpack x = .finite s m greatestExponent hm)
    (hge : 2 * leastNormal ≤ m + 2) (h : ofFloat? jsonStyle x = some n) :
    ∃ y, n.value? = some y ∧ IsClose x y := by
  have hdouble := isDouble_of_unpack hx
  have hx := hx.trans (ofParts_of_pos hm).symm
  have hy : unpack (.ofModel (.pack (ofParts s (2 * leastNormal - 1) greatestExponent))) =
      ofParts s (2 * leastNormal - 1) greatestExponent :=
    unpack_pack ⟨by decide, by decide, le_rfl, .inr (by decide)⟩
  rw [← eq_of_unpack_eq ((unpack_pack hdouble).trans hx.symm)] at h
  exact ⟨_, value?_greatest s hdouble.lt hge h,
    isClose_of_parts hx hy (greatest_close hdouble.lt hge)⟩

theorem exists_value?_of_lt_greatest {hm : 0 < m} (hx : unpack x = .finite s m q hm)
    (hlt : q = greatestExponent → m + 3 ≤ 2 * leastNormal) (h : ofFloat? jsonStyle x = some n) :
    ∃ y, n.value? = some y ∧ IsClose x y := by
  obtain ⟨hsign, hpos, hdigits, hrounded⟩ := isRounded_ofFloat? hx h
  obtain ⟨y, hy, c, hc, hc₀, hcrange, hcerror⟩ := isNear_scaled? hpos hdigits
    (exponent_ge_of_isRounded hm hdigits hrounded)
    (le_of_isRounded hrounded (isDouble_of_unpack hx).greatest hlt)
  obtain ⟨m', q', hr, hdouble, hparts⟩ := hc.exists_isRounded hcrange
  have hvalue : 0 ≤ n.decimal.value := by
    rw [Decimal.value]
    positivity
  have hbound : (8 * 2 ^ (leastExponent - 1) : ℚ) = 2 ^ (leastExponent + 2) := by
    rw [zpow_sub_one₀ two_ne_zero, zpow_add₀ two_ne_zero]
    norm_num
    ring
  refine ⟨withSign n.negative y, by rw [value?_eq_scaled? hdigits, hy, Option.map_some], ?_⟩
  rw [hsign]
  refine isClose_of_parts (hx.trans (ofParts_of_pos hm).symm) (unpack_withSign hdouble hparts s) ?_
  rw [← two_mul_half_least] at hcerror
  rw [← hbound]
  exact abs_sub_le_of_near hc₀ hvalue (by positivity) (hrounded.abs_sub_le hvalue) hcerror
    (hr.abs_sub_le hc₀)

/-- A double is read back as a double that is close to it. -/
theorem exists_value? (h : ofFloat? jsonStyle x = some n) :
    ∃ y, n.value? = some y ∧ IsClose x y := by
  cases hx : unpack x with
  | finite s m q hm =>
    by_cases htop : q = greatestExponent ∧ 2 * leastNormal ≤ m + 2
    · obtain ⟨rfl, hge⟩ := htop
      exact exists_value?_greatest hx hge h
    · exact exists_value?_of_lt_greatest hx (by omega) h
  | zero s =>
    have hparts : unpack x = ofParts s 0 leastExponent := hx
    refine ⟨x, value?_of_zero hx h, isClose_of_parts hparts hparts ?_⟩
    rw [sub_self, abs_zero]
    positivity
  | infinity | notANumber =>
    rw [ofFloat?, hx] at h
    cases h

end Numeral

end Reckoner
