import Mathlib
import Reckoner.Double
import Reckoner.Proofs.Double.Rounding

/-!
# Arithmetic of doubles

Doubles are stored by their parts, and nothing is lost by that. What is computed with them,
products, quotients and conversions of words, is the exact result, rounded once.

* `Double.unpack_pack`: what is stored is what is read;
* `Double.Denotes` and `Double.RoundsTo`: the number that a positive double is, and the double
  that a number is rounded to;
* `Double.Denotes.mul` and `Double.Denotes.div`: arithmetic;
* `Double.roundsTo_toFloat` and `Double.roundsTo_powerOfTen`: words and powers of ten.
-/

namespace Reckoner.Double

open Float.Model Float.Model.UnpackedFloat Rounding

variable {x : Float} {s : Sign} {a : Accuracy} {v w y : ℚ} {k m n : ℕ} {e f q : ℤ}

/-! ## Parts of doubles -/

/-- The greatest exponent of a double. -/
def greatestExponent : ℤ := 971

/-- The significand and the exponent of a finite double. -/
structure IsDouble (m : ℕ) (q : ℤ) : Prop where
  lt : m < 2 * leastNormal
  least : leastExponent ≤ q
  greatest : q ≤ greatestExponent
  normal : q = leastExponent ∨ leastNormal ≤ m

/-- A double is told by its parts. -/
theorem eq_of_unpack_eq {y : Float} (h : unpack x = unpack y) : x = y :=
  Float.toBits_inj.mp (UInt64.toBitVec_inj.mp
    ((unpack_inj_of_valid x.toModel.valid y.toModel.valid).mp h))

/-- The first bit of a normal significand is not stored. -/
theorem toNat_one_append (b : BitVec 52) : (1#1 ++ b).toNat = leastNormal + b.toNat := by
  rw [BitVec.toNat_append, BitVec.toNat_ofNat, ← Nat.shiftLeft_add_eq_or_of_lt b.isLt]
  rfl

theorem toNat_ofNat_of_lt (h : m < leastNormal) : (BitVec.ofNat 52 m).toNat = m :=
  Nat.mod_eq_of_lt h

/-- Below the normal doubles the stored exponent is zero. -/
theorem unpack_subnormal (hm : 0 < m) (hlt : m < leastNormal) :
    UnpackedFloat.unpack .binary64 (packComponents .binary64 s 0#11 (BitVec.ofNat 52 m)) =
      .finite s m leastExponent hm := by
  have hne : BitVec.ofNat 52 m ≠ 0#52 := fun h => by
    have h := congrArg BitVec.toNat h
    rw [toNat_ofNat_of_lt hlt] at h
    exact hm.ne' h
  have hone : (0#11 : BitVec 11) ≠ -1#11 := by decide
  simp only [UnpackedFloat.unpack, unpackExponent_packComponents, unpackMantissa_packComponents,
    unpackSign_packComponents, Sign.ofBitVec_toBitVec, if_neg hone, dif_neg hne, if_true,
    toNat_ofNat_of_lt hlt]
  rfl

theorem unpack_normal (hm : 0 < m) (hle : leastNormal ≤ m) (hlt : m < 2 * leastNormal)
    (hk : 0 < k) (hkle : k < 2047) :
    UnpackedFloat.unpack .binary64
        (packComponents .binary64 s (BitVec.ofNat 11 k) (BitVec.ofNat 52 m)) =
      .finite s m (k - 1075) hm := by
  have hnat : (BitVec.ofNat 11 k).toNat = k := by
    rw [BitVec.toNat_ofNat, Nat.mod_eq_of_lt (by omega)]
  have hne : BitVec.ofNat 11 k ≠ 0#11 := fun h => by
    have h := congrArg BitVec.toNat h
    rw [hnat] at h
    exact hk.ne' h
  have hone : BitVec.ofNat 11 k ≠ -1#11 := fun h => by
    have h := congrArg BitVec.toNat h
    rw [hnat] at h
    exact hkle.ne h
  have hbits : leastNormal + (BitVec.ofNat 52 m).toNat = m := by
    rw [BitVec.toNat_ofNat]
    have hnormal : leastNormal = 2 ^ 52 := rfl
    omega
  simp only [UnpackedFloat.unpack, unpackExponent_packComponents, unpackMantissa_packComponents,
    unpackSign_packComponents, Sign.ofBitVec_toBitVec, if_neg hone, if_neg hne, hnat,
    toNat_one_append, hbits]
  rfl

/-- What is stored is what is read. -/
theorem unpack_pack (h : IsDouble m q) :
    unpack (.ofModel (.pack (ofParts s m q))) = ofParts s m q := by
  have hlt := h.lt
  have hleast := h.least
  have hgreatest := h.greatest
  simp only [greatestExponent, leastExponent] at hgreatest hleast
  change UnpackedFloat.unpack .binary64 (UnpackedFloat.pack .binary64 (ofParts s m q)) = _
  unfold ofParts
  split_ifs with hm
  · exact unpack_packedZero
  · have hbias : q + Format.binary64.exponentBias + Format.binary64.mantissaBitsWithoutImplicit =
        q + 1075 := by
      norm_num [Format.exponentBias, add_assoc]
    have hsmall : ¬ 2 ^ Format.binary64.exponentBits ≤ (q + 1075).toNat + 1 := by
      norm_num
      omega
    have hlog : m.log2 + 1 = Format.binary64.mantissaBits ↔ leastNormal ≤ m := by
      have hbits : Format.binary64.mantissaBits = 52 + 1 := rfl
      rw [hbits, Nat.add_right_cancel_iff, Nat.log2_eq_iff hm]
      exact ⟨And.left, fun h => ⟨h, hlt⟩⟩
    simp only [UnpackedFloat.pack, hbias, if_neg hsmall, hlog]
    split_ifs with hnormal
    · rw [unpack_normal (Nat.pos_of_ne_zero hm) hnormal h.lt (by omega) (by omega)]
      congr 1
      omega
    · obtain rfl := h.normal.resolve_right hnormal
      exact unpack_subnormal (Nat.pos_of_ne_zero hm) (by omega)

theorem isDouble_of_unpack {hm : 0 < m} (h : unpack x = .finite s m q hm) : IsDouble m q := by
  have h : UnpackedFloat.unpack .binary64 x.toModel.toBits.toBitVec = .finite s m q hm := h
  have hbias : ((Format.binary64.exponentBias : ℤ) + Format.binary64.mantissaBitsWithoutImplicit) =
      1075 := by norm_num [Format.exponentBias]
  have hb : (@unpackMantissa .binary64 x.toModel.toBits.toBitVec).toNat < leastNormal :=
    BitVec.isLt _
  have hc : (@unpackExponent .binary64 x.toModel.toBits.toBitVec).toNat < 2048 := BitVec.isLt _
  simp only [UnpackedFloat.unpack, hbias] at h
  split_ifs at h with hone hinfinite hzero hnothing
  · obtain ⟨-, rfl, rfl⟩ := UnpackedFloat.finite.inj h
    rw [hzero]
    exact ⟨by omega, by decide, by decide, .inl (by decide)⟩
  · obtain ⟨-, rfl, rfl⟩ := UnpackedFloat.finite.inj h
    have hpos : (@unpackExponent .binary64 x.toModel.toBits.toBitVec).toNat ≠ 0 :=
      fun h => hzero (BitVec.eq_of_toNat_eq h)
    have hfinite : (@unpackExponent .binary64 x.toModel.toBits.toBitVec).toNat ≠ 2047 :=
      fun h => hone (BitVec.eq_of_toNat_eq h)
    rw [toNat_one_append]
    refine ⟨?_, ?_, ?_, .inr (Nat.le_add_right ..)⟩
    · exact Nat.two_mul leastNormal ▸ Nat.add_lt_add_left hb _
    · rw [leastExponent]
      omega
    · rw [greatestExponent]
      omega

theorem isDouble_of_isRounded (h : IsRounded m q v) (hq : q ≤ greatestExponent) : IsDouble m q :=
  ⟨h.lt, h.le, hq, or_iff_not_imp_left.mpr fun hne =>
    h.leastNormal_le (lt_of_le_of_ne h.le (Ne.symm hne))⟩

/-- From this number on there are no doubles that numbers are rounded to. -/
def overflow : ℚ := (2 * leastNormal - 1 / 2) * 2 ^ greatestExponent

theorem exponent_le_of_lt_overflow (h : IsRounded m q v) (hv : v < overflow) :
    q ≤ greatestExponent := by
  by_contra! hlt
  have hnormal := h.normal.resolve_left fun hq => absurd hlt (by rw [hq]; decide)
  rw [le_div_iff₀ (by positivity)] at hnormal
  have hpow : (2 : ℚ) ^ (greatestExponent + 1) ≤ 2 ^ q :=
    zpow_le_zpow_right₀ one_le_two (by omega)
  rw [zpow_add_one₀ two_ne_zero] at hpow
  rw [overflow] at hv
  have := cast_leastNormal
  nlinarith

theorem overflow_eq_cast : overflow = ((4 * leastNormal - 1) * 2 ^ 970 : ℕ) := by
  have hpow : (2 : ℚ) ^ greatestExponent = 2 * 2 ^ 970 := by
    rw [← pow_succ']
    exact zpow_natCast 2 971
  have hcast : ((4 * leastNormal - 1 : ℕ) : ℚ) = 4 * leastNormal - 1 := by
    rw [Nat.cast_sub (by decide)]
    push_cast
    rfl
  rw [overflow, hpow, Nat.cast_mul, hcast, Nat.cast_pow, Nat.cast_ofNat, ← mul_assoc]
  congr 1
  ring

theorem powerOfTen_lt_overflow (hk : k ≤ 308) : (10 : ℚ) ^ k < overflow := by
  have hgreatest : (10 : ℚ) ^ 308 < overflow := by
    have hnat : 10 ^ 308 < (4 * leastNormal - 1) * 2 ^ 970 := by decide +kernel
    rw [overflow_eq_cast]
    exact_mod_cast hnat
  exact lt_of_le_of_lt (pow_le_pow_right₀ (by norm_num) hk) hgreatest

theorem overflow_lt_powerOfTen : overflow < 10 ^ 309 := by
  have hnat : (4 * leastNormal - 1) * 2 ^ 970 < 10 ^ 309 := by decide +kernel
  rw [overflow_eq_cast]
  exact_mod_cast hnat

/-! ## Numbers and doubles -/

/-- A positive double is a number. -/
def Denotes (x : Float) (v : ℚ) : Prop :=
  ∃ m q hm, unpack x = .finite .positive m q hm ∧ (m * 2 ^ q : ℚ) = v

/-- A number that is not negative is rounded to a double. Beyond the doubles it is infinity. -/
def RoundsTo (v : ℚ) (x : Float) : Prop :=
  ∃ m q, IsRounded m q v ∧ x = .ofModel (.pack (ofParts .positive m q))

theorem RoundsTo.unpack_eq (h : RoundsTo v x) (hr : IsRounded m q v) (hq : q ≤ greatestExponent) :
    unpack x = ofParts .positive m q := by
  obtain ⟨n, e, hn, rfl⟩ := h
  obtain ⟨rfl, rfl⟩ := hr.unique hn
  exact unpack_pack (isDouble_of_isRounded hr hq)

theorem ofParts_of_pos (hm : 0 < m) : ofParts s m q = .finite s m q hm := dif_neg hm.ne'

theorem Denotes.pos (h : Denotes x v) : 0 < v := by
  obtain ⟨m, q, hm, -, rfl⟩ := h
  have hm : (0 : ℚ) < m := by exact_mod_cast hm
  positivity

theorem isInf_of_unpack (h : unpack x = ofParts s m q) : x.isInf = false := by
  have hinf : x.isInf = (unpack x).isInf := rfl
  rw [hinf, h]
  unfold ofParts
  split_ifs <;> rfl

/-- A number that is a double is rounded to that. -/
theorem RoundsTo.denotes (h : RoundsTo (m * 2 ^ e) x) (hm : 0 < m) (hle : m ≤ 2 * leastNormal)
    (he : leastExponent ≤ e) (hv : m * 2 ^ e < overflow) : Denotes x (m * 2 ^ e) := by
  obtain ⟨n, q, hn, rfl⟩ := h
  have heq := hn.eq_of_exact hle he
  have hpos : 0 < n := by
    refine Nat.pos_of_ne_zero ?_
    rintro rfl
    have hzero : (0 : ℚ) < m * 2 ^ e := by
      have hm : (0 : ℚ) < m := by exact_mod_cast hm
      positivity
    rw [Nat.cast_zero, zero_mul] at heq
    exact hzero.ne heq
  refine ⟨n, q, hpos, ?_, heq⟩
  rw [unpack_pack (isDouble_of_isRounded hn (exponent_le_of_lt_overflow hn hv)),
    ofParts_of_pos hpos]

/-- What a number is rounded to, as long as it is not beyond the doubles. -/
theorem RoundsTo.exists_isRounded (h : RoundsTo v x) (hv : v < overflow) :
    ∃ m q, IsRounded m q v ∧ IsDouble m q ∧ unpack x = ofParts .positive m q := by
  obtain ⟨m, q, hr, rfl⟩ := h
  have hdouble := isDouble_of_isRounded hr (exponent_le_of_lt_overflow hr hv)
  exact ⟨m, q, hr, hdouble, unpack_pack hdouble⟩

theorem isFinite_of_unpack (h : unpack x = ofParts s m q) : x.isFinite = true := by
  have hfinite : x.isFinite = (unpack x).isFinite := rfl
  rw [hfinite, h]
  unfold ofParts
  split_ifs <;> rfl

theorem RoundsTo.isInf_eq_false (h : RoundsTo v x) (hv : v < overflow) : x.isInf = false :=
  have ⟨_, _, _, _, hx⟩ := h.exists_isRounded hv
  isInf_of_unpack hx

theorem pos_of_abs_sub_le (h : |m * 2 ^ q - v| ≤ v * roundoff + 2 ^ (leastExponent - 1))
    (hv : 2 ^ leastExponent ≤ v) : 0 < m := by
  refine Nat.pos_of_ne_zero ?_
  rintro rfl
  have hleast : (0 : ℚ) < 2 ^ leastExponent := by positivity
  rw [roundoff_eq, zpow_sub_one₀ two_ne_zero, Nat.cast_zero, zero_mul, zero_sub, abs_neg,
    abs_of_pos (by linarith)] at h
  linarith

/-- A number that is not below the doubles is rounded to a positive double. -/
theorem RoundsTo.exists_denotes (h : RoundsTo v x) (hv : v < overflow)
    (hle : 2 ^ leastExponent ≤ v) :
    ∃ w, Denotes x w ∧ |w - v| ≤ v * roundoff + 2 ^ (leastExponent - 1) := by
  obtain ⟨m, q, hr, -, hx⟩ := h.exists_isRounded hv
  have hleast : (0 : ℚ) < 2 ^ leastExponent := by positivity
  have herror := hr.abs_sub_le (by linarith)
  have hpos := pos_of_abs_sub_le herror hle
  exact ⟨m * 2 ^ q, ⟨m, q, hpos, hx.trans (ofParts_of_pos hpos), rfl⟩, herror⟩

theorem RoundsTo.exists_denotes_of_one_le (h : RoundsTo v x) (hv : v < overflow) (hone : 1 ≤ v) :
    ∃ w, Denotes x w ∧ |w - v| ≤ v * roundoff := by
  obtain ⟨m, q, hr, -, hx⟩ := h.exists_isRounded hv
  have hleast : (0 : ℚ) < 2 ^ (leastExponent - 1) := by positivity
  have herror := hr.abs_sub_le_of_one_le hone
  have hpos := pos_of_abs_sub_le (by linarith) (le_trans (zpow_le_one_of_nonpos₀ one_le_two (by decide)) hone)
  exact ⟨m * 2 ^ q, ⟨m, q, hpos, hx.trans (ofParts_of_pos hpos), rfl⟩, herror⟩

/-- What is computed exactly, up to the accuracy of a significand, is rounded. -/
theorem roundsTo_of_stands (hs : Stands (.ofMantissaAndAccuracy m a) y)
    (he : e ≤ leastExponent ∨ leastNormal ≤ m) (hv : v = y * 2 ^ e) :
    RoundsTo v (.ofModel (.pack (roundWithAccuracy .binary64 .positive m e a))) := by
  subst hv
  obtain ⟨n, q, hn, hround⟩ := Double.exists_isRounded (s := .positive) hs he
  exact ⟨n, q, hn, by rw [hround]⟩

/-! ## Products and quotients -/

theorem stands_exact (m : ℕ) : Stands (.ofMantissaAndAccuracy m .exact) m := by
  simp [Stands, known, ExtendedMantissa.ofMantissaAndAccuracy]

/-- The remainder of a division tells how accurate the whole quotient is. -/
theorem stands_div (m : ℕ) (hn : 0 < n) :
    Stands (.ofMantissaAndAccuracy (m / n) (accuracyOfFraction (m % n) n)) (m / n : ℚ) := by
  have hpos : (0 : ℚ) < n := by exact_mod_cast hn
  have hsum : (m / n : ℚ) = (m / n : ℕ) + (m % n : ℕ) / n := by
    have hnat : ((m / n : ℕ) : ℚ) * n + (m % n : ℕ) = m := by exact_mod_cast Nat.div_add_mod' m n
    field_simp
    linarith
  have hlt : ((m % n : ℕ) : ℚ) / n < 1 := by
    rw [div_lt_one hpos]
    exact_mod_cast Nat.mod_lt m hn
  rw [hsum]
  unfold accuracyOfFraction
  split_ifs with hzero
  · simp [hzero, Stands, known, ExtendedMantissa.ofMantissaAndAccuracy]
  · have hrest : (0 : ℚ) < (m % n : ℕ) / n := by
      have hrest : (0 : ℚ) < (m % n : ℕ) := by exact_mod_cast Nat.pos_of_ne_zero hzero
      positivity
    rcases lt_trichotomy (2 * (m % n)) n with hcmp | hcmp | hcmp
    · have hhalf : ((m % n : ℕ) : ℚ) / n < 1 / 2 := by
        rw [div_lt_div_iff₀ hpos two_pos]
        exact_mod_cast (by omega : m % n * 2 < 1 * n)
      rw [Nat.compare_eq_lt.mpr hcmp]
      simp only [Stands, known, ExtendedMantissa.ofMantissaAndAccuracy, cond_false, if_true]
      constructor <;> linarith
    · have hhalf : ((m % n : ℕ) : ℚ) / n = 1 / 2 := by
        rw [div_eq_div_iff hpos.ne' two_ne_zero]
        exact_mod_cast (by omega : m % n * 2 = 1 * n)
      rw [Nat.compare_eq_eq.mpr hcmp]
      simp [Stands, known, ExtendedMantissa.ofMantissaAndAccuracy, hhalf]
    · have hhalf : (1 : ℚ) / 2 < (m % n : ℕ) / n := by
        rw [div_lt_div_iff₀ two_pos hpos]
        exact_mod_cast (by omega : 1 * n < m % n * 2)
      rw [Nat.compare_eq_gt.mpr hcmp]
      simp only [Stands, known, ExtendedMantissa.ofMantissaAndAccuracy, cond_true, if_true]
      constructor <;> linarith

theorem Denotes.mul {x y : Float} (hx : Denotes x v) (hy : Denotes y w) :
    RoundsTo (v * w) (x * y) := by
  obtain ⟨m, e, hm, hx, rfl⟩ := hx
  obtain ⟨n, f, hn, hy, rfl⟩ := hy
  have hprod : x * y = .ofModel (.pack (UnpackedFloat.mul .binary64 (unpack x) (unpack y))) := rfl
  have hnormal : e + f ≤ leastExponent ∨ leastNormal ≤ m * n := by
    rcases (isDouble_of_unpack hx).normal with rfl | hm'
    · rcases (isDouble_of_unpack hy).normal with rfl | hn'
      · exact .inl (by decide)
      · exact .inr (hn'.trans (Nat.le_mul_of_pos_left n hm))
    · exact .inr (hm'.trans (Nat.le_mul_of_pos_right m hn))
  rw [hprod, hx, hy, UnpackedFloat.mul]
  refine roundsTo_of_stands (stands_exact _) hnormal ?_
  rw [zpow_add₀ two_ne_zero]
  push_cast
  ring

/-- A quotient is computed far enough to fill a significand. -/
theorem divCore_cases (hm : 0 < m) (hn : 0 < n) (e f : ℤ) : ∃ j : ℕ, ∃ c : ℤ, c + j = e - f ∧
    (c ≤ leastExponent ∨ leastNormal ≤ m * 2 ^ j / n) ∧
    divCore .binary64 m e n f =
      (m * 2 ^ j / n, c, accuracyOfFraction (m * 2 ^ j % n) n) := by
  set c := min (e - f) (max (m.log2 + 1 + e - (n.log2 + 1 + f) - 53) leastExponent) with hc
  refine ⟨(e - f - c).toNat, c, by omega, ?_, ?_⟩
  · refine or_iff_not_imp_left.mpr fun hle => ?_
    have hbits : leastNormal = 2 ^ 52 := rfl
    rw [Nat.le_div_iff_mul_le hn]
    calc leastNormal * n ≤ 2 ^ 52 * 2 ^ (n.log2 + 1) :=
          Nat.mul_le_mul (le_of_eq hbits) Nat.lt_log2_self.le
      _ = 2 ^ (52 + (n.log2 + 1)) := (pow_add ..).symm
      _ ≤ 2 ^ (m.log2 + (e - f - c).toNat) := Nat.pow_le_pow_right two_pos (by omega)
      _ = 2 ^ m.log2 * 2 ^ (e - f - c).toNat := pow_add ..
      _ ≤ m * 2 ^ (e - f - c).toNat := Nat.mul_le_mul_right _ (Nat.log2_self_le hm.ne')
  · rw [← Nat.shiftLeft_eq]
    rfl

theorem Denotes.div {x y : Float} (hx : Denotes x v) (hy : Denotes y w) :
    RoundsTo (v / w) (x / y) := by
  obtain ⟨m, e, hm, hx, rfl⟩ := hx
  obtain ⟨n, f, hn, hy, rfl⟩ := hy
  have hquot : x / y = .ofModel (.pack (UnpackedFloat.div .binary64 (unpack x) (unpack y))) := rfl
  obtain ⟨j, c, hcj, hnormal, hcore⟩ := divCore_cases hm hn e f
  rw [hquot, hx, hy, UnpackedFloat.div, hcore]
  refine roundsTo_of_stands (stands_div _ hn) hnormal ?_
  have hef : e = c + j + f := by omega
  rw [hef, zpow_add₀ two_ne_zero, zpow_add₀ two_ne_zero, zpow_natCast]
  push_cast
  field_simp

/-! ## Whole numbers -/

/-- Bits are shifted in to fill a significand, and then it is rounded. -/
theorem roundsTo_round (hm : 0 < m) (hv : v = m * 2 ^ e) :
    RoundsTo v (.ofModel (.pack (round .binary64 .positive m e))) := by
  set t := max (m.log2 + 1 + e - 53) leastExponent with ht
  have hround : round .binary64 .positive m e =
      roundWithAccuracy .binary64 .positive (m <<< (e - t).toNat) (e - (e - t).toNat) .exact := rfl
  rw [hround]
  refine roundsTo_of_stands (stands_exact _) (or_iff_not_imp_left.mpr fun hne => ?_) ?_
  · calc leastNormal = 2 ^ 52 := rfl
      _ ≤ 2 ^ (m.log2 + (e - t).toNat) := Nat.pow_le_pow_right two_pos (by omega)
      _ = 2 ^ m.log2 * 2 ^ (e - t).toNat := pow_add ..
      _ ≤ m * 2 ^ (e - t).toNat := Nat.mul_le_mul_right _ (Nat.log2_self_le hm.ne')
      _ = m <<< (e - t).toNat := (Nat.shiftLeft_eq ..).symm
  · rw [hv, Nat.shiftLeft_eq, zpow_sub₀ two_ne_zero, zpow_natCast]
    push_cast
    field_simp

theorem roundsTo_toFloat (hm : 0 < m) (hlt : m < UInt64.size) :
    RoundsTo m m.toUInt64.toFloat := by
  have hword : m.toUInt64.toFloat =
      .ofModel (.pack (UnpackedFloat.normalize .binary64 (m.toUInt64.toNat : ℤ) 0 .positive)) := rfl
  have hnat : m.toUInt64.toNat = m := Nat.mod_eq_of_lt hlt
  have hcompare : compare (m : ℤ) 0 = .gt := compare_gt_iff_gt.mpr (by exact_mod_cast hm)
  rw [hword, hnat, UnpackedFloat.normalize, hcompare]
  exact roundsTo_round hm (by rw [zpow_zero, mul_one, Int.toNat_natCast])

theorem word_lt_overflow (h : m < UInt64.size) : (m : ℚ) < overflow := by
  have hten : m ≤ 10 ^ 20 := h.le.trans (by decide)
  exact lt_of_le_of_lt (by exact_mod_cast hten) (powerOfTen_lt_overflow (k := 20) (by decide))

theorem roundsTo_powerOfTen (hk : k ≤ 308) : RoundsTo (10 ^ k) (.ofScientific 1 false k) := by
  -- the first powers are taken from a table
  have hslow : Float.ofScientific 1 false k = .ofModel (.ofScientific 1 k) := by
    rcases Nat.lt_or_ge k 23 with hlt | hge
    · have hall : ∀ j < 23, Float.ofScientific 1 false j = .ofModel (.ofScientific 1 j) := by
        decide +kernel
      exact hall k hlt
    · rw [Float.ofScientific, dif_neg (by omega)]
      rfl
  have hmodel : UnpackedFloat.ofScientific .binary64 1 k =
      roundWithAccuracy .binary64 .positive (1 <<< 53 * 10 ^ k) (-53) .exact := by
    rw [UnpackedFloat.ofScientific, dif_neg (by decide), if_neg (by norm_num; omega),
      if_neg (by norm_num; omega), if_pos (by omega)]
    rfl
  have hnormal : leastNormal ≤ 1 <<< 53 * 10 ^ k :=
    le_trans (by decide) (Nat.le_mul_of_pos_right (1 <<< 53) (by positivity))
  rw [hslow, Float.Model.ofScientific, hmodel]
  refine roundsTo_of_stands (stands_exact _) (.inr hnormal) ?_
  rw [Nat.shiftLeft_eq, zpow_neg, mul_comm]
  push_cast
  norm_num
  field_simp

end Reckoner.Double
