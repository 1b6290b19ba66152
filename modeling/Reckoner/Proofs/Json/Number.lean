import Reckoner.Proofs.Double.Arithmetic
import Reckoner.Proofs.Json.Numeral

/-!
# Doubles that are read back

The numeral of a double is read in steps that round: a conversion of its digits, the power of
ten, and their product or quotient. If the digits and the power of ten are doubles themselves,
only the last step rounds, and the double is read back as it is.

* `Numeral.isRounded_ofFloat?`: what the numeral of a double writes is rounded to the double;
* `Numeral.IsShort`: numerals whose digits and power of ten are doubles;
* `Numeral.value?_of_isShort`: these are read back as they are.
-/

namespace Reckoner

namespace Numeral

open Float.Model Float.Model.UnpackedFloat Double Rounding

variable {x y : Float} {n : Numeral} {s : UnpackedFloat.Sign} {v : ℚ} {m k word : ℕ} {q exponent : ℤ}

/-! ## Signs -/

theorem neg_ofParts (m : ℕ) (q : ℤ) : (ofParts .positive m q).neg = ofParts .negative m q := by
  unfold ofParts
  split_ifs <;> rfl

theorem unpack_withSign (h : IsDouble m q) (hy : unpack y = ofParts .positive m q)
    (s : UnpackedFloat.Sign) : unpack (withSign (s == .negative) y) = ofParts s m q := by
  cases s with
  | positive => exact hy
  | negative =>
    have hneg : -y = .ofModel (.pack (unpack y).neg) := rfl
    rw [← unpack_pack h, ← neg_ofParts, ← hy, ← hneg]
    rfl

/-! ## The numeral of a double -/

/-- What is written for a double is a number of eighteen digits that it is the nearest double
    of. -/
theorem isRounded_ofFloat? {hm : 0 < m} (hx : unpack x = .finite s m q hm)
    (h : ofFloat? jsonStyle x = some n) :
    n.negative = (s == .negative) ∧ 0 < n.decimal.significand ∧
      n.decimal.significand < 10 ^ 18 ∧ IsRounded m q n.decimal.value := by
  have hdouble := isDouble_of_unpack hx
  simp only [ofFloat?, hx, Option.map_eq_some_iff] at h
  obtain ⟨d, hd, rfl⟩ := h
  have hholds := Decimal.holds_of_shortest? hd
  rw [← value_decimal_ofDecimal jsonStyle (s == .negative) d] at hholds
  have hlt := Decimal.significand_lt_of_shortest? hm hdouble.lt hdouble.greatest hd
  refine ⟨negative_ofDecimal .., Nat.pos_of_ne_zero fun hzero => ?_,
    significand_ofDecimal_lt _ hlt,
    isRounded_of_holds hm hdouble.lt hdouble.least hdouble.normal hholds⟩
  have hpos := pos_of_holds hm hholds
  rw [Decimal.value, hzero, Nat.cast_zero, zero_mul] at hpos
  exact lt_irrefl 0 hpos

/-- All finite doubles have numerals. -/
theorem ofFloat?_eq_none {style : Style} : ofFloat? style x = none ↔ x.isFinite = false := by
  have hfinite : x.isFinite = (unpack x).isFinite := rfl
  unfold ofFloat?
  rw [hfinite]
  cases hx : unpack x with
  | finite s m q hm =>
    have hsome : (Decimal.shortest? style.tie m q).isSome = true :=
      Decimal.isSome_shortest? hm (isDouble_of_unpack hx).least
    simp [UnpackedFloat.isFinite, Option.ne_none_iff_isSome.mpr hsome]
  | zero | infinity | notANumber => simp [UnpackedFloat.isFinite]

/-- A zero is read back with its sign. -/
theorem value?_of_zero (hx : unpack x = .zero s) (h : ofFloat? jsonStyle x = some n) :
    n.value? = some x := by
  have hzero : ∀ s, (plain jsonStyle (s == .negative) ['0'] 1).value? =
      some (.ofModel (.pack (ofParts s 0 leastExponent))) := by
    rintro (_ | _) <;> decide +kernel
  have hstored : unpack (.ofModel (.pack (ofParts s 0 leastExponent))) =
      ofParts s 0 leastExponent := unpack_pack ⟨by decide, le_refl _, by decide, .inl rfl⟩
  simp only [ofFloat?, hx, Option.some.injEq] at h
  rw [← h, hzero, eq_of_unpack_eq (hstored.trans hx.symm)]

/-- Other doubles are read with all the digits of their numerals. -/
theorem value?_eq_scaled? (h : n.decimal.significand < 10 ^ 18) : n.value? =
    (scaled? n.decimal.significand n.decimal.exponent).map (withSign n.negative) := by
  rw [value?, toWord_eq_decimal (h.trans (by decide))]

/-! ## Digits and powers of ten that are doubles -/

/-- A numeral whose digits make a number of at most `2 ^ 53`, and whose power of ten is one of
    those that are doubles. -/
def IsShort (n : Numeral) : Prop :=
  n.decimal.significand ≤ 2 ^ 53 ∧ n.decimal.exponent.natAbs ≤ 22

instance (n : Numeral) : Decidable n.IsShort := inferInstanceAs (Decidable (_ ∧ _))

theorem denotes_toFloat (hpos : 0 < word) (hword : word ≤ 2 ^ 53) :
    Denotes word.toUInt64.toFloat word := by
  have hcast : (word : ℚ) = word * 2 ^ (0 : ℤ) := by rw [zpow_zero, mul_one]
  have hround := roundsTo_toFloat hpos (lt_of_le_of_lt hword (by decide))
  have hrange := word_lt_overflow (lt_of_le_of_lt hword (by decide))
  rw [hcast] at hround hrange ⊢
  exact hround.denotes hpos hword (by decide) hrange

theorem denotes_powerOfTen (hk : k ≤ 22) : Denotes (powerOfTen k) (10 ^ k) := by
  have hcast : (10 : ℚ) ^ k = (5 ^ k : ℕ) * 2 ^ (k : ℤ) := by
    rw [zpow_natCast]
    push_cast
    rw [← mul_pow]
    norm_num
  have hround := roundsTo_powerOfTen (hk.trans (by decide : 22 ≤ 308))
  have hrange := powerOfTen_lt_overflow (hk.trans (by decide : 22 ≤ 308))
  have hfive : 5 ^ k ≤ 2 * leastNormal :=
    (Nat.pow_le_pow_right (by decide) hk).trans (by decide)
  rw [hcast] at hround hrange ⊢
  refine hround.denotes (by positivity) hfive ?_ hrange
  rw [leastExponent]
  omega

theorem multiplyPower?_eq (hk : k ≤ greatestPower) (h : (x * powerOfTen k).isInf = false) :
    multiplyPower? x k = some (x * powerOfTen k) := by
  rw [multiplyPower?, if_pos hk]
  simp only [h, Bool.false_eq_true, if_false]

/-- With one rounding, the number is rounded to the nearest double. -/
theorem scaled?_of_isRounded (hpos : 0 < word) (hword : word ≤ 2 ^ 53)
    (hexponent : exponent.natAbs ≤ 22) (h : IsRounded m q (word * 10 ^ exponent))
    (hq : q ≤ greatestExponent) :
    ∃ y, scaled? word exponent = some y ∧ unpack y = ofParts .positive m q := by
  have hx := denotes_toFloat hpos hword
  cases exponent with
  | ofNat e =>
    have he : e ≤ 22 := hexponent
    have hunpack := (hx.mul (denotes_powerOfTen he)).unpack_eq h hq
    exact ⟨_, multiplyPower?_eq (he.trans (by decide)) (isInf_of_unpack hunpack), hunpack⟩
  | negSucc e =>
    have he : e + 1 ≤ 22 := hexponent
    have hquot : (word / 10 ^ (e + 1) : ℚ) = word * 10 ^ (Int.negSucc e) := by
      rw [zpow_negSucc]
      rfl
    have hunpack := (hquot ▸ hx.div (denotes_powerOfTen he)).unpack_eq h hq
    refine ⟨_, ?_, hunpack⟩
    rw [scaled?, dividePower, if_pos (he.trans (by decide))]

/-- What few digits are written for is read back as it is. -/
theorem value?_of_isShort (h : ofFloat? jsonStyle x = some n) (hn : n.IsShort) :
    n.value? = some x := by
  cases hx : unpack x with
  | finite s m q hm =>
    obtain ⟨hsign, hpos, hlt, hrounded⟩ := isRounded_ofFloat? hx h
    have hdouble := isDouble_of_unpack hx
    obtain ⟨y, hy, hparts⟩ := scaled?_of_isRounded hpos hn.1 hn.2 hrounded hdouble.greatest
    have hparts := (unpack_withSign hdouble hparts s).trans (ofParts_of_pos hm)
    rw [value?_eq_scaled? hlt, hy, Option.map_some, hsign]
    exact congrArg some (eq_of_unpack_eq (hparts.trans hx.symm))
  | zero s => exact value?_of_zero hx h
  | infinity | notANumber =>
    rw [ofFloat?, hx] at h
    cases h

end Numeral

end Reckoner
