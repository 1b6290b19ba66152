import Reckoner.Json.Number
import Reckoner.Proofs.Decimal.Shortest
import Reckoner.Proofs.Json.Scalar

/-!
# The numerals of doubles

A numeral that is written for a double has digits where there are to be some and no leading
zeros, and it writes the number that its shortest decimal is. A reader that takes one word
of digits reads that number too, unless the digits go beyond the word.

* `Numeral.isWellFormed_ofFloat?`: the numerals of doubles are well formed;
* `Numeral.decimal`: the decimal that a numeral writes, all its digits taken;
* `Numeral.value_decimal_ofDecimal`: a decimal is written as it is, in every style;
* `Numeral.significand_ofDecimal_lt`: a decimal of eighteen digits is written with no more;
* `Numeral.toWord_eq_decimal`: then a word takes all the digits.
-/

namespace Reckoner

namespace Numeral

variable {style : Style} {negative : Bool} {digits ds : List Char} {point power : ℤ} {x : Float}
  {n : Numeral} {d : Decimal} {k : ℕ}

/-! ## Well-formed numerals -/

theorem areDigits_toDigits (k : ℕ) : AreDigits (Nat.toDigits 10 k) :=
  ⟨Nat.toDigits_ne_nil, fun _ hc => Nat.isDigit_of_mem_toDigits (by decide) (by decide) hc⟩

/-- A positive number is written without leading zeros. -/
theorem head?_toDigits (hk : 0 < k) : (Nat.toDigits 10 k).head? ≠ some '0' := by
  induction k using Nat.strong_induction_on with
  | _ k ih =>
    rcases Nat.lt_or_ge k 10 with hlt | hge
    · have hone : ∀ j < 10, 0 < j → j.digitChar ≠ '0' := by decide
      rw [Nat.toDigits_of_lt_base hlt, List.head?_cons, ne_eq, Option.some.injEq]
      exact hone k hlt hk
    · have hrest := ih (k / 10) (by omega) (by omega)
      rw [Nat.toDigits_of_base_le (by decide) hge, List.head?_append]
      cases hhead : (Nat.toDigits 10 (k / 10)).head? with
      | none => exact absurd (List.head?_eq_none_iff.mp hhead) Nat.toDigits_ne_nil
      | some c => rwa [hhead] at hrest

theorem isDigit_zeros (k : ℕ) : ∀ c ∈ zeros k, c.isDigit = true := by
  intro c hc
  rw [List.eq_of_mem_replicate hc]
  rfl

theorem areDigits_zero : AreDigits ['0'] := ⟨by decide, List.forall_mem_singleton.mpr rfl⟩

/-- The first digits and the others, where there are both. -/
theorem areDigits_take_drop (hd : AreDigits digits) {i : ℕ} (hi : 0 < i) (hlt : i < digits.length) :
    AreDigits (digits.take i) ∧ AreDigits (digits.drop i) := by
  refine ⟨⟨?_, fun c hc => hd.2 c (List.mem_of_mem_take hc)⟩,
    ?_, fun c hc => hd.2 c (List.mem_of_mem_drop hc)⟩
  · rw [← List.length_pos_iff, List.length_take]
    omega
  · rw [← List.length_pos_iff, List.length_drop]
    omega

/-- Digits are written well if they begin with no zero, or are one zero. -/
theorem isWellFormed_plain (hd : AreDigits digits)
    (hz : digits.head? ≠ some '0' ∨ digits = ['0'] ∧ point = 1) :
    (plain style negative digits point).IsWellFormed := by
  rw [plain]
  split
  · -- a whole number, with zeros up to the point
    refine ⟨⟨by simp [hd.1], List.forall_mem_append.mpr ⟨hd.2, isDigit_zeros _⟩⟩, ?_, ?_, by simp⟩
    · rcases hz with hz | ⟨rfl, rfl⟩
      · exact .inr (by rwa [List.head?_append_of_ne_nil _ hd.1])
      · exact .inl rfl
    · intro ds hds
      split_ifs at hds
      · obtain rfl : ['0'] = ds := by simpa using hds
        exact areDigits_zero
      · cases hds
  · rename_i hlt
    split
    · -- the point is among the digits
      rename_i hpos
      obtain ⟨htake, hdrop⟩ := areDigits_take_drop hd (i := point.toNat) (by omega) (by omega)
      refine ⟨htake, .inr ?_, by simpa using hdrop, by simp⟩
      rcases hz with hz | ⟨rfl, rfl⟩
      · rwa [List.head?_take, if_neg (by omega)]
      · simp at hlt
    · -- the point is before the digits
      refine ⟨areDigits_zero, .inl rfl, ?_, by simp⟩
      simpa using ⟨by simp [hd.1], List.forall_mem_append.mpr ⟨isDigit_zeros _, hd.2⟩⟩

/-- Digits are written well with an exponent if they begin with no zero. -/
theorem isWellFormed_scientific (hd : AreDigits digits) (hz : digits.head? ≠ some '0') :
    (scientific negative digits power).IsWellFormed := by
  simp only [scientific]
  refine ⟨⟨by simp [hd.1], fun e he => hd.2 e (List.mem_of_mem_take he)⟩, .inr ?_,
    fun ds hds => ?_, by simpa using areDigits_toDigits power.natAbs⟩
  · rwa [List.head?_take, if_neg Nat.one_ne_zero]
  · have hfraction : (if digits.length ≤ 1 then none else some (digits.drop 1)) = some ds := hds
    split_ifs at hfraction with hlen
    obtain rfl := Option.some.inj hfraction
    exact (areDigits_take_drop hd Nat.one_pos (by omega)).2

theorem isWellFormed_ofDecimal (hd : 0 < d.significand) :
    (ofDecimal style negative d).IsWellFormed := by
  have hz := head?_toDigits hd
  simp only [ofDecimal]
  split
  · exact isWellFormed_plain (areDigits_toDigits _) (.inl hz)
  · exact isWellFormed_scientific (areDigits_toDigits _) hz

/-- The numerals of doubles are well formed. -/
theorem isWellFormed_ofFloat? (h : ofFloat? style x = some n) : n.IsWellFormed := by
  unfold ofFloat? at h
  split at h
  · obtain rfl := Option.some.inj h
    exact isWellFormed_plain areDigits_zero (.inr ⟨rfl, rfl⟩)
  · rename_i hm _
    obtain ⟨d, hd, rfl⟩ := Option.map_eq_some_iff.mp h
    exact isWellFormed_ofDecimal (Decimal.significand_pos_of_shortest? hm hd)
  · cases h
  · cases h

/-! ## What is written -/

/-- The decimal that a numeral writes, all its digits taken and its sign left out. -/
def decimal (n : Numeral) : Decimal :=
  let fraction := n.fraction.getD []
  ⟨Nat.ofDigitChars 10 (n.whole ++ fraction) 0,
    (n.exponent.map Exponent.value).getD 0 - fraction.length⟩

theorem ofDigitChars_zeros (k init : ℕ) : Nat.ofDigitChars 10 (zeros k) init = 10 ^ k * init :=
  Nat.ofDigitChars_replicate_zero

theorem value_decimal_plain (style : Style) (negative : Bool) (digits : List Char) (point : ℤ) :
    (plain style negative digits point).decimal.value =
      Nat.ofDigitChars 10 digits 0 * 10 ^ (point - digits.length) := by
  rw [plain]
  split
  · -- the zeros up to the point, and the one behind it, are powers of ten
    rename_i hle
    have hzeros : 10 ^ (point.toNat - digits.length) = (10 : ℚ) ^ (point - digits.length) := by
      rw [← zpow_natCast]
      congr 1
      omega
    simp only [decimal, Decimal.value, Nat.ofDigitChars_append, ofDigitChars_zeros]
    cases style.keepsPoint with
    | false => simp [mul_comm, hzeros]
    | true =>
      simp [Nat.ofDigitChars_cons, hzeros]
      ring
  · rename_i hlt
    split
    · have hlength : (digits.length - point.toNat : ℕ) = digits.length - point := by omega
      simp only [decimal, Decimal.value, Option.getD_some, Option.map_none, Option.getD_none,
        List.take_append_drop, List.length_drop, hlength]
      congr 2
      omega
    · simp only [decimal, Decimal.value, Option.getD_some, Option.map_none, Option.getD_none,
        Nat.ofDigitChars_append, ofDigitChars_zeros, List.length_append]
      have hzero : Nat.ofDigitChars 10 ['0'] 0 = 0 := rfl
      rw [hzero, Nat.mul_zero]
      congr 2
      simp only [zeros, List.length_replicate]
      omega

theorem value_exponent (power : ℤ) :
    Exponent.value ⟨if power < 0 then .minus else .plus, Nat.toDigits 10 power.natAbs⟩ = power := by
  simp only [Exponent.value, Nat.ofDigitChars_ten_toDigits]
  by_cases hneg : power < 0
  · simp only [if_pos hneg, if_true]
    omega
  · simp only [if_neg hneg, reduceCtorEq, if_false]
    omega

theorem value_decimal_scientific (negative : Bool) (hd : digits ≠ []) (power : ℤ) :
    (scientific negative digits power).decimal.value =
      Nat.ofDigitChars 10 digits 0 * 10 ^ (power - (digits.length - 1)) := by
  have hpos := List.length_pos_iff.mpr hd
  simp only [scientific, decimal, Decimal.value, Option.map_some, Option.getD_some, value_exponent]
  split_ifs with hlen
  · have hone : digits.length = 1 := by omega
    rw [List.take_of_length_le hlen]
    simp [hone]
  · have hlength : ((digits.length - 1 : ℕ) : ℤ) = digits.length - 1 := by omega
    simp only [Option.getD_some, List.take_append_drop, List.length_drop, hlength]

/-- A decimal is written as it is. -/
theorem value_decimal_ofDecimal (style : Style) (negative : Bool) (d : Decimal) :
    (ofDecimal style negative d).decimal.value = d.value := by
  simp only [ofDecimal]
  split
  · rw [value_decimal_plain, Nat.ofDigitChars_ten_toDigits, Decimal.value]
    congr 2
    omega
  · rw [value_decimal_scientific _ Nat.toDigits_ne_nil, Nat.ofDigitChars_ten_toDigits,
      Decimal.value]
    congr 2
    omega

theorem negative_ofDecimal (style : Style) (negative : Bool) (d : Decimal) :
    (ofDecimal style negative d).negative = negative := by
  simp only [ofDecimal, plain, scientific]
  split_ifs <;> rfl

/-! ## One word of digits -/

theorem le_ofDigitChars (ds : List Char) (k : ℕ) : k ≤ Nat.ofDigitChars 10 ds k := by
  induction ds generalizing k with
  | nil => rw [Nat.ofDigitChars_nil]
  | cons c ds ih =>
    rw [Nat.ofDigitChars_cons]
    exact le_trans (by omega) (ih _)

/-- A word takes all the digits if their number fits into it. -/
theorem takeWord_eq (h : Nat.ofDigitChars 10 ds k < UInt64.size) :
    takeWord k ds = (Nat.ofDigitChars 10 ds k, []) := by
  induction ds generalizing k with
  | nil => rw [takeWord, Nat.ofDigitChars_nil]
  | cons c ds ih =>
    rw [Nat.ofDigitChars_cons] at h ⊢
    rw [takeWord, if_pos (lt_of_le_of_lt (le_ofDigitChars ds _) h), ih h]

theorem toWord_eq_decimal (h : n.decimal.significand < UInt64.size) : n.toWord = n.decimal := by
  simp only [decimal, Nat.ofDigitChars_append] at h
  have hwhole := takeWord_eq (lt_of_le_of_lt (le_ofDigitChars (n.fraction.getD []) _) h)
  have hword := takeWord_eq h
  simp only [toWord, decimal, hwhole, hword, Nat.ofDigitChars_append, List.length_nil, Nat.sub_zero,
    Nat.cast_zero]
  congr 1
  omega

/-- Zeros up to the point and one behind it are written in addition to the digits. -/
theorem significand_plain (style : Style) (negative : Bool) (digits : List Char) (point : ℤ) :
    ∃ k, (plain style negative digits point).decimal.significand =
        Nat.ofDigitChars 10 digits 0 * 10 ^ k ∧
      (k = 0 ∨ digits.length + k ≤ point.toNat + 1) := by
  rw [plain]
  split
  · refine ⟨point.toNat - digits.length + if style.keepsPoint then 1 else 0, ?_, .inr ?_⟩
    · simp only [decimal, Nat.ofDigitChars_append, ofDigitChars_zeros]
      cases style.keepsPoint with
      | false => simp [mul_comm]
      | true =>
        simp [Nat.ofDigitChars_cons]
        ring
    · split_ifs <;> omega
  · refine ⟨0, ?_, .inl rfl⟩
    split
    · simp [decimal]
    · simp [decimal, Nat.ofDigitChars_append, ofDigitChars_zeros, Nat.ofDigitChars_cons]

theorem significand_scientific (negative : Bool) (digits : List Char) (power : ℤ) :
    (scientific negative digits power).decimal.significand = Nat.ofDigitChars 10 digits 0 := by
  simp only [scientific, decimal]
  split_ifs with hlen
  · simp [List.take_of_length_le hlen]
  · rw [Option.getD_some, List.take_append_drop]

/-- A decimal of eighteen digits has no more of them when it is written. -/
theorem significand_ofDecimal_lt (negative : Bool) (hd : d.significand < 10 ^ 18) :
    (ofDecimal jsonStyle negative d).decimal.significand < 10 ^ 18 := by
  simp only [ofDecimal]
  split
  · rename_i hplain
    simp only [jsonStyle, Bool.and_eq_true, decide_eq_true_eq] at hplain
    obtain ⟨k, hk, hroom⟩ := significand_plain jsonStyle negative (Nat.toDigits 10 d.significand)
      (d.exponent + (Nat.toDigits 10 d.significand).length - 1 + 1)
    rw [hk, Nat.ofDigitChars_ten_toDigits]
    rcases hroom with rfl | hroom
    · rwa [pow_zero, mul_one]
    · have hlength := (Nat.length_toDigits_le_iff (by decide) Nat.length_toDigits_pos).mp
        (le_refl (Nat.toDigits 10 d.significand).length)
      calc d.significand * 10 ^ k
          < 10 ^ (Nat.toDigits 10 d.significand).length * 10 ^ k :=
            Nat.mul_lt_mul_of_pos_right hlength (by positivity)
        _ = 10 ^ ((Nat.toDigits 10 d.significand).length + k) := (pow_add ..).symm
        _ ≤ 10 ^ 18 := Nat.pow_le_pow_right (by decide) (by omega)
  · rwa [significand_scientific, Nat.ofDigitChars_ten_toDigits]

end Numeral

end Reckoner
