import Reckoner.Proofs.Token.Value
import Reckoner.Proofs.Double.Arithmetic

/-!
# Texts with a value

    integer     ::= -? [0-9]+
    decimal     ::= -? [0-9]+ [.] [0-9]*
    binary      ::= -? 0b [01]+
    hexadecimal ::= -? 0x [0-9A-Fa-f]+
    power       ::= -? [0-9]+ ([.] [0-9]*)? ^ -? [0-9]+

A text has a value in a format if and only if the whole of it is one of these, whether it is
the text of a token or not. Digits of base two and sixteen must write a number below `2 ^ 64`.

* `Literal.IsNumeral`: the texts of the grammar;
* `Literal.signed?_eq_some_iff` and its neighbours: what each of the readers accepts;
* `Literal.Prefixed`: digits behind a prefix. Their value is the nearest double to the number
  that they write (`Literal.prefixed_eq_some_iff`, `Double.roundsTo_word`);
* `Literal.evaluate_numerals`: the values of all texts.
-/

namespace Reckoner

/-! ## The grammar -/

namespace Literal

/-- The prefix, the base and the digits of the formats that have a prefix. -/
inductive HasBase : Format → Char → Nat → (Char → Bool) → Prop
  | binary : HasBase .binary 'b' 2 Digit.isBinary
  | hexadecimal : HasBase .hexadecimal 'x' 16 Digit.isHex

/-- A text of digits behind a prefix, and perhaps a sign before that. -/
structure Prefixed (mark : Char) (isDigit : Char → Bool) (minus ds cs : List Char) : Prop where
  sign : minus = [] ∨ minus = ['-']
  digits : ∀ c ∈ ds, isDigit c = true
  text : cs = minus ++ '0' :: mark :: ds

/-- The texts of the format that have a value. -/
def IsNumeral (f : Format) (cs : List Char) : Prop :=
  match f with
  | .integer | .decimal => Spells f cs
  | .binary | .hexadecimal => ∃ mark base isDigit minus ds, HasBase f mark base isDigit ∧
      Prefixed mark isDigit minus ds cs ∧ ds ≠ [] ∧ Digit.value base ds < 2 ^ 64
  | .power => ∃ base exponent, cs = base ++ '^' :: exponent ∧
      (Spells .integer base ∨ Spells .decimal base) ∧ Spells .integer exponent

end Literal

/-! ## Numbers of digits -/

/-- Zeros before the digits do not count. -/
theorem Digit.value_zeros (base k : Nat) (ds : List Char) :
    value base (List.replicate k '0' ++ ds) = value base ds := by
  induction k with
  | zero => rfl
  | succ k ih =>
    have hzero : hexValue '0' = 0 := rfl
    rw [← ih, List.replicate_succ, List.cons_append, ← foldl_eq_value, ← foldl_eq_value,
      List.foldl_cons, hzero]
    rfl

/-- The double that a word is converted to is the nearest one. -/
theorem Double.roundsTo_word {n : Nat} (h : n < UInt64.size) : RoundsTo n n.toUInt64.toFloat := by
  rcases Nat.eq_zero_or_pos n with rfl | hn
  · have hzero : IsNearest 0 ((0 : ℕ) / 2 ^ Rounding.leastExponent) := by
      rw [Nat.cast_zero, zero_div]
      exact isNearest_cast 0
    exact ⟨0, Rounding.leastExponent, ⟨by decide, le_rfl, .inl rfl, hzero⟩, by decide +kernel⟩
  · exact roundsTo_toFloat hn h

namespace Literal

variable {f : Format} {cs ds minus : List Char} {read? : List Char → Option Float} {x y : Float}
  {d : Decimal} {mark : Char} {base n : Nat} {isDigit : Char → Bool}

/-! ## What the readers accept -/

/-- A sign is taken off, if no text without a sign begins with one. -/
theorem signed?_eq_some_iff (hminus : ∀ cs, read? ('-' :: cs) = none) :
    signed? read? cs = some x ↔ ∃ minus body y, (minus = [] ∨ minus = ['-']) ∧
      cs = minus ++ body ∧ read? body = some y ∧ x = withSign (minus = ['-']) y := by
  constructor
  · intro h
    by_cases hhead : cs.head? = some '-'
    · obtain ⟨body, rfl⟩ := List.head?_eq_some_iff.mp hhead
      obtain ⟨y, hy, rfl⟩ := Option.map_eq_some_iff.mp h
      exact ⟨['-'], body, y, .inr rfl, rfl, hy, rfl⟩
    · have hne : ∀ c ∈ cs.head?, c ≠ '-' := by
        rintro c hc rfl
        exact hhead hc
      rw [signed?, unsigned_of_head hne] at h
      obtain ⟨y, hy, rfl⟩ := Option.map_eq_some_iff.mp h
      exact ⟨[], cs, y, .inl rfl, rfl, hy, rfl⟩
  · rintro ⟨minus, body, y, hm, rfl, hy, rfl⟩
    rcases hm with rfl | rfl
    · have hne : ∀ c ∈ body.head?, c ≠ '-' := by
        rintro c hc rfl
        obtain ⟨rest, rfl⟩ := List.head?_eq_some_iff.mp hc
        rw [hminus] at hy
        cases hy
      rw [signed?, List.nil_append, unsigned_of_head hne]
      simp [hy]
    · rw [signed?, List.singleton_append, unsigned]
      simp [hy]

theorem isDigits_iff : isDigits isDigit ds = true ↔ ds ≠ [] ∧ ∀ c ∈ ds, isDigit c = true := by
  simp [isDigits]

theorem bare_of_whole? (h : whole? cs = some d) : Bare .integer cs := by
  unfold whole? at h
  split_ifs at h with hd
  obtain ⟨hne, hd⟩ := isDigits_iff.mp hd
  exact .integer hne hd

theorem bare_of_pointed? (h : pointed? cs = some d) : Bare .decimal cs := by
  have htext : cs.takeWhile Char.isDigit ++ cs.dropWhile Char.isDigit = cs :=
    List.takeWhile_append_dropWhile
  unfold pointed? at h
  dsimp only at h
  split at h
  · rename_i fraction hrest
    split_ifs at h with hd
    simp only [Bool.and_eq_true, Bool.not_eq_true', List.isEmpty_eq_false_iff,
      List.all_eq_true] at hd
    rw [hrest] at htext
    rw [← htext]
    exact .decimal (.integer hd.1 fun c hc => List.mem_takeWhile_imp hc) hd.2
  · cases h

theorem map_whole?_minus (cs : List Char) :
    (whole? ('-' :: cs)).map Decimal.toFloat = none := by
  have hminus : Char.isDigit '-' = false := rfl
  simp [whole?, isDigits, hminus]

theorem map_pointed?_minus (cs : List Char) :
    (pointed? ('-' :: cs)).map Decimal.toFloat = none := by
  have hminus : Char.isDigit '-' = false := rfl
  simp [pointed?, hminus]

/-- The integers are the texts that are spelled as such. -/
theorem isSome_integer?_iff : (∃ x, integer? cs = some x) ↔ Spells .integer cs := by
  constructor
  · rintro ⟨x, hx⟩
    obtain ⟨minus, body, y, hm, rfl, hy, -⟩ := (signed?_eq_some_iff map_whole?_minus).mp hx
    obtain ⟨d, hd, -⟩ := Option.map_eq_some_iff.mp hy
    exact ⟨minus, body, hm, bare_of_whole? hd, rfl⟩
  · intro h
    have hsome : (value? .integer (String.ofList cs)).isSome = true :=
      isSome_value?_of_spells (.inl rfl) (by rwa [String.toList_ofList])
    rwa [Option.isSome_iff_exists, value?, String.toList_ofList] at hsome

/-- The decimals are the texts that are spelled as such. -/
theorem isSome_decimal?_iff : (∃ x, decimal? cs = some x) ↔ Spells .decimal cs := by
  constructor
  · rintro ⟨x, hx⟩
    obtain ⟨minus, body, y, hm, rfl, hy, -⟩ := (signed?_eq_some_iff map_pointed?_minus).mp hx
    obtain ⟨d, hd, -⟩ := Option.map_eq_some_iff.mp hy
    exact ⟨minus, body, hm, bare_of_pointed? hd, rfl⟩
  · intro h
    have hsome : (value? .decimal (String.ofList cs)).isSome = true :=
      isSome_value?_of_spells (.inr rfl) (by rwa [String.toList_ofList])
    rwa [Option.isSome_iff_exists, value?, String.toList_ofList] at hsome

/-- The operands are what stands before the first caret and what comes after that one. -/
theorem exists_operands (h : operands? cs = some (x, y)) : ∃ base exponent,
    cs = base ++ '^' :: exponent ∧ (integer? base).or (decimal? base) = some x ∧
      integer? exponent = some y := by
  have htext : cs.takeWhile (· ≠ '^') ++ cs.dropWhile (· ≠ '^') = cs :=
    List.takeWhile_append_dropWhile
  unfold operands? at h
  split at h
  · rename_i c exponent hrest
    have hc : c = '^' := by
      have hhead := List.head?_dropWhile_not (· ≠ '^') cs
      rw [hrest] at hhead
      simpa using hhead
    obtain ⟨x', hx, h⟩ := Option.bind_eq_some_iff.mp h
    obtain ⟨y', hy, h⟩ := Option.bind_eq_some_iff.mp h
    obtain ⟨rfl, rfl⟩ := Prod.mk.inj (Option.some.inj h)
    rw [hrest, hc] at htext
    exact ⟨cs.takeWhile (· ≠ '^'), exponent, htext.symm, hx, hy⟩
  · cases h

theorem exists_base_iff : (∃ x, (integer? cs).or (decimal? cs) = some x) ↔
    Spells .integer cs ∨ Spells .decimal cs := by
  rw [← isSome_integer?_iff, ← isSome_decimal?_iff, ← Option.isSome_iff_exists,
    ← Option.isSome_iff_exists, ← Option.isSome_iff_exists, Option.isSome_or, Bool.or_eq_true]

/-- A power is an integer or a decimal, a caret and an integer. -/
theorem isSome_power?_iff : (∃ x, power? cs = some x) ↔ ∃ base exponent,
    cs = base ++ '^' :: exponent ∧ (Spells .integer base ∨ Spells .decimal base) ∧
      Spells .integer exponent := by
  constructor
  · rintro ⟨x, hx⟩
    obtain ⟨⟨b, e⟩, hoperands, -⟩ := Option.map_eq_some_iff.mp hx
    obtain ⟨base, exponent, htext, hb, he⟩ := exists_operands hoperands
    exact ⟨base, exponent, htext, exists_base_iff.mp ⟨b, hb⟩, isSome_integer?_iff.mp ⟨e, he⟩⟩
  · rintro ⟨base, exponent, rfl, hspells, hexponent⟩
    obtain ⟨f, hf, h⟩ : ∃ f, (f = .integer ∨ f = .decimal) ∧ Spells f base := by
      rcases hspells with h | h
      · exact ⟨.integer, .inl rfl, h⟩
      · exact ⟨.decimal, .inr rfl, h⟩
    have hcaret : ∀ c ∈ base, c ≠ '^' := by
      obtain ⟨minus, body, hm, hbody, rfl⟩ := h
      exact List.forall_mem_append.mpr
        ⟨ne_of_mem_sign hm (by decide), hbody.ne_of_mem hf (by decide) (by decide)⟩
    obtain ⟨e, he⟩ := isSome_integer?_iff.mpr hexponent
    rw [← Option.isSome_iff_exists, Option.isSome_iff_ne_none, ne_eq,
      power?_eq_none_iff hf h hcaret, he]
    exact nofun

/-! ## Digits behind a prefix -/

theorem word_eq_some_iff : (if isDigits isDigit ds then word? n else none) = some y ↔
    ds ≠ [] ∧ (∀ c ∈ ds, isDigit c = true) ∧ n < 2 ^ 64 ∧ y = n.toUInt64.toFloat := by
  by_cases hd : isDigits isDigit ds = true
  · obtain ⟨hne, hall⟩ := isDigits_iff.mp hd
    rw [if_pos hd, word?]
    split_ifs with hn
    · exact ⟨fun h => ⟨hne, hall, hn, (Option.some.inj h).symm⟩, fun h => by rw [h.2.2.2]⟩
    · exact iff_of_false (by simp) fun h => hn h.2.2.1
  · rw [if_neg hd]
    exact iff_of_false (by simp) fun h => hd (isDigits_iff.mpr ⟨h.1, h.2.1⟩)

/-- A reader of digits behind a prefix accepts them if they are some, and write a number that
    has a place in 64 bits. -/
theorem prefixed_eq_some_iff {number : List Char → Nat}
    (hdigits : ∀ ds, read? ('0' :: mark :: ds) =
      if isDigits isDigit ds then word? (number ds) else none)
    (hother : ∀ cs, (∀ ds, cs ≠ '0' :: mark :: ds) → read? cs = none)
    (hnumber : ∀ ds, (∀ c ∈ ds, isDigit c = true) → number ds = Digit.value base ds) :
    signed? read? cs = some x ↔ ∃ minus ds, Prefixed mark isDigit minus ds cs ∧ ds ≠ [] ∧
      Digit.value base ds < 2 ^ 64 ∧
      x = withSign (minus = ['-']) (Digit.value base ds).toUInt64.toFloat := by
  rw [signed?_eq_some_iff fun cs => hother _ (by simp)]
  constructor
  · rintro ⟨minus, body, y, hm, rfl, hy, rfl⟩
    obtain ⟨ds, rfl⟩ : ∃ ds, body = '0' :: mark :: ds := by
      by_contra! hne
      rw [hother body hne] at hy
      cases hy
    rw [hdigits, word_eq_some_iff] at hy
    obtain ⟨hne, hall, hlt, rfl⟩ := hy
    rw [hnumber ds hall] at hlt ⊢
    exact ⟨minus, ds, ⟨hm, hall, rfl⟩, hne, hlt, rfl⟩
  · rintro ⟨minus, ds, ⟨hm, hall, rfl⟩, hne, hlt, rfl⟩
    refine ⟨minus, '0' :: mark :: ds, _, hm, rfl, ?_, rfl⟩
    rw [hdigits, word_eq_some_iff, hnumber ds hall]
    exact ⟨hne, hall, hlt, rfl⟩

/-- The values of base two and base sixteen. -/
theorem value?_eq_some_iff (h : HasBase f mark base isDigit) (text : String) :
    value? f text = some x ↔ ∃ minus ds, Prefixed mark isDigit minus ds text.toList ∧
      ds ≠ [] ∧ Digit.value base ds < 2 ^ 64 ∧
      x = withSign (minus = ['-']) (Digit.value base ds).toUInt64.toFloat := by
  cases h with
  | binary =>
    change binary? text.toList = some x ↔ _
    unfold binary?
    refine prefixed_eq_some_iff (fun ds => rfl) (fun cs hne => ?_) fun ds hall =>
      Digit.ofDigitChars_eq_value hall
    split
    · rename_i ds
      exact absurd rfl (hne ds)
    · rfl
  | hexadecimal =>
    change hexadecimal? text.toList = some x ↔ _
    unfold hexadecimal?
    refine prefixed_eq_some_iff (fun ds => rfl) (fun cs hne => ?_) fun ds _ =>
      Digit.ofHex_eq_value ds
    split
    · rename_i ds
      exact absurd rfl (hne ds)
    · rfl

/-- Sign, prefix and digits of a text are told by the text. -/
theorem Prefixed.unique {minus' ds' : List Char} (h : Prefixed mark isDigit minus ds cs)
    (h' : Prefixed mark isDigit minus' ds' cs) : minus = minus' ∧ ds = ds' := by
  have htext := h.text.symm.trans h'.text
  rcases h.sign with rfl | rfl <;> rcases h'.sign with rfl | rfl
  · simpa using htext
  · simp at htext
  · simp at htext
  · simpa using htext

/-! ## Values -/

/-- The texts with a value are the numerals. -/
theorem isSome_value?_iff (f : Format) (text : String) :
    (∃ x, value? f text = some x) ↔ IsNumeral f text.toList := by
  have hbase {f : Format} {mark base isDigit} (h : HasBase f mark base isDigit) :
      (∃ x, value? f text = some x) ↔ ∃ minus ds, Prefixed mark isDigit minus ds text.toList ∧
        ds ≠ [] ∧ Digit.value base ds < 2 ^ 64 := by
    simp only [value?_eq_some_iff h]
    exact ⟨fun ⟨_, minus, ds, h, hne, hlt, _⟩ => ⟨minus, ds, h, hne, hlt⟩,
      fun ⟨minus, ds, h, hne, hlt⟩ => ⟨_, minus, ds, h, hne, hlt, rfl⟩⟩
  cases f with
  | integer => exact isSome_integer?_iff
  | decimal => exact isSome_decimal?_iff
  | power => exact isSome_power?_iff
  | binary =>
    rw [hbase .binary]
    constructor
    · rintro ⟨minus, ds, h⟩
      exact ⟨_, _, _, minus, ds, .binary, h⟩
    · rintro ⟨_, _, _, minus, ds, ⟨⟩, h⟩
      exact ⟨minus, ds, h⟩
  | hexadecimal =>
    rw [hbase .hexadecimal]
    constructor
    · rintro ⟨minus, ds, h⟩
      exact ⟨_, _, _, minus, ds, .hexadecimal, h⟩
    · rintro ⟨_, _, _, minus, ds, ⟨⟩, h⟩
      exact ⟨minus, ds, h⟩

/-- A text has a value in a format if and only if the whole text is a numeral of the format, and
    the error of any other text tells the format and the text. The value of digits of base two
    or sixteen is the nearest double to the number that they write, with the sign of the text;
    zeros before the digits do not count, however many they are. -/
theorem evaluate_numerals (f : Format) (text : String) :
    ((∃ x, evaluate f text = .ok x) ↔ IsNumeral f text.toList) ∧
    (∀ e, evaluate f text = .error e → e = .badLiteral f text) ∧
    ∀ mark base isDigit minus k ds x, HasBase f mark base isDigit →
      Prefixed mark isDigit minus (List.replicate k '0' ++ ds) text.toList →
      evaluate f text = .ok x →
      ∃ y, Double.RoundsTo (Digit.value base ds) y ∧ x = withSign (minus = ['-']) y := by
  have hok (x : Float) : evaluate f text = .ok x ↔ value? f text = some x := by
    rw [evaluate]
    cases value? f text <;> simp
  refine ⟨?_, ?_, ?_⟩
  · simp only [hok]
    exact isSome_value?_iff f text
  · intro e he
    rw [evaluate] at he
    split at he
    · cases he
    · exact (Except.error.inj he).symm
  · intro mark base isDigit minus k ds x hbase hprefixed hx
    obtain ⟨minus', ds', hprefixed', -, hlt, rfl⟩ :=
      (value?_eq_some_iff hbase text).mp ((hok x).mp hx)
    obtain ⟨rfl, rfl⟩ := hprefixed.unique hprefixed'
    rw [Digit.value_zeros] at hlt ⊢
    exact ⟨_, Double.roundsTo_word hlt, rfl⟩

/-- Two zeros before two digits, of either case, under a sign. -/
theorem evaluate_numerals_zeros :
    Prefixed 'x' Digit.isHex ['-'] (List.replicate 2 '0' ++ ['f', 'F']) "-0x00fF".toList ∧
    ∃ y, Double.RoundsTo 255 y ∧ evaluate .hexadecimal "-0x00fF" = .ok (withSign true y) := by
  have hprefixed :
      Prefixed 'x' Digit.isHex ['-'] (List.replicate 2 '0' ++ ['f', 'F']) "-0x00fF".toList :=
    ⟨.inr rfl, by simp [Digit.isHex], rfl⟩
  obtain ⟨hsome, -, hvalue⟩ := evaluate_numerals .hexadecimal "-0x00fF"
  obtain ⟨x, hx⟩ := hsome.mpr
    ⟨'x', 16, Digit.isHex, ['-'], _, .hexadecimal, hprefixed, by decide, by decide⟩
  obtain ⟨y, hy, rfl⟩ := hvalue 'x' 16 Digit.isHex ['-'] 2 ['f', 'F'] x .hexadecimal hprefixed hx
  have h255 : Digit.value 16 ['f', 'F'] = 255 := by decide
  rw [h255] at hy
  exact ⟨hprefixed, y, hy, hx⟩

end Literal

end Reckoner
