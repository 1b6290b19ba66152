import Reckoner.Evaluation
import Reckoner.Proofs.Literal
import Reckoner.Proofs.Token.Language
import Mathlib.Data.Nat.Digits.Defs

/-!
# Number tokens without a value

The lexer takes more texts for numbers than have a value. These are prefixes without
digits, digits of base two or sixteen that write too great a number, and carets without an
exponent; all other number tokens have a value.

* `Digit.value`: the number that digits write, place by place;
* `Literal.LacksValue`: the texts without a value, told by their characters;
* `Literal.value?_eq_none_iff`: among the spellings of a format no others lack one;
* `Lexer.isSpelled_of_mem_tokens`: each token of a source but the strays is spelled as its kind,
  whatever stands beside it;
* `tokenize_lacksValue_iff`: the number tokens of a source that have no value.
-/

namespace Reckoner

/-! ## Texts without a value -/

/-- The number that digits write, the most significant first. -/
def Digit.value (base : Nat) (ds : List Char) : Nat :=
  Nat.ofDigits base (ds.map hexValue).reverse

namespace Literal

/-- The characters after the first mark. -/
def behind (mark : Char) (cs : List Char) : List Char := (cs.dropWhile (· ≠ mark)).drop 1

/-- There are no digits, or they write a number that has no place in 64 bits. -/
def ExceedsWord (base : Nat) (ds : List Char) : Prop := ds = [] ∨ 2 ^ 64 ≤ Digit.value base ds

/-- The spellings of a format that have no value. -/
def LacksValue (f : Format) (cs : List Char) : Prop :=
  match f with
  | .integer | .decimal => False
  | .binary => ExceedsWord 2 (behind 'b' cs)
  | .hexadecimal => ExceedsWord 16 (behind 'x' cs)
  | .power => ∀ c ∈ behind '^' cs, c.isDigit = false

end Literal

/-! ## Digits -/

namespace Digit

variable {c : Char} {ds : List Char}

theorem foldl_eq_value (base : Nat) (ds : List Char) :
    ds.foldl (fun n c => base * n + hexValue c) 0 = value base ds := by
  rw [value, Nat.ofDigits_eq_foldr, List.foldr_reverse, List.foldl_map]
  simp only [Nat.cast_id, Nat.add_comm]

theorem ofHex_eq_value (ds : List Char) : ofHex ds = value 16 ds := foldl_eq_value 16 ds

/-- A digit of base two has the same value in base sixteen. -/
theorem toNat_of_isBinary (h : isBinary c = true) : c.toNat - '0'.toNat = hexValue c := by
  simp only [isBinary, Bool.or_eq_true, decide_eq_true_eq] at h
  rcases h with rfl | rfl <;> rfl

theorem ofDigitChars_eq_value (h : ∀ c ∈ ds, isBinary c = true) :
    Nat.ofDigitChars 2 ds 0 = value 2 ds := by
  rw [← foldl_eq_value, Nat.ofDigitChars]
  exact List.foldl_ext _ _ _ fun n c hc => by rw [toNat_of_isBinary (h c hc)]

end Digit

/-! ## Spellings -/

namespace Literal

variable {f : Format} {minus body ds base : List Char} {mark : Char}

theorem word?_eq_none_iff (n : Nat) : word? n = none ↔ 2 ^ 64 ≤ n := by
  simp only [word?, ite_eq_right_iff, reduceCtorEq, imp_false, Nat.not_lt]
  rfl

theorem behind_append (h : ∀ c ∈ base, c ≠ mark) : behind mark (base ++ mark :: ds) = ds := by
  rw [behind, List.dropWhile_append_of_pos (by simpa using h)]
  simp

theorem signed?_eq_none_iff (value? : List Char → Option Float)
    (hm : minus = [] ∨ minus = ['-']) (hb : ∀ c ∈ body.head?, c ≠ '-') :
    signed? value? (minus ++ body) = none ↔ value? body = none := by
  rw [← Option.isNone_iff_eq_none, ← Option.isNone_iff_eq_none, ← Option.not_isSome,
    ← Option.not_isSome, isSome_signed? value? hm hb]

/-- No letter and no caret is part of an integer or a decimal. -/
theorem Bare.ne_of_mem (hf : f = .integer ∨ f = .decimal) (h : Bare f body)
    (hmark : mark.isDigit = false) (hpoint : mark ≠ '.') : ∀ c ∈ body, c ≠ mark := by
  have hdigits {es : List Char} (he : ∀ c ∈ es, c.isDigit = true) : ∀ c ∈ es, c ≠ mark := by
    rintro c hc rfl
    rw [he c hc] at hmark
    cases hmark
  cases h with
  | integer _ hd => exact hdigits hd
  | decimal hds he =>
    cases hds with
    | integer _ hd =>
      exact List.forall_mem_append.mpr
        ⟨hdigits hd, List.forall_mem_cons.mpr ⟨hpoint.symm, hdigits he⟩⟩
  | binary | hexadecimal | power => simp at hf

theorem ne_of_mem_sign (hm : minus = [] ∨ minus = ['-']) (hmark : mark ≠ '-') :
    ∀ c ∈ minus, c ≠ mark := by
  rcases hm with rfl | rfl
  · simp
  · simpa using hmark.symm

/-! ## Values of spellings -/

/-- Digits with a prefix have no value where they are none or exceed a word. -/
theorem word_eq_none_iff (isDigit : Char → Bool) (n : Nat) (hd : ∀ c ∈ ds, isDigit c = true) :
    (if isDigits isDigit ds then word? n else none) = none ↔ ds = [] ∨ 2 ^ 64 ≤ n := by
  have hall : ds.all isDigit = true := List.all_eq_true.mpr hd
  cases ds with
  | nil => simp [isDigits]
  | cons d ds => simp [isDigits, word?_eq_none_iff, hall]

/-- What stands before the caret of a power has a value. -/
theorem exists_base (hf : f = .integer ∨ f = .decimal) (h : Spells f base) :
    ∃ x, (integer? base).or (decimal? base) = some x := by
  have hsome : (value? f (String.ofList base)).isSome = true :=
    isSome_value?_of_spells hf (by rwa [String.toList_ofList])
  rw [← Option.isSome_iff_exists, Option.isSome_or]
  rcases hf with rfl | rfl <;> simp only [value?, String.toList_ofList] at hsome <;> simp [hsome]

/-- An exponent has no value if and only if it has no digit. -/
theorem exponent_eq_none_iff (hm : minus = [] ∨ minus = ['-']) (hd : ∀ c ∈ ds, c.isDigit = true) :
    integer? (minus ++ ds) = none ↔ ∀ c ∈ minus ++ ds, c.isDigit = false := by
  have hhead : ∀ c ∈ ds.head?, c ≠ '-' := by
    rintro c hc rfl
    exact absurd (hd '-' (List.mem_of_mem_head? hc)) (by decide)
  have hall : ds.all Char.isDigit = true := List.all_eq_true.mpr hd
  rw [integer?, signed?_eq_none_iff _ hm hhead]
  cases ds with
  | nil =>
    have hnone : ∀ c ∈ minus ++ [], c.isDigit = false := by
      rcases hm with rfl | rfl <;> simp
    simpa [whole?, isDigits] using hnone
  | cons d ds =>
    have hdigit := hd d List.mem_cons_self
    simpa [whole?, isDigits, hall] using ⟨d, .inr (.inl rfl), hdigit⟩

/-- A power has no value if and only if its exponent has none. -/
theorem power?_eq_none_iff {exponent : List Char} (hf : f = .integer ∨ f = .decimal)
    (h : Spells f base) (hbase : ∀ c ∈ base, c ≠ '^') :
    power? (base ++ '^' :: exponent) = none ↔ integer? exponent = none := by
  obtain ⟨x, hx⟩ := exists_base hf h
  have hmark : ∀ c ∈ base, decide (c ≠ '^') = true := by simpa using hbase
  have hcaret : ∀ c ∈ ('^' :: exponent).head?, decide (c ≠ '^') = false := by simp
  obtain ⟨htake, hdrop⟩ := Prod.mk.inj (Number.digits_of_forall hmark hcaret)
  rw [power?, operands?, htake, hdrop]
  cases hy : integer? exponent <;> simp [hx, hy]

/-- The spellings of a format have a value, but for those that lack one. -/
theorem value?_eq_none_iff {text : String} (h : Spells f text.toList) :
    value? f text = none ↔ LacksValue f text.toList := by
  obtain ⟨minus, body, hm, hbody, htext⟩ := id h
  have hbehind {mark : Char} (base : List Char) {ds : List Char} (hmark : mark ≠ '-')
      (hbase : ∀ c ∈ base, c ≠ mark) :
      behind mark (minus ++ (base ++ mark :: ds)) = ds := by
    rw [← List.append_assoc]
    exact behind_append (List.forall_mem_append.mpr ⟨ne_of_mem_sign hm hmark, hbase⟩)
  cases hbody with
  | integer => simpa [LacksValue, Option.isSome_iff_ne_none] using isSome_value?_of_spells (.inl rfl) h
  | decimal => simpa [LacksValue, Option.isSome_iff_ne_none] using isSome_value?_of_spells (.inr rfl) h
  | @binary ds hd =>
    have hbits : behind 'b' (minus ++ '0' :: 'b' :: ds) = ds :=
      hbehind ['0'] (by decide) (by simp)
    rw [value?, LacksValue, htext, hbits, binary?, signed?_eq_none_iff _ hm (by simp),
      ExceedsWord, ← Digit.ofDigitChars_eq_value hd]
    exact word_eq_none_iff Digit.isBinary _ hd
  | @hexadecimal ds hd =>
    have hdigits : behind 'x' (minus ++ '0' :: 'x' :: ds) = ds :=
      hbehind ['0'] (by decide) (by simp)
    rw [value?, LacksValue, htext, hdigits, hexadecimal?, signed?_eq_none_iff _ hm (by simp),
      ExceedsWord, ← Digit.ofHex_eq_value]
    exact word_eq_none_iff Digit.isHex _ hd
  | @power f base sign es hf hbase hs hd =>
    have hne : ∀ c ∈ base, c ≠ '^' := hbase.ne_of_mem hf (by decide) (by decide)
    rw [value?, LacksValue, htext, hbehind base (by decide) hne, ← exponent_eq_none_iff hs hd,
      ← List.append_assoc]
    exact power?_eq_none_iff hf ⟨minus, base, hm, hbase, rfl⟩
      (List.forall_mem_append.mpr ⟨ne_of_mem_sign hm (by decide), hne⟩)

end Literal

/-! ## Tokens -/

namespace Lexer

/-- A token that is no stray is spelled as its kind, whatever stands beside it. -/
theorem isSpelled_of_mem_tokens (l : Lexer) {t : Token} (ht : t ∈ l.tokens)
    (hstray : t.kind.isStray = false) : (Item.ofToken t).IsSpelled l.caret := by
  fun_induction tokens l with
  | case1 => exact absurd ht List.not_mem_nil
  | case2 l u l' h ih =>
    obtain ⟨c, cs, -, hu, hl⟩ := next?_eq_some h
    rcases List.mem_cons.mp ht with rfl | ht
    · subst hu
      exact (Piece.isSpelled_head hstray).1
    · have hcaret : l'.caret = l.caret := by rw [hl]
      exact hcaret ▸ ih ht

end Lexer

/-- The value of a number token of a source is an error if and only if its text lacks a value.
    So all integers and decimals of a source have values. -/
theorem tokenize_lacksValue_iff {caret : Caret} {source : String} {t : Token}
    {f : Literal.Format} (ht : t ∈ tokenize caret source) (hf : t.kind = .literal f) :
    ((∃ e, Literal.evaluate f t.text = .error e) ↔ Literal.LacksValue f t.text.toList) ∧
      (f = .integer ∨ f = .decimal → ∃ x, Literal.evaluate f t.text = .ok x) := by
  have hspelled : (Item.ofToken t).IsSpelled caret :=
    (Lexer.ofString caret source).isSpelled_of_mem_tokens ht (by rw [hf]; rfl)
  have hspells : Literal.Spells f t.text.toList := by
    simp only [Item.IsSpelled, Item.ofToken, hf] at hspelled
    exact hspelled.1
  have hnone := Literal.value?_eq_none_iff hspells
  constructor
  · rw [← hnone, Literal.evaluate]
    cases Literal.value? f t.text <;> simp
  · intro hdecimal
    obtain ⟨x, hx⟩ := Option.isSome_iff_exists.mp (Literal.isSome_value?_of_spells hdecimal hspells)
    exact ⟨x, by rw [Literal.evaluate, hx]⟩

/-- A power without an exponent, after a number that is given up. -/
theorem tokenize_lacksValue_iff_caret :
    (⟨.literal .power, "-2.5^-", ⟨4, 10⟩⟩ : Token) ∈ tokenize .power "12_+-2.5^-" ∧
      ∃ e, Literal.evaluate .power "-2.5^-" = .error e := by
  have hmem : (⟨.literal .power, "-2.5^-", ⟨4, 10⟩⟩ : Token) ∈
      tokenize .power "12_+-2.5^-" := by
    have htokens : tokenize .power "12_+-2.5^-" = [⟨.strayInNumber, "_", ⟨2, 3⟩⟩,
        ⟨.operator .add, "", ⟨3, 4⟩⟩, ⟨.literal .power, "-2.5^-", ⟨4, 10⟩⟩] := by decide +kernel
    simp [htokens]
  have hlacks : Literal.LacksValue .power "-2.5^-".toList := by
    show ∀ c ∈ ['-'], c.isDigit = false
    exact List.forall_mem_singleton.mpr rfl
  exact ⟨hmem, (tokenize_lacksValue_iff hmem rfl).1.mpr hlacks⟩

end Reckoner
