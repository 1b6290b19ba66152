import Reckoner.Literal.Value
import Reckoner.Proofs.Token.Spelling

/-!
# Spellings with values

A number token may denote no number: prefixes and carets may lack digits after them, and
digits of base two or sixteen may write too great a number. Integers and decimals have
none of these parts, and always have a value.

* `Literal.isSome_signed?`: a minus sign changes nothing about that;
* `Literal.isSome_value?_of_spells`: integers and decimals have values.
-/

namespace Reckoner.Literal

variable {minus body ds es : List Char}

/-- No sign is taken off a text that does not begin with one. -/
theorem unsigned_of_head (hb : ∀ c ∈ body.head?, c ≠ '-') : unsigned body = (false, body) := by
  unfold unsigned
  split
  · exact absurd rfl (hb '-' rfl)
  · rfl

/-- A text has a value with a minus sign if and only if it has one without. -/
theorem isSome_signed? (value? : List Char → Option Float) (hm : minus = [] ∨ minus = ['-'])
    (hb : ∀ c ∈ body.head?, c ≠ '-') :
    (signed? value? (minus ++ body)).isSome = (value? body).isSome := by
  have hunsigned : (unsigned (minus ++ body)).2 = body := by
    rcases hm with rfl | rfl
    · rw [List.nil_append, unsigned_of_head hb]
    · rfl
  simp only [signed?, hunsigned, Option.isSome_map]

theorem isSome_whole? (h : Bare .integer ds) : (whole? ds).isSome = true := by
  cases h with
  | integer hne hd => simpa [whole?, isDigits, hne] using hd

theorem isSome_pointed? (h : Bare .decimal ds) : (pointed? ds).isSome = true := by
  cases h with
  | @decimal ds es hds he =>
    obtain ⟨hne, hd⟩ := hds
    have hpoint : ∀ c ∈ ('.' :: es).head?, c.isDigit = false := by simp
    obtain ⟨htake, hdrop⟩ := Prod.mk.inj (Number.digits_of_forall hd hpoint)
    simpa [pointed?, htake, hdrop, hne] using he

theorem Bare.head_ne_minus {f : Format} (h : Bare f body) : ∀ c ∈ body.head?, c ≠ '-' := by
  obtain ⟨d, ds, rfl, hd⟩ := h.exists_digit
  rintro c hc rfl
  obtain rfl : d = '-' := by simpa using hc
  exact absurd hd (by decide)

/-- The spellings of integers and decimals have values. -/
theorem isSome_value?_of_spells {f : Format} (hf : f = .integer ∨ f = .decimal) {text : String}
    (h : Spells f text.toList) : (value? f text).isSome = true := by
  obtain ⟨minus, body, hm, hbody, htext⟩ := h
  have hhead := hbody.head_ne_minus
  rcases hf with rfl | rfl
  · rw [value?, htext, integer?, isSome_signed? _ hm hhead, Option.isSome_map]
    exact isSome_whole? hbody
  · rw [value?, htext, decimal?, isSome_signed? _ hm hhead, Option.isSome_map]
    exact isSome_pointed? hbody

end Reckoner.Literal
