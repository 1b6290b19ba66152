import Reckoner.Json.Printer
import Reckoner.Json.Reader
import Reckoner.Proofs.Token.Spelling

/-!
# Numbers and strings in JSON texts

What is printed for a number is read back where the number cannot go on, and what is
printed for a string is read back wherever it stands: the printer escapes what the reader
wants escaped.

* `Numeral.IsWellFormed`: the numerals that a text can have;
* `Json.Reader.Ends`: the texts that a number cannot go on with;
* `Json.Reader.numeral?_chars`: numbers are read back;
* `Json.Reader.exists_unit`: the text of a character is one unit of a string, which puts in
  that character, so that strings are read back (`Json.Reader.text?_text`).
-/

namespace Reckoner

/-! ## Well-formed numerals -/

/-- One digit or more. -/
def Numeral.AreDigits (ds : List Char) : Prop := ds ≠ [] ∧ ∀ c ∈ ds, c.isDigit = true

/-- Digits where there are to be some, and no leading zeros. -/
structure Numeral.IsWellFormed (n : Numeral) : Prop where
  whole : AreDigits n.whole
  leading : n.whole = ['0'] ∨ n.whole.head? ≠ some '0'
  fraction : ∀ ds ∈ n.fraction, AreDigits ds
  exponent : ∀ e ∈ n.exponent, AreDigits e.digits

/-- The text of a fraction. -/
def Numeral.fractionChars : Option (List Char) → List Char
  | some ds => '.' :: ds
  | none => []

/-- The text of an exponent. -/
def Numeral.exponentChars : Option Numeral.Exponent → List Char
  | some e => 'e' :: e.sign.chars ++ e.digits
  | none => []

theorem Numeral.chars_eq (n : Numeral) : n.chars = (if n.negative then ['-'] else []) ++ n.whole ++
    fractionChars n.fraction ++ exponentChars n.exponent := by
  obtain ⟨negative, whole, fraction, exponent⟩ := n
  cases fraction <;> cases exponent <;> rfl

namespace Json.Reader

/-! ## Numbers -/

/-- Nothing that a number could go on with comes first. -/
def Ends (rest : List Char) : Prop :=
  ∀ c ∈ rest.head?, c.isDigit = false ∧ c ≠ '.' ∧ c ≠ 'e' ∧ c ≠ 'E'

theorem ends_nil : Ends [] := by simp [Ends]

theorem ends_cons {c : Char} {rest : List Char}
    (h : c.isDigit = false ∧ c ≠ '.' ∧ c ≠ 'e' ∧ c ≠ 'E') : Ends (c :: rest) := by
  simpa [Ends] using h

variable {ds rest : List Char} {n : Numeral}

theorem digits?_append (hd : Numeral.AreDigits ds)
    (hr : ∀ c ∈ rest.head?, c.isDigit = false) : digits? (ds ++ rest) = some (ds, rest) := by
  obtain ⟨htake, hdrop⟩ := Prod.mk.inj (Number.digits_of_forall hd.2 hr)
  rw [digits?, htake, hdrop]
  split
  · exact absurd rfl hd.1
  · rfl

theorem whole?_append (hd : Numeral.AreDigits ds) (hz : ds = ['0'] ∨ ds.head? ≠ some '0')
    (hr : ∀ c ∈ rest.head?, c.isDigit = false) : whole? (ds ++ rest) = some (ds, rest) := by
  rcases hz with rfl | hz
  · have hhead : rest.head?.any Char.isDigit = false := by
      cases rest with
      | nil => rfl
      | cons c rest => exact hr c rfl
    simp [whole?, hhead]
  · rw [whole?]
    · exact digits?_append hd hr
    · intro cs h
      cases ds with
      | nil => exact hd.1 rfl
      | cons c ds => simp_all

theorem fraction?_append {fraction : Option (List Char)}
    (hf : ∀ ds ∈ fraction, Numeral.AreDigits ds)
    (hr : ∀ c ∈ rest.head?, c.isDigit = false ∧ c ≠ '.') :
    fraction? (Numeral.fractionChars fraction ++ rest) = some (fraction, rest) := by
  cases fraction with
  | some ds =>
    rw [Numeral.fractionChars, List.cons_append, fraction?,
      digits?_append (hf ds rfl) fun c hc => (hr c hc).1]
    rfl
  | none =>
    rw [Numeral.fractionChars, List.nil_append, fraction?]
    intro cs hcs
    exact (hr '.' (by simp [hcs])).2 rfl

theorem exponentSign_append (sign : Numeral.Sign) (hd : Numeral.AreDigits ds) :
    exponentSign (sign.chars ++ ds ++ rest) = (sign, ds ++ rest) := by
  cases sign with
  | plus | minus => rfl
  | unsigned =>
    obtain ⟨hne, hdigits⟩ := hd
    cases ds with
    | nil => exact absurd rfl hne
    | cons c ds =>
      have hc := hdigits c List.mem_cons_self
      simp only [Numeral.Sign.chars, List.nil_append, List.cons_append]
      rw [exponentSign]
      · rintro cs h
        obtain rfl := (List.cons.inj h).1
        cases hc
      · rintro cs h
        obtain rfl := (List.cons.inj h).1
        cases hc

theorem exponent?_append {exponent : Option Numeral.Exponent}
    (he : ∀ e ∈ exponent, Numeral.AreDigits e.digits) (hr : Ends rest) :
    exponent? (Numeral.exponentChars exponent ++ rest) = some (exponent, rest) := by
  cases exponent with
  | some e =>
    have hd := he e rfl
    rw [Numeral.exponentChars, List.cons_append, List.cons_append, exponent?, exponentBody?,
      exponentSign_append e.sign hd]
    dsimp only
    rw [digits?_append hd fun c hc => (hr c hc).1]
    rfl
  | none =>
    rw [Numeral.exponentChars, List.nil_append, exponent?]
    · intro cs hcs
      exact (hr 'e' (by simp [hcs])).2.2.1 rfl
    · intro cs hcs
      exact (hr 'E' (by simp [hcs])).2.2.2 rfl

/-- No digit and no point comes first where an exponent may be. -/
theorem head_exponentChars (exponent : Option Numeral.Exponent) (hr : Ends rest) :
    ∀ c ∈ (Numeral.exponentChars exponent ++ rest).head?, c.isDigit = false ∧ c ≠ '.' := by
  cases exponent with
  | some e =>
    intro c hc
    obtain rfl : 'e' = c := by simpa [Numeral.exponentChars] using hc
    decide
  | none => exact fun c hc => ⟨(hr c hc).1, (hr c hc).2.1⟩

/-- No digit comes first where a fraction may be. -/
theorem head_fractionChars (fraction : Option (List Char))
    (hr : ∀ c ∈ rest.head?, c.isDigit = false) :
    ∀ c ∈ (Numeral.fractionChars fraction ++ rest).head?, c.isDigit = false := by
  cases fraction with
  | some ds =>
    intro c hc
    obtain rfl : '.' = c := by simpa [Numeral.fractionChars] using hc
    decide
  | none => exact hr

theorem unsigned?_append (hn : n.IsWellFormed) (hr : Ends rest) :
    unsigned? n.negative (n.whole ++ (Numeral.fractionChars n.fraction ++
      (Numeral.exponentChars n.exponent ++ rest))) = some (n, rest) := by
  have hexponent := head_exponentChars n.exponent hr
  have hfraction := head_fractionChars n.fraction fun c hc => (hexponent c hc).1
  rw [unsigned?, whole?_append hn.whole hn.leading hfraction]
  simp only [Option.bind_eq_bind, Option.bind_some]
  rw [fraction?_append hn.fraction hexponent]
  simp only [Option.bind_some]
  rw [exponent?_append hn.exponent hr]
  rfl

theorem numeral?_chars (hn : n.IsWellFormed) (hr : Ends rest) :
    numeral? (n.chars ++ rest) = some (n, rest) := by
  have hunsigned := unsigned?_append hn hr
  rw [Numeral.chars_eq, List.append_assoc, List.append_assoc, List.append_assoc]
  cases hneg : n.negative with
  | true =>
    rw [hneg] at hunsigned
    exact hunsigned
  | false =>
    rw [hneg] at hunsigned
    rw [if_neg Bool.false_ne_true, List.nil_append, numeral?]
    · exact hunsigned
    · intro cs h
      obtain ⟨c, ds, hwhole⟩ := List.exists_cons_of_ne_nil hn.whole.1
      have hdigit := hn.whole.2 c (by simp [hwhole])
      rw [hwhole, List.cons_append, List.cons.injEq] at h
      rw [h.1] at hdigit
      cases hdigit

/-- A number begins with a minus sign or a digit. -/
theorem exists_head_chars (hn : n.IsWellFormed) :
    ∃ c cs, n.chars = c :: cs ∧ (c = '-' ∨ c.isDigit = true) := by
  obtain ⟨c, ds, hwhole⟩ := List.exists_cons_of_ne_nil hn.whole.1
  rw [Numeral.chars_eq, hwhole]
  cases n.negative with
  | true => exact ⟨'-', _, rfl, .inl rfl⟩
  | false => exact ⟨c, _, rfl, .inr (hn.whole.2 c (by simp [hwhole]))⟩

/-! ## Strings -/

theorem codeUnit?_hexDigit : ∀ n < 0x20,
    codeUnit? '0' '0' (Printer.hexDigit (n / 16)) (Printer.hexDigit (n % 16)) = some n := by
  decide

/-- A code unit below the halves of pairs is a character by itself. -/
theorem chars?_code {unit : Nat} (h : unit < 0xD800) (us : List StringUnit) :
    chars? (.code unit :: us) = (chars? us).map (.ofNat unit :: ·) := by
  have hlead : isLead unit = false := by
    simp only [isLead, Bool.and_eq_false_iff, decide_eq_false_iff_not]
    omega
  have htrail : isTrail unit = false := by
    simp only [isTrail, Bool.and_eq_false_iff, decide_eq_false_iff_not]
    omega
  match us with
  | [] | .char c :: us => simp [chars?, hlead, htrail]
  | .code trail :: us => simp [chars?, hlead, htrail]

/-- A letter after a backslash, where that is not the start of four digits. -/
theorem units?_escaped {e c : Char} (he : escaped? e = some c) (rest : List Char) :
    units? ('\\' :: e :: rest) = (units? rest).map fun (us, rest) => (.char c :: us, rest) := by
  rw [units?]
  · rw [he]
    cases units? rest <;> rfl
  · rintro a b c d rest rfl
    cases he

/-- Characters are printed as a letter after a backslash, as four digits, or as they are. -/
theorem escape_cases (c : Char) :
    (∃ e, escaped? e = some c ∧ Printer.escape c = ['\\', e]) ∨
    (c.toNat < 0x20 ∧ Printer.escape c = ['\\', 'u', '0', '0',
      Printer.hexDigit (c.toNat / 16), Printer.hexDigit (c.toNat % 16)]) ∨
    (c ≠ '"' ∧ c ≠ '\\' ∧ ¬ c.toNat < 0x20 ∧ Printer.escape c = [c]) := by
  unfold Printer.escape
  by_cases hquote : c = '"'
  · exact .inl ⟨'"', by rw [hquote]; rfl, if_pos hquote⟩
  rw [if_neg hquote]
  by_cases hbackslash : c = '\\'
  · exact .inl ⟨'\\', by rw [hbackslash]; rfl, if_pos hbackslash⟩
  rw [if_neg hbackslash]
  by_cases hb : c = '\x08'
  · exact .inl ⟨'b', by rw [hb]; rfl, if_pos hb⟩
  rw [if_neg hb]
  by_cases ht : c = '\t'
  · exact .inl ⟨'t', by rw [ht]; rfl, if_pos ht⟩
  rw [if_neg ht]
  by_cases hn : c = '\n'
  · exact .inl ⟨'n', by rw [hn]; rfl, if_pos hn⟩
  rw [if_neg hn]
  by_cases hf : c = '\x0c'
  · exact .inl ⟨'f', by rw [hf]; rfl, if_pos hf⟩
  rw [if_neg hf]
  by_cases hr : c = '\r'
  · exact .inl ⟨'r', by rw [hr]; rfl, if_pos hr⟩
  rw [if_neg hr]
  by_cases hcontrol : c.toNat < 0x20
  · exact .inr (.inl ⟨hcontrol, if_pos hcontrol⟩)
  · exact .inr (.inr ⟨hquote, hbackslash, hcontrol, if_neg hcontrol⟩)

/-- What is printed for a character is one unit, which puts in that character. -/
theorem exists_unit (c : Char) : ∃ u : StringUnit,
    (∀ rest, units? (Printer.escape c ++ rest) =
      (units? rest).map fun (us, rest) => (u :: us, rest)) ∧
    ∀ us, chars? (u :: us) = (chars? us).map (c :: ·) := by
  rcases escape_cases c with ⟨e, he, heq⟩ | ⟨hcontrol, heq⟩ |
    ⟨hquote, hbackslash, hplain, heq⟩
  · refine ⟨.char c, fun rest => ?_, fun us => rfl⟩
    rw [heq]
    exact units?_escaped he rest
  · refine ⟨.code c.toNat, fun rest => ?_, fun us => ?_⟩
    · rw [heq]
      simp only [List.cons_append, List.nil_append]
      rw [units?, codeUnit?_hexDigit _ hcontrol]
      cases units? rest <;> rfl
    · rw [chars?_code (by omega), Char.ofNat_toNat]
  · refine ⟨.char c, fun rest => ?_, fun us => rfl⟩
    rw [heq, List.singleton_append, units?]
    · rw [if_neg (by simp [hbackslash, hplain])]
      cases units? rest <;> rfl
    · exact hquote
    · exact fun a b c d rest hc => absurd hc hbackslash
    · exact fun e rest hc => absurd hc hbackslash

theorem exists_units (cs rest : List Char) : ∃ us,
    units? (cs.flatMap Printer.escape ++ '"' :: rest) = some (us, rest) ∧
      chars? us = some cs := by
  induction cs with
  | nil => exact ⟨[], by rw [List.flatMap_nil, List.nil_append, units?], rfl⟩
  | cons c cs ih =>
    obtain ⟨us, hus, hcs⟩ := ih
    obtain ⟨u, hu, hc⟩ := exists_unit c
    refine ⟨u :: us, ?_, by rw [hc, hcs]; rfl⟩
    rw [List.flatMap_cons, List.append_assoc, hu, hus]
    rfl

/-- A string is read back, also one without contents. -/
theorem text?_text (s : Json.Text) (rest : List Char) :
    ∃ body, Printer.text s rest = '"' :: body ∧ text? body = some (s, rest) := by
  cases s with
  | some s =>
    obtain ⟨us, hus, hcs⟩ := exists_units s.toList rest
    refine ⟨s.toList.flatMap Printer.escape ++ '"' :: rest, rfl, ?_⟩
    simp only [text?, hus, hcs, Option.map_some, String.ofList_toList]
  | none => exact ⟨_, rfl, rfl⟩

end Json.Reader

end Reckoner
