import Reckoner.Token.Lexer
import Mathlib.Tactic.Common

/-!
# Spellings of literals

    integer     ::= -? [0-9]+
    decimal     ::= -? [0-9]+ [.] [0-9]*
    binary      ::= -? 0b [01]*
    hexadecimal ::= -? 0x [0-9A-Fa-f]*
    power       ::= -? [0-9]+ ([.] [0-9]*)? ^ -? [0-9]*

These are the texts of number tokens. Some of them denote no number, such as `0x` and
`2^`; that is found only when their value is asked for.

* `Literal.Spells`: the texts of a format;
* `Number.signed_of_spells`: before a blank, a closing bracket or the end, a spelling is
  read as a whole, in its format.
-/

namespace Reckoner

namespace Literal

/-- The texts of a format without a sign. -/
inductive Bare : Format → List Char → Prop
  | integer {ds : List Char} : ds ≠ [] → (∀ c ∈ ds, c.isDigit = true) → Bare .integer ds
  | decimal {ds es : List Char} : Bare .integer ds → (∀ c ∈ es, c.isDigit = true) →
      Bare .decimal (ds ++ '.' :: es)
  | binary {ds : List Char} : (∀ c ∈ ds, Digit.isBinary c = true) → Bare .binary ('0' :: 'b' :: ds)
  | hexadecimal {ds : List Char} : (∀ c ∈ ds, Digit.isHex c = true) →
      Bare .hexadecimal ('0' :: 'x' :: ds)
  | power {f : Format} {base minus es : List Char} : f = .integer ∨ f = .decimal → Bare f base →
      minus = [] ∨ minus = ['-'] → (∀ c ∈ es, c.isDigit = true) →
      Bare .power (base ++ '^' :: (minus ++ es))

/-- The texts of a format. -/
def Spells (f : Format) (cs : List Char) : Prop :=
  ∃ minus body, (minus = [] ∨ minus = ['-']) ∧ Bare f body ∧ cs = minus ++ body

/-- A spelling without a sign begins with a digit. -/
theorem Bare.exists_digit {f : Format} {cs : List Char} (h : Bare f cs) :
    ∃ c ds, cs = c :: ds ∧ c.isDigit = true := by
  induction h with
  | @integer ds hne hd =>
    obtain ⟨c, ds, rfl⟩ := List.exists_cons_of_ne_nil hne
    exact ⟨c, ds, rfl, hd c (by simp)⟩
  | binary | hexadecimal => exact ⟨'0', _, rfl, by decide⟩
  | decimal _ _ ih | power _ _ _ _ ih =>
    obtain ⟨c, ds, rfl, hc⟩ := ih
    exact ⟨c, _, rfl, hc⟩

end Literal

/-! ## Where a text may end -/

/-- A text that no token before it reaches into: it is empty, or begins with a blank or a
    closing bracket. -/
def Detached (rest : List Char) : Prop := ∀ c ∈ rest.head?, isBlank c = true ∨ c = ')'

theorem detached_nil : Detached [] := by simp [Detached]

theorem detached_cons {c : Char} {cs : List Char} (h : isBlank c = true ∨ c = ')') :
    Detached (c :: cs) := by simpa [Detached] using h

/-- A character that no number and no name goes on with. -/
structure Separates (c : Char) : Prop where
  isDigit : c.isDigit = false
  isHex : Digit.isHex c = false
  isAlpha : c.isAlpha = false
  ne_point : c ≠ '.'
  ne_caret : c ≠ '^'
  ne_minus : c ≠ '-'
  ne_bracket : c ≠ '('

theorem Detached.head {rest : List Char} (h : Detached rest) {c : Char} (hc : c ∈ rest.head?) :
    Separates c := by
  have hmem := h c hc
  simp only [isBlank, Bool.or_eq_true, decide_eq_true_eq] at hmem
  rcases hmem with ((((rfl | rfl) | rfl) | rfl) | rfl) | rfl <;> constructor <;> decide

theorem Detached.ends {rest : List Char} (h : Detached rest) (caret : Caret) {c : Char}
    (hc : c ∈ rest.head?) : caret.ends c = true := by
  rcases h c hc with hb | rfl
  · simp [Caret.ends, hb]
  · simp [Caret.ends]

/-! ## Reading a spelling -/

namespace Number

variable {caret : Caret} {p : Char → Bool} {ds es rest tail minus : List Char}

theorem digits_of_forall (hd : ∀ c ∈ ds, p c = true) (hr : ∀ c ∈ rest.head?, p c = false) :
    digits p (ds ++ rest) = (ds, rest) := by
  unfold digits
  rw [List.takeWhile_append_of_pos hd, List.dropWhile_append_of_pos hd]
  cases rest with
  | nil => simp
  | cons c cs => simp [hr c (by simp)]

theorem sign_of_minus (hm : minus = [] ∨ minus = ['-']) (hr : ∀ c ∈ rest.head?, c ≠ '-') :
    sign (minus ++ rest) = (minus, rest) := by
  rcases hm with rfl | rfl
  · unfold sign
    split
    · exact absurd rfl (hr '-' (by simp_all))
    · rfl
  · rfl

theorem fraction_of_point (hd : ∀ c ∈ ds, c.isDigit = true)
    (hr : ∀ c ∈ rest.head?, c.isDigit = false) :
    fraction ('.' :: (ds ++ rest)) = ('.' :: ds, rest) := by
  simp [fraction, digits_of_forall hd hr]

theorem fraction_of_ne (hr : ∀ c ∈ rest.head?, c ≠ '.') : fraction rest = ([], rest) := by
  unfold fraction
  split
  · exact absurd rfl (hr '.' (by simp))
  · rfl

theorem exponent_of_caret (hm : minus = [] ∨ minus = ['-']) (hd : ∀ c ∈ ds, c.isDigit = true)
    (hr : Detached rest) :
    exponent .power ('^' :: (minus ++ ds ++ rest)) = ('^' :: (minus ++ ds), rest) := by
  have hsign : sign (minus ++ (ds ++ rest)) = (minus, ds ++ rest) := by
    refine sign_of_minus hm fun c hc => ?_
    cases ds with
    | nil => exact (hr.head hc).ne_minus
    | cons d ds =>
      obtain rfl : d = c := by simpa using hc
      rintro rfl
      exact absurd (hd '-' (by simp)) (by decide)
  simp [exponent, hsign, digits_of_forall hd fun c hc => (hr.head hc).isDigit]

theorem exponent_of_ne (hr : ∀ c ∈ rest.head?, c ≠ '^') : exponent caret rest = ([], rest) := by
  unfold exponent
  split
  · exact absurd rfl (hr '^' (by simp))
  · rfl

/-- Digits that no prefix of another base turns into something else. -/
theorem unsigned_of_digits (hne : ds ≠ []) (hd : ∀ c ∈ ds, c.isDigit = true)
    (ht : ∀ c ∈ tail.head?, c.isDigit = false ∧ c ≠ 'x' ∧ c ≠ 'b') :
    unsigned caret (ds ++ tail) =
      (if (exponent caret (fraction tail).2).1 ≠ [] then .power
        else if (fraction tail).1 ≠ [] then .decimal else .integer,
        ds ++ (fraction tail).1 ++ (exponent caret (fraction tail).2).1,
        (exponent caret (fraction tail).2).2) := by
  -- the second character is a digit or begins the tail
  have hsecond : ∀ c cs, ds ++ tail = '0' :: c :: cs → c ≠ 'x' ∧ c ≠ 'b' := by
    intro c cs h
    obtain ⟨d, ds, rfl⟩ := List.exists_cons_of_ne_nil hne
    cases ds with
    | nil =>
      rw [List.singleton_append, List.cons.injEq] at h
      exact (ht c (by simp [h.2])).2
    | cons d' ds =>
      simp only [List.cons_append, List.cons.injEq] at h
      have hc := hd c (by simp [h.2.1])
      constructor <;> rintro rfl <;> exact absurd hc (by decide)
  unfold unsigned
  split
  · rename_i cs h
    exact absurd rfl (hsecond 'x' cs h).1
  · rename_i cs h
    exact absurd rfl (hsecond 'b' cs h).2
  · rw [digits_of_forall hd fun c hc => (ht c hc).1]

/-- A point or a caret goes on with a number, but is no digit and no prefix. -/
theorem head_of_mark {mark : Char} (hm : mark = '.' ∨ mark = '^') :
    ∀ c ∈ (mark :: tail).head?, c.isDigit = false ∧ c ≠ 'x' ∧ c ≠ 'b' := by
  intro c hc
  obtain rfl : mark = c := by simpa using hc
  rcases hm with rfl | rfl <;> decide

/-- Nothing of what follows belongs to a number. -/
theorem tail_of_detached (caret : Caret) (hr : Detached rest) :
    fraction rest = ([], rest) ∧ exponent caret rest = ([], rest) :=
  ⟨fraction_of_ne fun _ hc => (hr.head hc).ne_point,
    exponent_of_ne fun _ hc => (hr.head hc).ne_caret⟩

theorem unsigned_of_bare {f : Literal.Format} {body : List Char} (h : Literal.Bare f body)
    (hf : f = .power → caret = .power) (hr : Detached rest) :
    unsigned caret (body ++ rest) = (f, body, rest) := by
  have hdigit : ∀ c ∈ rest.head?, c.isDigit = false := fun c hc => (hr.head hc).isDigit
  obtain ⟨hpoint, hcaret⟩ := tail_of_detached caret hr
  cases h with
  | @integer ds hne hd =>
    have hx : ∀ c ∈ rest.head?, c.isDigit = false ∧ c ≠ 'x' ∧ c ≠ 'b' := by
      intro c hc
      have hhead := hr.head hc
      refine ⟨hhead.isDigit, ?_, ?_⟩ <;> rintro rfl <;> exact absurd hhead.isAlpha (by decide)
    rw [unsigned_of_digits hne hd hx, hpoint, hcaret]
    simp
  | @decimal ds es hds he =>
    obtain ⟨hne, hd⟩ := hds
    rw [List.append_assoc, List.cons_append, unsigned_of_digits hne hd (head_of_mark (.inl rfl)),
      fraction_of_point he hdigit, hcaret]
    simp
  | @binary ds hd =>
    have hb : ∀ c ∈ rest.head?, Digit.isBinary c = false := by
      intro c hc
      have h0 := hdigit c hc
      simp only [Digit.isBinary, Bool.or_eq_false_iff, decide_eq_false_iff_not]
      constructor <;> rintro rfl <;> exact absurd h0 (by decide)
    simp [unsigned, digits_of_forall hd hb]
  | @hexadecimal ds hd =>
    have hx : ∀ c ∈ rest.head?, Digit.isHex c = false := fun c hc => (hr.head hc).isHex
    simp [unsigned, digits_of_forall hd hx]
  | @power g base minus es hg hbase hm he =>
    obtain rfl := hf rfl
    have hexp := exponent_of_caret hm he hr
    rcases hg with rfl | rfl
    · obtain ⟨hne, hd⟩ := hbase
      have hno : fraction ('^' :: (minus ++ es ++ rest)) = ([], '^' :: (minus ++ es ++ rest)) :=
        fraction_of_ne (by simp)
      rw [List.append_assoc, List.cons_append, unsigned_of_digits hne hd (head_of_mark (.inr rfl)),
        hno, hexp]
      simp
    · cases hbase with
      | @decimal ds fs hds hfs =>
        obtain ⟨hne, hd⟩ := hds
        have hfrac : fraction ('.' :: (fs ++ '^' :: (minus ++ es ++ rest))) =
            ('.' :: fs, '^' :: (minus ++ es ++ rest)) := fraction_of_point hfs (by simp)
        have hsplit : ds ++ '.' :: fs ++ '^' :: (minus ++ es) ++ rest =
            ds ++ '.' :: (fs ++ '^' :: (minus ++ es ++ rest)) := by simp
        rw [hsplit, unsigned_of_digits hne hd (head_of_mark (.inl rfl)), hfrac, hexp]
        simp

/-- A spelling is read as a whole, in its format. -/
theorem signed_of_spells {f : Literal.Format} {cs : List Char} (h : Literal.Spells f cs)
    (hf : f = .power → caret = .power) (hr : Detached rest) :
    signed caret (cs ++ rest) = (f, cs, rest) := by
  obtain ⟨minus, body, hm, hbody, rfl⟩ := h
  have hne : ∀ c ∈ (body ++ rest).head?, c ≠ '-' := by
    obtain ⟨d, ds, rfl, hd⟩ := hbody.exists_digit
    intro c hc
    obtain rfl : d = c := by simpa using hc
    rintro rfl
    exact absurd hd (by decide)
  simp only [signed, List.append_assoc, sign_of_minus hm hne, unsigned_of_bare hbody hf hr]

end Number

end Reckoner
