import Reckoner.Proofs.Token.Spelling

/-!
# Cutting tokens off a text

Where the text begins with the characters of a token, and what follows is detached, the
lexer reads exactly that token.

* `Piece.Cuts`: the piece at a text has the characters `lexeme` and gives nothing up;
* `Piece.cuts_literal`, `Piece.cuts_name`, `Piece.cuts_opener`, `Piece.cuts_operator`,
  `Piece.cuts_opening`, `Piece.cuts_closing`: it does for every kind of token;
* `Lexer.reads_of_cuts`: then the lexer reads the token, after any blanks.
-/

namespace Reckoner

theorem isBlank_eq_false {c : Char} (h : c.isDigit = true ∨ c.isAlpha = true) :
    isBlank c = false := by
  by_contra hb
  simp only [isBlank, Bool.not_eq_false, Bool.or_eq_true, decide_eq_true_eq] at hb
  rcases hb with (((rfl | rfl) | rfl) | rfl) | rfl <;> revert h <;> decide

theorem isDigit_eq_false_of_isAlpha {c : Char} (h : c.isAlpha = true) : c.isDigit = false := by
  by_contra hd
  rw [Bool.not_eq_false, Char.isDigit_iff_toNat] at hd
  unfold Char.isAlpha Char.isUpper Char.isLower at h
  simp only [Bool.or_eq_true, Bool.and_eq_true, decide_eq_true_eq, ge_iff_le,
    UInt32.le_iff_toNat_le] at h
  have hc : c.toNat = c.val.toNat := rfl
  have h9 : '9'.toNat = 57 := rfl
  have hA : 'A'.val.toNat = 65 := rfl
  have ha : 'a'.val.toNat = 97 := rfl
  omega

namespace Piece

variable {caret : Caret} {signs : Bool} {kind stray : Token.Kind} {lexeme rest : List Char}

/-- At the text `lexeme ++ rest` a token is cut off with all characters of `lexeme` and no
    other. -/
def Cuts (caret : Caret) (signs : Bool) (kind : Token.Kind) (lexeme rest : List Char) : Prop :=
  ∃ c cs, lexeme = c :: cs ∧ isBlank c = false ∧
    head caret signs c (cs ++ rest) = ⟨kind, [], lexeme, rest⟩

theorem closed_of_detached (hr : Detached rest) :
    closed caret kind stray lexeme rest = ⟨kind, [], lexeme, rest⟩ := by
  cases rest with
  | nil => rfl
  | cons c cs => simp [closed, hr.ends caret (c := c) rfl]

/-! ## Brackets and operators -/

theorem cuts_opening : Cuts caret signs .opening ['('] rest :=
  ⟨'(', [], rfl, by decide, by simp [head, startsNumber, single]⟩

theorem cuts_closing : Cuts caret signs .closing [')'] rest :=
  ⟨')', [], rfl, by decide, by simp [head, startsNumber, single]⟩

/-- A minus sign before a detached text is the operator. -/
theorem cuts_operator {op : Operator} (hop : op = .xor → caret = .xor) (hr : Detached rest) :
    Cuts caret signs (.operator op) [op.char] rest := by
  refine ⟨op.char, [], rfl, by cases op <;> decide, ?_⟩
  have hstart : startsNumber signs op.char rest = false := by
    have hdigit : op.char.isDigit = false := by cases op <;> decide
    have hrest : rest.head?.any Char.isDigit = false := by
      cases rest with
      | nil => rfl
      | cons c cs => simp [(hr.head (c := c) rfl).isDigit]
    simp [startsNumber, hdigit, hrest]
  have halpha : op.char.isAlpha = false := by cases op <;> decide
  have hcaret : caret.operator? op.char = some op := by
    unfold Caret.operator?
    rw [Operator.ofChar?_char]
    cases op <;> simp_all
  have hopening : op.char ≠ '(' := by cases op <;> decide
  have hclosing : op.char ≠ ')' := by cases op <;> decide
  simp [head, hstart, halpha, hcaret, hopening, hclosing, single]

/-! ## Literals and names -/

/-- A spelling is cut off as a whole, where a sign that it has may stand. -/
theorem cuts_literal {f : Literal.Format} (h : Literal.Spells f lexeme)
    (hf : f = .power → caret = .power) (hs : lexeme.head? = some '-' → signs = true)
    (hr : Detached rest) : Cuts caret signs (.literal f) lexeme rest := by
  have hsigned := Number.signed_of_spells h hf hr
  obtain ⟨minus, body, hm, hbody, rfl⟩ := h
  obtain ⟨d, ds, rfl, hd⟩ := hbody.exists_digit
  rcases hm with rfl | rfl
  · refine ⟨d, ds, rfl, isBlank_eq_false (.inl hd), ?_⟩
    have hnumber : number caret (d :: (ds ++ rest)) = ⟨.literal f, [], d :: ds, rest⟩ := by
      rw [List.nil_append, List.cons_append] at hsigned
      simp [number, hsigned, closed_of_detached hr]
    simp [head, startsNumber, hd, hnumber]
  · refine ⟨'-', d :: ds, rfl, by decide, ?_⟩
    have hnumber : number caret ('-' :: (d :: ds ++ rest)) =
        ⟨.literal f, [], '-' :: d :: ds, rest⟩ := by
      rw [List.singleton_append, List.cons_append] at hsigned
      simp only [number, hsigned, closed_of_detached hr]
    have hstart : startsNumber signs '-' (d :: ds ++ rest) = true := by
      simp [startsNumber, hs rfl, hd]
    rw [head, if_pos hstart, hnumber]
    rfl

theorem startsNumber_of_isAlpha {c : Char} {cs : List Char} (h : c.isAlpha = true) :
    startsNumber signs c cs = false := by
  have hminus : c ≠ '-' := by rintro rfl; exact absurd h (by decide)
  simp [startsNumber, isDigit_eq_false_of_isAlpha h, hminus]

theorem head_of_isAlpha {c : Char} {cs : List Char} (h : c.isAlpha = true) :
    head caret signs c cs = word caret (c :: cs) := by
  simp [head, startsNumber_of_isAlpha h, h]

theorem cuts_name (hne : lexeme ≠ []) (ha : ∀ c ∈ lexeme, c.isAlpha = true) (hr : Detached rest) :
    Cuts caret signs .name lexeme rest := by
  obtain ⟨c, cs, rfl⟩ := List.exists_cons_of_ne_nil hne
  have hc := ha c (by simp)
  refine ⟨c, cs, rfl, isBlank_eq_false (.inr hc), ?_⟩
  have htake : (c :: cs ++ rest).takeWhile Char.isAlpha = c :: cs ∧
      (c :: cs ++ rest).dropWhile Char.isAlpha = rest := by
    exact Prod.mk.inj (Number.digits_of_forall ha fun c hc => (hr.head hc).isAlpha)
  rw [head_of_isAlpha hc, word, ← List.cons_append, htake.1, htake.2]
  dsimp only
  split
  · exact absurd rfl (hr.head (c := '(') rfl).ne_bracket
  · exact closed_of_detached hr

/-- A name with a bracket is a call, whatever follows. -/
theorem cuts_opener (hne : lexeme ≠ []) (ha : ∀ c ∈ lexeme, c.isAlpha = true) :
    Cuts caret signs (.ofOpener (String.ofList (lexeme ++ ['(']))) (lexeme ++ ['(']) rest := by
  obtain ⟨c, cs, rfl⟩ := List.exists_cons_of_ne_nil hne
  have hc := ha c (by simp)
  refine ⟨c, cs ++ ['('], rfl, isBlank_eq_false (.inr hc), ?_⟩
  have htake : (c :: cs ++ '(' :: rest).takeWhile Char.isAlpha = c :: cs ∧
      (c :: cs ++ '(' :: rest).dropWhile Char.isAlpha = '(' :: rest := by
    exact Prod.mk.inj (Number.digits_of_forall ha (by simp))
  rw [head_of_isAlpha hc, word, List.append_assoc, List.singleton_append, ← List.cons_append,
    htake.1, htake.2]
  rfl

end Piece

/-! ## Reading a token -/

namespace Lexer

variable {l l' l'' : Lexer} {ts us : List Token} {kind : Token.Kind} {blanks lexeme rest : List Char}

/-- From the first position to the second exactly these tokens are read. -/
def Reads (l : Lexer) (ts : List Token) (l' : Lexer) : Prop :=
  l.tokens = ts ++ l'.tokens ∧ l'.caret = l.caret

theorem Reads.trans (h : l.Reads ts l') (h' : l'.Reads us l'') : l.Reads (ts ++ us) l'' :=
  ⟨by rw [h.1, h'.1, List.append_assoc], h'.2.trans h.2⟩

theorem next?_of_skipBlanks {c : Char} {cs : List Char} (h : l.skipBlanks.rest = c :: cs) :
    let piece := Piece.head l.caret l.allowsSign c cs
    let token := piece.token l.skipBlanks.offset
    l.next? = some (token, ⟨l.caret, piece.rest, token.span.stop, some piece.kind⟩) := by
  simp only [next?, h]
  rfl

/-- Where a token can be cut off after blanks, it is the next one. -/
theorem reads_of_cuts (hb : ∀ c ∈ blanks, isBlank c = true)
    (hl : l.rest = blanks ++ (lexeme ++ rest))
    (h : Piece.Cuts l.caret l.allowsSign kind lexeme rest) :
    ∃ t l', l.Reads [t] l' ∧ t.kind = kind ∧
      t.text = (if kind.keepsText then String.ofList lexeme else "") ∧
      l'.rest = rest ∧ l'.previous = some kind := by
  obtain ⟨c, cs, rfl, hc, hhead⟩ := h
  have hskip : l.skipBlanks.rest = c :: (cs ++ rest) := by
    show l.rest.dropWhile isBlank = _
    rw [hl, List.dropWhile_append_of_pos hb]
    simp [hc]
  refine ⟨_, _, ⟨tokens_of_next?_some (next?_of_skipBlanks hskip), rfl⟩, ?_⟩
  rw [hhead]
  exact ⟨rfl, rfl, rfl, rfl⟩

theorem tokens_of_rest_nil (h : l.rest = []) : l.tokens = [] := by
  apply tokens_of_next?_none
  simp [next?, skipBlanks, h]

end Lexer

end Reckoner
