import Reckoner.Proofs.Token.Language

/-!
# Pieces

A piece that is cut off a text is a number, a name or a call, a bracket or an operator, or
a stray character, which may come after a number or a name that is given up.

* `Piece.IsHead`: these cases with what the text says in each of them. They are the pieces
  that the lexer cuts off, and no others (`Piece.isHead_iff`);
* `Piece.IsHead.givesUp`: what is given up before a token of each kind;
* `Piece.IsHead.written_item`: the characters of a piece are those of its token;
* `Piece.IsHead.isBlank_of_mem`: no blank is part of a piece.
-/

namespace Reckoner

/-! ## Cases -/

namespace Piece

/-- The piece at the head of a text that begins with `c`, no blank. -/
inductive IsHead (caret : Caret) (signs : Bool) (c : Char) (cs : List Char) : Piece → Prop
  | number {f : Literal.Format} {taken rest : List Char} : startsNumber signs c cs = true →
      Number.signed caret (c :: cs) = (f, taken, rest) →
      (∀ d ∈ rest.head?, caret.ends d = true) → IsHead caret signs c cs ⟨.literal f, [], taken, rest⟩
  | strayInNumber {f : Literal.Format} {taken rest : List Char} {d : Char} :
      startsNumber signs c cs = true → Number.signed caret (c :: cs) = (f, taken, d :: rest) →
      caret.ends d = false → IsHead caret signs c cs ⟨.strayInNumber, taken, [d], rest⟩
  | name {letters rest : List Char} : IsWord letters → c :: cs = letters ++ rest →
      (∀ d ∈ rest.head?, caret.ends d = true) → IsHead caret signs c cs ⟨.name, [], letters, rest⟩
  | strayInName {letters rest : List Char} {d : Char} : IsWord letters →
      c :: cs = letters ++ d :: rest → d.isAlpha = false → d ≠ '(' → caret.ends d = false →
      IsHead caret signs c cs ⟨.strayInName, letters, [d], rest⟩
  | call {letters rest : List Char} : IsWord letters → c :: cs = letters ++ '(' :: rest →
      IsHead caret signs c cs
        ⟨.ofOpener (String.ofList (letters ++ ['('])), [], letters ++ ['('], rest⟩
  | opening : c = '(' → IsHead caret signs c cs ⟨.opening, [], ['('], cs⟩
  | closing : c = ')' → IsHead caret signs c cs ⟨.closing, [], [')'], cs⟩
  | operator {op : Operator} : startsNumber signs c cs = false → caret.operator? c = some op →
      IsHead caret signs c cs ⟨.operator op, [], [op.char], cs⟩
  | strayCharacter : startsNumber signs c cs = false → c.isAlpha = false → c ≠ '(' → c ≠ ')' →
      caret.operator? c = none → IsHead caret signs c cs ⟨.strayCharacter, [], [c], cs⟩

variable {caret : Caret} {signs : Bool} {kind stray : Token.Kind} {taken rest : List Char}
  {c : Char} {cs : List Char} {p : Piece}

theorem closed_cases (caret : Caret) (kind stray : Token.Kind) (taken rest : List Char) :
    ((∀ d ∈ rest.head?, caret.ends d = true) ∧
      closed caret kind stray taken rest = ⟨kind, [], taken, rest⟩) ∨
    ∃ d ds, rest = d :: ds ∧ caret.ends d = false ∧
      closed caret kind stray taken rest = ⟨stray, taken, [d], ds⟩ := by
  cases rest with
  | nil => exact .inl ⟨by simp, rfl⟩
  | cons d ds =>
    cases h : caret.ends d with
    | true => exact .inl ⟨by simpa using h, by simp [closed, h]⟩
    | false => exact .inr ⟨d, ds, rfl, h, by simp [closed, h]⟩

theorem closed_of_ends (h : ∀ d ∈ rest.head?, caret.ends d = true) :
    closed caret kind stray taken rest = ⟨kind, [], taken, rest⟩ := by
  cases rest with
  | nil => rfl
  | cons d ds => simp [closed, h d rfl]

theorem operator?_char {op : Operator} (h : caret.operator? c = some op) : c = op.char := by
  unfold Caret.operator? at h
  split at h
  · split_ifs at h
    obtain rfl := Option.some.inj h
    exact Operator.char_eq_of_ofChar? (by assumption)
  · exact Operator.char_eq_of_ofChar? h

/-- A character that stands for an operator is no letter and no bracket. -/
theorem operator?_ne {op : Operator} (h : caret.operator? c = some op) :
    c.isAlpha = false ∧ c ≠ '(' ∧ c ≠ ')' := by
  obtain rfl := operator?_char h
  cases op <;> decide

theorem isHead_number (h : startsNumber signs c cs = true) :
    IsHead caret signs c cs (number caret (c :: cs)) := by
  obtain ⟨f, taken, rest, hs⟩ : ∃ f taken rest,
      Number.signed caret (c :: cs) = (f, taken, rest) := ⟨_, _, _, rfl⟩
  have hnumber : number caret (c :: cs) = closed caret (.literal f) .strayInNumber taken rest := by
    rw [number, hs]
  rw [hnumber]
  rcases closed_cases caret (.literal f) .strayInNumber taken rest with
    ⟨hends, heq⟩ | ⟨d, ds, rfl, hd, heq⟩
  · rw [heq]
    exact .number h hs hends
  · rw [heq]
    exact .strayInNumber h hs hd

theorem isHead_word (h : c.isAlpha = true) : IsHead caret signs c cs (word caret (c :: cs)) := by
  obtain ⟨letters, rest, htake, hdrop⟩ : ∃ letters rest,
      (c :: cs).takeWhile Char.isAlpha = letters ∧ (c :: cs).dropWhile Char.isAlpha = rest :=
    ⟨_, _, rfl, rfl⟩
  have htext : c :: cs = letters ++ rest := by
    rw [← htake, ← hdrop, List.takeWhile_append_dropWhile]
  have hword : IsWord letters :=
    ⟨by rw [← htake]; simp [h], fun d hd => List.mem_takeWhile_imp (htake ▸ hd)⟩
  have hnext : ∀ d ∈ rest.head?, d.isAlpha = false := by
    intro d hd
    have := List.head?_dropWhile_not Char.isAlpha (c :: cs)
    rw [hdrop, Option.mem_def.mp hd] at this
    exact this
  unfold word
  simp only [htake, hdrop]
  split
  · exact .call hword htext
  · rename_i hbracket
    rcases closed_cases caret .name .strayInName letters rest with
      ⟨hends, heq⟩ | ⟨d, ds, rfl, hd, heq⟩
    · rw [heq]
      exact .name hword htext hends
    · rw [heq]
      refine .strayInName hword htext (hnext d rfl) ?_ hd
      rintro rfl
      exact hbracket ds rfl

theorem isHead_head (caret : Caret) (signs : Bool) (c : Char) (cs : List Char) :
    IsHead caret signs c cs (head caret signs c cs) := by
  unfold head
  split_ifs with hstart halpha hopening hclosing
  · exact isHead_number hstart
  · exact isHead_word halpha
  · rw [hopening]
    exact .opening rfl
  · rw [hclosing]
    exact .closing rfl
  · rw [Bool.not_eq_true] at hstart halpha
    split
    · rename_i op hop
      obtain rfl := operator?_char hop
      exact .operator hstart hop
    · rename_i hop
      exact .strayCharacter hstart halpha hopening hclosing hop

theorem word_of_isWord {letters : List Char} (hw : IsWord letters)
    (hr : ∀ d ∈ rest.head?, d.isAlpha = false ∧ d ≠ '(') :
    word caret (letters ++ rest) = closed caret .name .strayInName letters rest := by
  obtain ⟨htake, hdrop⟩ := Prod.mk.inj (Number.digits_of_forall hw.2 fun d hd => (hr d hd).1)
  simp only [word, htake, hdrop]
  split
  · exact absurd rfl (hr '(' rfl).2
  · rfl

theorem word_of_bracket {letters : List Char} (hw : IsWord letters) :
    word caret (letters ++ '(' :: rest) =
      ⟨.ofOpener (String.ofList (letters ++ ['('])), [], letters ++ ['('], rest⟩ := by
  have hbracket : ∀ d ∈ ('(' :: rest).head?, d.isAlpha = false := by simp
  obtain ⟨htake, hdrop⟩ := Prod.mk.inj (Number.digits_of_forall hw.2 hbracket)
  simp only [word, htake, hdrop]

theorem ends_ne {d : Char} (h : caret.ends d = true) : d.isAlpha = false ∧ d ≠ '(' := by
  simp only [Caret.ends, Bool.or_eq_true, decide_eq_true_eq] at h
  rcases h with (hblank | rfl) | hop
  · refine ⟨?_, ?_⟩
    · by_contra halpha
      rw [Bool.not_eq_false] at halpha
      rw [isBlank_eq_false (.inr halpha)] at hblank
      cases hblank
    · rintro rfl
      cases hblank
  · decide
  · obtain ⟨op, hop⟩ := Option.isSome_iff_exists.mp hop
    exact ⟨(operator?_ne hop).1, (operator?_ne hop).2.1⟩

theorem IsHead.eq_head (h : IsHead caret signs c cs p) : head caret signs c cs = p := by
  have hword {letters tail : List Char} (hw : IsWord letters) (htext : c :: cs = letters ++ tail) :
      head caret signs c cs = word caret (letters ++ tail) := by
    obtain ⟨d, ds, rfl⟩ := List.exists_cons_of_ne_nil hw.1
    obtain ⟨rfl, rfl⟩ := List.cons.inj htext
    exact head_of_isAlpha (hw.2 c List.mem_cons_self)
  cases h with
  | number hstart hs hends =>
    rw [head, if_pos hstart, Piece.number, hs]
    exact closed_of_ends hends
  | strayInNumber hstart hs hd =>
    rw [head, if_pos hstart, Piece.number, hs]
    simp [closed, hd]
  | name hw htext hends =>
    rw [hword hw htext, word_of_isWord hw fun d hd => ends_ne (hends d hd)]
    exact closed_of_ends hends
  | strayInName hw htext halpha hbracket hd =>
    rw [hword hw htext, word_of_isWord hw (by simpa using ⟨halpha, hbracket⟩)]
    simp [closed, hd]
  | call hw htext => rw [hword hw htext, word_of_bracket hw]
  | opening hc =>
    subst hc
    simp [head, startsNumber, single]
  | closing hc =>
    subst hc
    simp [head, startsNumber, single]
  | operator hstart hop =>
    obtain ⟨halpha, hopening, hclosing⟩ := operator?_ne hop
    rw [← operator?_char hop]
    simp [head, hstart, halpha, hopening, hclosing, hop, single]
  | strayCharacter hstart halpha hopening hclosing hop =>
    simp [head, hstart, halpha, hopening, hclosing, hop, single]

/-- The lexer cuts off the pieces of these cases and no others. -/
theorem isHead_iff : IsHead caret signs c cs p ↔ head caret signs c cs = p :=
  ⟨fun h => h.eq_head, fun h => h ▸ isHead_head caret signs c cs⟩

end Piece

/-! ## What is given up -/

/-- A digit, or a minus sign with a digit, comes first. -/
def BeginsNumber (cs : List Char) : Prop :=
  ∃ d ds, cs = d :: ds ∧ (d.isDigit = true ∨ d = '-' ∧ ds.head?.any Char.isDigit = true)

/-- What may be given up before a token: before a stray in a number the characters of that
    number, before a stray in a name the letters of that name, and nothing before others. -/
def Token.Kind.GivesUp (kind : Token.Kind) (dropped : List Char) : Prop :=
  match kind with
  | .strayInNumber => BeginsNumber dropped ∧ ∀ c ∈ dropped, isBlank c = false
  | .strayInName => IsWord dropped
  | _ => dropped = []

theorem Token.Kind.givesUp_ofOpener (text : String) : (ofOpener text).GivesUp [] := by
  rcases ofOpener_cases text with ⟨f, h⟩ | h <;> rw [h] <;> rfl

theorem isBlank_of_isHex {c : Char} (h : Digit.isHex c = true) : isBlank c = false := by
  by_contra hb
  simp only [isBlank, Bool.not_eq_false, Bool.or_eq_true, decide_eq_true_eq] at hb
  rcases hb with (((rfl | rfl) | rfl) | rfl) | rfl <;> revert h <;> decide

theorem IsWord.isBlank_of_mem {cs : List Char} (h : IsWord cs) : ∀ c ∈ cs, isBlank c = false :=
  fun c hc => isBlank_eq_false (.inr (h.2 c hc))

namespace Literal

theorem Bare.isBlank_of_mem {f : Format} {cs : List Char} (h : Bare f cs) :
    ∀ c ∈ cs, isBlank c = false := by
  have hdigits {ds : List Char} (hd : ∀ c ∈ ds, c.isDigit = true) :
      ∀ c ∈ ds, isBlank c = false := fun c hc => isBlank_eq_false (.inl (hd c hc))
  induction h with
  | integer _ hd => exact hdigits hd
  | decimal _ he ih =>
    exact List.forall_mem_append.mpr ⟨ih, List.forall_mem_cons.mpr ⟨rfl, hdigits he⟩⟩
  | binary hd =>
    refine List.forall_mem_cons.mpr ⟨rfl, List.forall_mem_cons.mpr ⟨rfl, fun c hc => ?_⟩⟩
    have hc := hd c hc
    simp only [Digit.isBinary, Bool.or_eq_true, decide_eq_true_eq] at hc
    rcases hc with rfl | rfl <;> rfl
  | hexadecimal hd =>
    exact List.forall_mem_cons.mpr
      ⟨rfl, List.forall_mem_cons.mpr ⟨rfl, fun c hc => isBlank_of_isHex (hd c hc)⟩⟩
  | power _ _ hm he ih =>
    refine List.forall_mem_append.mpr ⟨ih, List.forall_mem_cons.mpr ⟨rfl, ?_⟩⟩
    refine List.forall_mem_append.mpr ⟨?_, hdigits he⟩
    rcases hm with rfl | rfl <;> simp [isBlank]

/-- A spelling has no blanks. -/
theorem Spells.isBlank_of_mem {f : Format} {cs : List Char} (h : Spells f cs) :
    ∀ c ∈ cs, isBlank c = false := by
  obtain ⟨minus, body, hm, hbody, rfl⟩ := h
  refine List.forall_mem_append.mpr ⟨?_, hbody.isBlank_of_mem⟩
  rcases hm with rfl | rfl <;> simp [isBlank]

/-- A spelling begins with a digit, or with a sign and a digit. -/
theorem Spells.beginsNumber {f : Format} {cs : List Char} (h : Spells f cs) :
    BeginsNumber cs := by
  obtain ⟨minus, body, hm, hbody, rfl⟩ := h
  obtain ⟨d, ds, rfl, hd⟩ := hbody.exists_digit
  rcases hm with rfl | rfl
  · exact ⟨d, ds, rfl, .inl hd⟩
  · exact ⟨'-', d :: ds, rfl, .inr ⟨rfl, by simpa using hd⟩⟩

end Literal

namespace Piece

variable {caret : Caret} {signs : Bool} {c : Char} {cs : List Char} {p : Piece}

theorem IsHead.givesUp (h : IsHead caret signs c cs p) : p.kind.GivesUp p.dropped := by
  cases h with
  | strayInNumber hstart hs =>
    have hspells := (Number.spells_signed caret hstart).1
    rw [hs] at hspells
    exact ⟨hspells.beginsNumber, hspells.isBlank_of_mem⟩
  | strayInName hw => exact hw
  | call => exact Token.Kind.givesUp_ofOpener _
  | number | name | opening | closing | operator | strayCharacter => rfl

/-! ## The characters of tokens -/

/-- A token is written with the characters of its piece. -/
theorem IsHead.written_item (h : IsHead caret signs c cs p) : p.item.written = p.lexeme := by
  cases h with
  | call =>
    rw [item, Token.Kind.keepsText_ofOpener, if_pos rfl]
    rcases Token.Kind.ofOpener_cases _ with ⟨f, hf⟩ | hf <;> rw [hf] <;>
      exact String.toList_ofList
  | number | strayInNumber | name | strayInName | strayCharacter => exact String.toList_ofList
  | opening | closing | operator => rfl

theorem isBlank_of_ends {d : Char} (h : caret.ends d = false) : isBlank d = false := by
  simp only [Caret.ends, Bool.or_eq_false_iff] at h
  exact h.1.1

/-- No blank is part of a piece. -/
theorem IsHead.isBlank_of_mem (hc : isBlank c = false) (h : IsHead caret signs c cs p) :
    ∀ d ∈ p.dropped ++ p.lexeme, isBlank d = false := by
  cases h with
  | number hstart hs =>
    have hspells := (Number.spells_signed caret hstart).1
    rw [hs] at hspells
    exact hspells.isBlank_of_mem
  | strayInNumber hstart hs hd =>
    have hspells := (Number.spells_signed caret hstart).1
    rw [hs] at hspells
    refine List.forall_mem_append.mpr ⟨hspells.isBlank_of_mem, ?_⟩
    simpa using isBlank_of_ends hd
  | name hw => exact hw.isBlank_of_mem
  | strayInName hw _ _ _ hd =>
    exact List.forall_mem_append.mpr ⟨hw.isBlank_of_mem, by simpa using isBlank_of_ends hd⟩
  | @call letters rest hw =>
    show ∀ d ∈ letters ++ ['('], _
    exact List.forall_mem_append.mpr ⟨hw.isBlank_of_mem, List.forall_mem_singleton.mpr rfl⟩
  | opening | closing => simp [isBlank]
  | @operator op => cases op <;> simp [isBlank, Operator.char]
  | strayCharacter => simpa using hc

end Piece

end Reckoner
