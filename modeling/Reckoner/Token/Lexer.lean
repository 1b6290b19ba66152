import Reckoner.Token
import Reckoner.Digit

/-!
# Reading tokens

The source is read from left to right. Blanks are skipped, and at every other
character a `Piece` is cut off the text: characters that are given up, the
characters of one token, and the text that follows. Nothing in the source makes
reading fail, because a character that fits nowhere becomes a token of its own.

* `Piece.head` cuts one piece, and `Piece.parts_head` says that its parts are the
  text again;
* `Lexer.next?` reads one token, and each token shortens the text
  (`Lexer.length_rest_of_next?`);
* `tokenize` is the whole token list of a source.

All classes of characters are ASCII classes. Offsets count bytes of UTF-8.
-/

namespace Reckoner

/-- The meaning of the caret in a source. -/
inductive Caret
  /-- it joins the base and the exponent of a literal and is no operator -/
  | power
  /-- it is the operator for exclusive or and part of no literal -/
  | xor
deriving DecidableEq, Repr, Inhabited

/-! ## Classes of characters -/

/-- The blanks: space, tab, line feed, form feed and carriage return. -/
def isBlank (c : Char) : Bool :=
  c = ' ' || c = '\t' || c = '\n' || c = '\x0c' || c = '\r'

/-- The operator that a character stands for, given the meaning of the caret. -/
def Caret.operator? (caret : Caret) (c : Char) : Option Operator :=
  match Operator.ofChar? c with
  | some .xor => if caret = .xor then some .xor else none
  | found => found

/-- Whether a number or a name may end before a character. -/
def Caret.ends (caret : Caret) (c : Char) : Bool :=
  isBlank c || c = ')' || (caret.operator? c).isSome

/-- The number of bytes that characters take in UTF-8. -/
def byteLength : List Char → Nat
  | [] => 0
  | c :: cs => c.utf8Size + byteLength cs

theorem byteLength_append (cs ds : List Char) :
    byteLength (cs ++ ds) = byteLength cs + byteLength ds := by
  induction cs with
  | nil => simp [byteLength]
  | cons c cs ih => simp only [List.cons_append, byteLength, ih, Nat.add_assoc]

theorem byteLength_toList (s : String) : byteLength s.toList = s.utf8ByteSize := by
  have h (cs : List Char) : byteLength cs = (String.ofList cs).utf8ByteSize := by
    induction cs with
    | nil => simp [byteLength]
    | cons c cs ih =>
      rw [byteLength, ih, ← List.singleton_append, String.ofList_append,
        String.utf8ByteSize_append, ← String.singleton_eq_ofList, String.utf8ByteSize_singleton]
  rw [h, String.ofList_toList]

/-! ## Numbers -/

namespace Number

/-- Splits off a minus sign. -/
def sign : List Char → List Char × List Char
  | '-' :: cs => (['-'], cs)
  | cs => ([], cs)

/-- Splits off the digits of a class. -/
def digits (isDigit : Char → Bool) (cs : List Char) : List Char × List Char :=
  (cs.takeWhile isDigit, cs.dropWhile isDigit)

/-- Splits off a point with the digits after it. -/
def fraction : List Char → List Char × List Char
  | '.' :: cs => ('.' :: (digits Char.isDigit cs).1, (digits Char.isDigit cs).2)
  | cs => ([], cs)

/-- Splits off a caret with the exponent after it, where carets join literals. -/
def exponent (caret : Caret) : List Char → List Char × List Char
  | '^' :: cs =>
    if caret = .power then
      let (minus, body) := sign cs
      let (power, rest) := digits Char.isDigit body
      ('^' :: minus ++ power, rest)
    else ([], '^' :: cs)
  | cs => ([], cs)

/-- Splits off the longest number without a sign, and tells its format. -/
def unsigned (caret : Caret) : List Char → Literal.Format × List Char × List Char
  | '0' :: 'x' :: cs =>
    let (ds, rest) := digits Digit.isHex cs
    (.hexadecimal, '0' :: 'x' :: ds, rest)
  | '0' :: 'b' :: cs =>
    let (ds, rest) := digits Digit.isBinary cs
    (.binary, '0' :: 'b' :: ds, rest)
  | cs =>
    let (whole, r) := digits Char.isDigit cs
    let (point, r) := fraction r
    let (power, r) := exponent caret r
    let format := if power ≠ [] then .power else if point ≠ [] then .decimal else .integer
    (format, whole ++ point ++ power, r)

/-- Splits off the longest number, and tells its format. -/
def signed (caret : Caret) (cs : List Char) : Literal.Format × List Char × List Char :=
  let (minus, body) := sign cs
  let (format, taken, rest) := unsigned caret body
  (format, minus ++ taken, rest)

end Number

/-! ## Pieces -/

/-- What is cut off the text at once. -/
structure Piece where
  /-- the kind of the token -/
  kind : Token.Kind
  /-- the characters before the token that are given up -/
  dropped : List Char
  /-- the characters of the token -/
  lexeme : List Char
  /-- the text after the token -/
  rest : List Char
deriving DecidableEq, Repr

namespace Piece

/-- The text that the piece was cut off. -/
def parts (p : Piece) : List Char := p.dropped ++ p.lexeme ++ p.rest

/-- A piece of one character. -/
def single (kind : Token.Kind) (c : Char) (rest : List Char) : Piece := ⟨kind, [], [c], rest⟩

/-- A number or name that must end where `rest` begins. If it cannot end there, it is
    given up, and the next character is the token. -/
def closed (caret : Caret) (kind stray : Token.Kind) (taken : List Char) : List Char → Piece
  | [] => ⟨kind, [], taken, []⟩
  | c :: rest =>
    if caret.ends c then ⟨kind, [], taken, c :: rest⟩ else ⟨stray, taken, [c], rest⟩

/-- The piece at a number. -/
def number (caret : Caret) (cs : List Char) : Piece :=
  let (format, taken, rest) := Number.signed caret cs
  closed caret (.literal format) .strayInNumber taken rest

/-- The piece at a name. A bracket right after the name makes it a call. -/
def word (caret : Caret) (cs : List Char) : Piece :=
  let letters := cs.takeWhile Char.isAlpha
  match cs.dropWhile Char.isAlpha with
  | '(' :: rest =>
    let opener := letters ++ ['(']
    ⟨.ofOpener (String.ofList opener), [], opener, rest⟩
  | rest => closed caret .name .strayInName letters rest

/-- Whether a number begins here. A minus sign begins one only where a sign may stand,
    and only right before a digit. -/
def startsNumber (signs : Bool) (c : Char) (cs : List Char) : Bool :=
  c.isDigit || (c = '-' && signs && cs.head?.any Char.isDigit)

/-- The piece at the head of a text that begins with `c`, no blank. -/
def head (caret : Caret) (signs : Bool) (c : Char) (cs : List Char) : Piece :=
  if startsNumber signs c cs then number caret (c :: cs)
  else if c.isAlpha then word caret (c :: cs)
  else if c = '(' then single .opening c cs
  else if c = ')' then single .closing c cs
  else
    match caret.operator? c with
    | some op => single (.operator op) c cs
    | none => single .strayCharacter c cs

/-- The token of a piece that was cut off at an offset. -/
def token (p : Piece) (offset : Nat) : Token :=
  let start := offset + byteLength p.dropped
  { kind := p.kind
    text := if p.kind.keepsText then String.ofList p.lexeme else ""
    span := ⟨start, start + byteLength p.lexeme⟩ }

/-! ### The parts of a piece -/

end Piece

namespace Number

theorem sign_append (cs : List Char) : (sign cs).1 ++ (sign cs).2 = cs := by
  unfold sign; split <;> rfl

theorem digits_append (p : Char → Bool) (cs : List Char) :
    (digits p cs).1 ++ (digits p cs).2 = cs := List.takeWhile_append_dropWhile

theorem fraction_append (cs : List Char) : (fraction cs).1 ++ (fraction cs).2 = cs := by
  unfold fraction
  split
  · simp [digits_append]
  · rfl

theorem exponent_append (caret : Caret) (cs : List Char) :
    (exponent caret cs).1 ++ (exponent caret cs).2 = cs := by
  unfold exponent
  split
  · rename_i cs
    split
    · simp [digits_append, sign_append]
    · rfl
  · rfl

theorem unsigned_append (caret : Caret) (cs : List Char) :
    (unsigned caret cs).2.1 ++ (unsigned caret cs).2.2 = cs := by
  unfold unsigned
  split
  · simp [digits_append]
  · simp [digits_append]
  · simp [exponent_append, fraction_append, digits_append]

theorem signed_append (caret : Caret) (cs : List Char) :
    (signed caret cs).2.1 ++ (signed caret cs).2.2 = cs := by
  simp [signed, unsigned_append, sign_append]

/-- A number that begins with a sign or a digit takes at least that character. -/
theorem signed_ne_nil {caret : Caret} {c : Char} {cs : List Char}
    (h : c = '-' ∨ c.isDigit) : (signed caret (c :: cs)).2.1 ≠ [] := by
  rcases h with rfl | h
  · simp [signed, sign]
  · have hc : c ≠ '-' := by rintro rfl; exact absurd h (by decide)
    have hs : sign (c :: cs) = ([], c :: cs) := by
      unfold sign; split <;> simp_all
    simp only [signed, hs, List.nil_append]
    unfold unsigned
    split
    · simp
    · simp
    · simp [digits, h]

end Number

namespace Piece

theorem parts_closed (caret : Caret) (kind stray : Token.Kind) (taken rest : List Char) :
    (closed caret kind stray taken rest).parts = taken ++ rest := by
  unfold closed
  split
  · simp [parts]
  · split <;> simp [parts]

theorem parts_number (caret : Caret) (cs : List Char) : (number caret cs).parts = cs := by
  simp [number, parts_closed, Number.signed_append]

theorem parts_word (caret : Caret) (cs : List Char) : (word caret cs).parts = cs := by
  have h : cs.takeWhile Char.isAlpha ++ cs.dropWhile Char.isAlpha = cs :=
    List.takeWhile_append_dropWhile
  unfold word
  simp only
  split
  · rename_i rest hr
    rw [hr] at h
    simpa [parts] using h
  · rw [parts_closed, h]

/-- Cutting a piece off a text loses nothing of the text. -/
theorem parts_head (caret : Caret) (signs : Bool) (c : Char) (cs : List Char) :
    (head caret signs c cs).parts = c :: cs := by
  unfold head
  split
  · exact parts_number ..
  split
  · exact parts_word ..
  split
  · rfl
  split
  · rfl
  split <;> rfl

theorem lexeme_closed_ne_nil {caret : Caret} {kind stray : Token.Kind} {taken rest : List Char}
    (h : taken ≠ []) : (closed caret kind stray taken rest).lexeme ≠ [] := by
  unfold closed
  split
  · exact h
  · split
    · exact h
    · simp

/-- Every token covers at least one character. -/
theorem lexeme_head_ne_nil (caret : Caret) (signs : Bool) (c : Char) (cs : List Char) :
    (head caret signs c cs).lexeme ≠ [] := by
  unfold head
  split
  · rename_i h
    refine lexeme_closed_ne_nil (Number.signed_ne_nil ?_)
    simp only [startsNumber, Bool.or_eq_true, Bool.and_eq_true, decide_eq_true_eq] at h
    exact h.symm.imp (·.1.1) id
  split
  · rename_i h
    unfold word
    simp only
    split
    · simp
    · exact lexeme_closed_ne_nil (by simp [h])
  split
  · simp [single]
  split
  · simp [single]
  split <;> simp [single]

theorem length_rest_head (caret : Caret) (signs : Bool) (c : Char) (cs : List Char) :
    (head caret signs c cs).rest.length < (c :: cs).length := by
  have h := congrArg List.length (parts_head caret signs c cs)
  have hl := List.length_pos_iff.2 (lexeme_head_ne_nil caret signs c cs)
  simp only [parts, List.length_append] at h
  omega

end Piece

/-! ## The lexer -/

/-- A position in a source: the text still to read, and what has to be known of the
    text before it. -/
structure Lexer where
  caret : Caret
  /-- the text still to read -/
  rest : List Char
  /-- the number of bytes read -/
  offset : Nat
  /-- the kind of the token read last -/
  previous : Option Token.Kind
deriving DecidableEq, Repr

namespace Lexer

/-- The beginning of a source. -/
def ofString (caret : Caret) (source : String) : Lexer := ⟨caret, source.toList, 0, none⟩

/-- Whether a minus sign may be the sign of a number here: at the beginning, and after
    an operator, a call or an opening bracket. Elsewhere it is the operator. -/
def allowsSign (l : Lexer) : Bool :=
  match l.previous with
  | none => true
  | some k => k.isOperator || k.opensLevel

/-- The position after the blanks. -/
def skipBlanks (l : Lexer) : Lexer :=
  { l with
    rest := l.rest.dropWhile isBlank
    offset := l.offset + byteLength (l.rest.takeWhile isBlank) }

/-- The next token with the position after it, or nothing at the end of the source. -/
def next? (l : Lexer) : Option (Token × Lexer) :=
  let l := l.skipBlanks
  match l.rest with
  | [] => none
  | c :: cs =>
    let piece := Piece.head l.caret l.allowsSign c cs
    let token := piece.token l.offset
    some (token, ⟨l.caret, piece.rest, token.span.stop, some piece.kind⟩)

/-- The next token with the position after it. At the end of the source that is its
    marker, again and again. -/
def next (l : Lexer) : Token × Lexer :=
  match l.next? with
  | some r => r
  | none => (.finish l.skipBlanks.offset, l.skipBlanks)

/-- A token is read as a piece of the text after the blanks. -/
theorem next?_eq_some {l l' : Lexer} {t : Token} (h : l.next? = some (t, l')) :
    ∃ c cs, l.skipBlanks.rest = c :: cs ∧
      t = (Piece.head l.caret l.allowsSign c cs).token l.skipBlanks.offset ∧
      l' = ⟨l.caret, (Piece.head l.caret l.allowsSign c cs).rest, t.span.stop, some t.kind⟩ := by
  simp only [next?] at h
  split at h
  · cases h
  · rename_i c cs hrest
    simp only [Option.some.injEq, Prod.mk.injEq] at h
    obtain ⟨rfl, rfl⟩ := h
    exact ⟨c, cs, hrest, rfl, rfl⟩

/-- Nothing is read only where the blanks are all that is left. -/
theorem rest_of_next?_none {l : Lexer} (h : l.next? = none) : l.skipBlanks.rest = [] := by
  simp only [next?] at h
  split at h
  · assumption
  · cases h

theorem length_rest_of_next? {l l' : Lexer} {t : Token} (h : l.next? = some (t, l')) :
    l'.rest.length < l.rest.length := by
  obtain ⟨c, cs, hrest, -, rfl⟩ := next?_eq_some h
  have hblanks : l.skipBlanks.rest.length ≤ l.rest.length :=
    (List.dropWhile_sublist isBlank).length_le
  rw [hrest] at hblanks
  exact Nat.lt_of_lt_of_le (Piece.length_rest_head ..) hblanks

/-- The tokens from here to the end of the source. -/
def tokens (l : Lexer) : List Token :=
  match _h : l.next? with
  | none => []
  | some (t, l') => t :: l'.tokens
termination_by l.rest.length
decreasing_by exact length_rest_of_next? _h

theorem tokens_of_next?_none {l : Lexer} (h : l.next? = none) : l.tokens = [] := by
  rw [tokens]; split <;> simp_all

theorem tokens_of_next?_some {l l' : Lexer} {t : Token} (h : l.next? = some (t, l')) :
    l.tokens = t :: l'.tokens := by
  rw [tokens]; split <;> simp_all

end Lexer

/-- The tokens of a source, without the marker of its end. -/
def tokenize (caret : Caret) (source : String) : List Token :=
  (Lexer.ofString caret source).tokens

end Reckoner
