import Reckoner.Proofs.Token.Pieces
import Reckoner.Token.Cursor

/-!
# What tokens cover

Nothing of a source is lost without a trace. Between two tokens there are blanks, and what
is given up only before a stray character, which tells of it. A token with a text has the
characters of the source at its span, and the others stand at their symbols.

* `Between`: the characters of a text between two offsets;
* `Token.IsCutAt`: a token with what stands before it, and its span;
* `Lexer.StepsBy`: the blanks and the piece that a step of the lexer takes. The token of the
  piece is cut off there (`Lexer.StepsBy.isCutAt`);
* `Token.Cover`: the tokens of a whole text with all that stands between them
  (`Lexer.cover_tokens`), and from one token on (`Token.Cover.drop`);
* `tokenize_covers`: what the tokens of a source say about its bytes.
-/

namespace Reckoner

/-- The characters of a text between two offsets, which do not lie inside of characters. -/
def Between (cs : List Char) (start stop : Nat) (part : List Char) : Prop :=
  ∃ before after, cs = before ++ (part ++ after) ∧ start = byteLength before ∧
    stop = start + byteLength part

theorem byteLength_pos {cs : List Char} (h : cs ≠ []) : 0 < byteLength cs := by
  obtain ⟨c, cs, rfl⟩ := List.exists_cons_of_ne_nil h
  have := c.utf8Size_pos
  rw [byteLength]
  omega

namespace Token

/-! ## Tokens with what stands before them -/

/-- The characters of a token: its text, or the symbol of an operator or a bracket. -/
def written (t : Token) : List Char := (Item.ofToken t).written

/-- A token that is cut off a text at an offset, after blanks and what is given up. -/
structure IsCutAt (offset : Nat) (blanks dropped : List Char) (t : Token) : Prop where
  gap : ∀ c ∈ blanks, isBlank c = true
  givesUp : t.kind.GivesUp dropped
  /-- what comes after the blanks has none -/
  solid : ∀ c ∈ dropped ++ t.written, isBlank c = false
  written_ne_nil : t.written ≠ []
  symbol : t.kind.keepsText = false → t.text = "" ∧ t.span.length = 1
  start : t.span.start = offset + byteLength (blanks ++ dropped)
  stop : t.span.stop = t.span.start + byteLength t.written

/-- The tokens of a text from an offset on, with all that stands between them. -/
inductive Cover : Nat → List Char → List Token → Prop
  | nil {offset : Nat} {trail : List Char} : (∀ c ∈ trail, isBlank c = true) →
      Cover offset trail []
  | cons {offset : Nat} {blanks dropped rest : List Char} {t : Token} {ts : List Token} :
      t.IsCutAt offset blanks dropped → Cover t.span.stop rest ts →
      Cover offset (blanks ++ (dropped ++ (t.written ++ rest))) (t :: ts)

variable {offset : Nat} {cs blanks dropped : List Char} {t : Token} {us ts : List Token}

theorem IsCutAt.start_lt_stop (h : t.IsCutAt offset blanks dropped) :
    offset ≤ t.span.start ∧ t.span.start < t.span.stop := by
  have hwritten := byteLength_pos h.written_ne_nil
  have hstart := h.start
  have hstop := h.stop
  omega

theorem IsCutAt.stop_eq (h : t.IsCutAt offset blanks dropped) :
    t.span.stop = offset + byteLength (blanks ++ (dropped ++ t.written)) := by
  have hstart := h.start
  have hstop := h.stop
  simp only [byteLength_append] at hstart ⊢
  omega

theorem IsCutAt.stop_add_byteLength (h : t.IsCutAt offset blanks dropped) (read : List Char) :
    t.span.stop + byteLength read =
      offset + byteLength (blanks ++ (dropped ++ (t.written ++ read))) := by
  have hstop := h.stop_eq
  simp only [byteLength_append] at hstop ⊢
  omega

/-- Before the first of some tokens the offset is another one than after it. -/
theorem stop_getLast?_cons (t : Token) (us : List Token) (offset : Nat) :
    ((t :: us).getLast?.map fun t => t.span.stop).getD offset =
      (us.getLast?.map fun t => t.span.stop).getD t.span.stop := by
  rw [List.getLast?_cons]
  cases us.getLast? <;> rfl

theorem Cover.offset_lt_stop (h : Cover offset cs ts) : ∀ t ∈ ts, offset < t.span.stop := by
  induction h with
  | nil => exact fun _ ht => absurd ht List.not_mem_nil
  | cons hcut _ ih =>
    obtain ⟨hle, hlt⟩ := hcut.start_lt_stop
    refine List.forall_mem_cons.mpr ⟨by omega, fun t ht => ?_⟩
    have := ih t ht
    omega

/-- After some of the tokens the others cover the text that is left. -/
theorem Cover.drop (h : Cover offset cs (us ++ ts)) : ∃ before rest, cs = before ++ rest ∧
    (us.getLast?.map fun t => t.span.stop).getD offset = offset + byteLength before ∧
    Cover (offset + byteLength before) rest ts := by
  induction us generalizing offset cs with
  | nil => exact ⟨[], cs, rfl, rfl, h⟩
  | cons u us ih =>
    cases h with
    | @cons _ blanks dropped rest _ _ hcut hrest =>
      obtain ⟨before, rest, rfl, hlast, hcover⟩ := ih hrest
      have hoffset := hcut.stop_add_byteLength before
      refine ⟨blanks ++ (dropped ++ (u.written ++ before)), rest, by simp, ?_, hoffset ▸ hcover⟩
      rw [← hoffset, ← hlast, stop_getLast?_cons]

end Token

/-! ## The tokens of the lexer -/

namespace Piece

variable {caret : Caret} {signs : Bool} {c : Char} {cs : List Char} {p : Piece} {offset : Nat}

theorem written_token (p : Piece) (offset : Nat) : (p.token offset).written = p.item.written := rfl

theorem IsHead.length_symbol (h : IsHead caret signs c cs p) (hk : p.kind.keepsText = false) :
    byteLength p.lexeme = 1 := by
  cases h with
  | number | strayInNumber | name | strayInName | strayCharacter => cases hk
  | call =>
    rw [Token.Kind.keepsText_ofOpener] at hk
    cases hk
  | opening | closing => rfl
  | @operator op => cases op <;> rfl

/-- The token of a piece is cut off where the blanks before it begin. -/
theorem IsHead.isCutAt (h : IsHead caret signs c cs p) (hc : isBlank c = false)
    (hp : p.lexeme ≠ []) {blanks : List Char} (hb : ∀ d ∈ blanks, isBlank d = true) :
    (p.token (offset + byteLength blanks)).IsCutAt offset blanks p.dropped := by
  have hwritten : (p.token (offset + byteLength blanks)).written = p.lexeme := h.written_item
  refine ⟨hb, h.givesUp, ?_, ?_, fun (hk : p.kind.keepsText = false) => ⟨?_, ?_⟩, ?_, ?_⟩
  · rw [hwritten]
    exact h.isBlank_of_mem hc
  · rwa [hwritten]
  · simp only [token, hk, Bool.false_eq_true, if_false]
  · have hlength := h.length_symbol hk
    simp only [token, Span.length]
    omega
  · simp only [token, byteLength_append, Nat.add_assoc]
  · rw [hwritten]
    rfl

end Piece

namespace Lexer

variable {l l' : Lexer} {t : Token}

theorem isBlank_of_skipBlanks {c : Char} {cs : List Char} (h : l.skipBlanks.rest = c :: cs) :
    isBlank c = false := by
  have hhead := List.head?_dropWhile_not isBlank l.rest
  rw [show l.rest.dropWhile isBlank = c :: cs from h] at hhead
  exact hhead

/-- Blanks are skipped and a piece is cut off. -/
structure StepsBy (l : Lexer) (blanks : List Char) (p : Piece) (t : Token) (l' : Lexer) :
    Prop where
  gap : ∀ b ∈ blanks, isBlank b = true
  text : l.rest = blanks ++ p.parts
  head : ∃ c cs, p.parts = c :: cs ∧ isBlank c = false ∧ p.IsHead l.caret l.allowsSign c cs
  token : t = p.token (l.offset + byteLength blanks)
  next : l' = ⟨l.caret, p.rest, t.span.stop, some t.kind⟩

theorem exists_stepsBy (h : l.next? = some (t, l')) : ∃ blanks p, l.StepsBy blanks p t l' := by
  obtain ⟨c, cs, hrest, ht, hl⟩ := next?_eq_some h
  have hparts := Piece.parts_head l.caret l.allowsSign c cs
  refine ⟨l.rest.takeWhile isBlank, _, fun b hb => List.mem_takeWhile_imp hb, ?_,
    ⟨c, cs, hparts, isBlank_of_skipBlanks hrest, Piece.isHead_head ..⟩, ht, hl⟩
  rw [hparts, ← hrest]
  exact List.takeWhile_append_dropWhile.symm

namespace StepsBy

variable {blanks : List Char} {p : Piece}

theorem kind (h : l.StepsBy blanks p t l') : t.kind = p.kind := by rw [h.token]; rfl

theorem written (h : l.StepsBy blanks p t l') : t.written = p.lexeme := by
  obtain ⟨c, cs, -, -, hhead⟩ := h.head
  rw [h.token, Piece.written_token, hhead.written_item]

theorem rest (h : l.StepsBy blanks p t l') :
    l.rest = blanks ++ (p.dropped ++ (p.lexeme ++ l'.rest)) := by
  rw [h.text, h.next, Piece.parts, List.append_assoc]

theorem offset (h : l.StepsBy blanks p t l') : l'.offset = t.span.stop := by rw [h.next]

theorem caret (h : l.StepsBy blanks p t l') : l'.caret = l.caret := by rw [h.next]

theorem isCutAt (h : l.StepsBy blanks p t l') : t.IsCutAt l.offset blanks p.dropped := by
  obtain ⟨c, cs, -, hc, hhead⟩ := h.head
  have hlexeme : p.lexeme ≠ [] := by
    rw [← hhead.eq_head]
    exact Piece.lexeme_head_ne_nil l.caret l.allowsSign c cs
  rw [h.token]
  exact hhead.isCutAt hc hlexeme h.gap

end StepsBy

/-- A step cuts off a token with what stands before it. -/
theorem isCutAt_of_next? (h : l.next? = some (t, l')) : ∃ blanks dropped,
    t.IsCutAt l.offset blanks dropped ∧ l.rest = blanks ++ (dropped ++ (t.written ++ l'.rest)) ∧
      l'.offset = t.span.stop := by
  obtain ⟨blanks, p, hstep⟩ := exists_stepsBy h
  exact ⟨blanks, p.dropped, hstep.isCutAt, hstep.written ▸ hstep.rest, hstep.offset⟩

/-- The tokens cover the text. -/
theorem cover_tokens (l : Lexer) : Token.Cover l.offset l.rest l.tokens := by
  fun_induction tokens l with
  | case1 l h =>
    exact .nil (List.dropWhile_eq_nil_iff.mp (rest_of_next?_none h))
  | case2 l t l' h ih =>
    obtain ⟨blanks, dropped, hcut, hrest, hoffset⟩ := isCutAt_of_next? h
    rw [hrest]
    exact .cons hcut (hoffset ▸ ih)

end Lexer

/-! ## Sources -/

/-- The tokens of a source are in order and within it. Each has characters of the source, at
    least one, as its text or as its symbol. Before a token there are blanks, and after them
    nothing but what may be given up before its kind; after the last token there are blanks
    only. -/
theorem tokenize_covers (caret : Caret) (source : String) :
    (∀ us t vs, tokenize caret source = us ++ t :: vs →
      Token.lastStop us ≤ t.span.start ∧ t.span.start < t.span.stop ∧
        t.span.stop ≤ source.utf8ByteSize ∧
      Between source.toList t.span.start t.span.stop t.written ∧
      (t.kind.keepsText = false → t.text = "" ∧ t.span.length = 1) ∧
      ∃ blanks dropped,
        Between source.toList (Token.lastStop us) t.span.start (blanks ++ dropped) ∧
        (∀ c ∈ blanks, isBlank c = true) ∧ t.kind.GivesUp dropped) ∧
    ∃ trail, Between source.toList (Token.lastStop (tokenize caret source)) source.utf8ByteSize
      trail ∧ ∀ c ∈ trail, isBlank c = true := by
  have hcover : Token.Cover 0 source.toList (tokenize caret source) :=
    (Lexer.ofString caret source).cover_tokens
  have hsize := byteLength_toList source
  constructor
  · intro us t vs htokens
    rw [htokens] at hcover
    obtain ⟨before, rest, hsource, hlast, hrest⟩ := hcover.drop
    have hlast : Token.lastStop us = byteLength before := hlast.trans (Nat.zero_add _)
    cases hrest with
    | @cons _ blanks dropped rest _ _ hcut hrest =>
      have hstart : t.span.start = byteLength before + byteLength (blanks ++ dropped) := by
        rw [hcut.start, Nat.zero_add]
      have hstop := hcut.stop
      have hlt := hcut.start_lt_stop
      rw [hsource] at hsize ⊢
      simp only [byteLength_append] at hsize hstart
      refine ⟨by omega, hlt.2, by omega, ?_, hcut.symbol, blanks, dropped, ?_, hcut.gap,
        hcut.givesUp⟩
      · exact ⟨before ++ (blanks ++ dropped), rest, by simp, by simp only [byteLength_append, hstart],
          hstop⟩
      · exact ⟨before, t.written ++ rest, by simp, hlast, by simp only [byteLength_append]; omega⟩
  · rw [← List.append_nil (tokenize caret source)] at hcover
    obtain ⟨before, trail, hsource, hlast, hrest⟩ := hcover.drop
    have hlast : Token.lastStop (tokenize caret source) = byteLength before :=
      hlast.trans (Nat.zero_add _)
    cases hrest with
    | nil htrail =>
      refine ⟨trail, ⟨before, [], by rw [hsource, List.append_nil], hlast, ?_⟩, htrail⟩
      rw [← hsize, hsource, byteLength_append, hlast]

/-- A number and a name that are given up, each for a stray character. -/
theorem tokenize_covers_strays :
    tokenize .power " 12é\tab_" =
      [⟨.strayInNumber, "é", ⟨3, 5⟩⟩] ++ ⟨.strayInName, "_", ⟨8, 9⟩⟩ :: [] ∧
    ∃ blanks dropped, Between " 12é\tab_".toList 5 8 (blanks ++ dropped) ∧
      (∀ c ∈ blanks, isBlank c = true) ∧ Token.Kind.GivesUp .strayInName dropped := by
  have htokens : tokenize .power " 12é\tab_" =
      [⟨.strayInNumber, "é", ⟨3, 5⟩⟩] ++ ⟨.strayInName, "_", ⟨8, 9⟩⟩ :: [] := by
    decide +kernel
  obtain ⟨-, -, -, -, -, hgap⟩ := (tokenize_covers .power " 12é\tab_").1 _ _ _ htokens
  exact ⟨htokens, hgap⟩

end Reckoner
