import Reckoner.Proofs.Parser.Places
import Reckoner.Proofs.Parser.Recovery
import Reckoner.Proofs.Token.Position
import Reckoner.Proofs.Token.Streaming

/-!
# Signs and operands

Whether a minus sign before a digit is the sign of a number, the lexer tells from the token
before it. The parser expects an operand after these tokens and no others, on any level and as
long as it has nothing to report. So the sign is taken for what the parser needs.

* `Token.IsSignedAt`: a number with a sign at an offset;
* `Piece.head_minus`: the pieces at a minus sign before a digit;
* `Lexer.HasRead.exists_minus`: the token that is read there;
* `isAside_of_step`: only the step at the token there could report what was due there;
* `tokenize_sign`: what the parser expects there, and that it has nothing to report of it.
-/

namespace Reckoner

/-! ## The token at a minus sign -/

/-- A minus sign at an offset is the sign of a number: of a literal, or of a number that is
    given up right before a stray character. -/
inductive Token.IsSignedAt (cs : List Char) (o : Nat) (t : Token) : Prop
  | literal {f : Literal.Format} {taken : List Char} : Literal.Spells f ('-' :: taken) →
      t.kind = .literal f → t.text.toList = '-' :: taken → t.span.start = o → IsSignedAt cs o t
  | stray {f : Literal.Format} {taken : List Char} : Literal.Spells f ('-' :: taken) →
      t.kind = .strayInNumber → Between cs o t.span.start ('-' :: taken) → IsSignedAt cs o t

/-- A minus sign before a digit is the sign of a number where a sign may stand, and else the
    operator. -/
theorem Piece.head_minus (caret : Caret) {d : Char} (hd : d.isDigit = true) (rest : List Char) :
    (∃ f taken, Literal.Spells f ('-' :: taken) ∧
      ((∃ rest', head caret true '-' (d :: rest) = ⟨.literal f, [], '-' :: taken, rest'⟩) ∨
        ∃ e rest', head caret true '-' (d :: rest) =
          ⟨.strayInNumber, '-' :: taken, [e], rest'⟩)) ∧
      head caret false '-' (d :: rest) = ⟨.operator .sub, [], ['-'], d :: rest⟩ := by
  constructor
  · have hstart : startsNumber true '-' (d :: rest) = true := by simp [startsNumber, hd]
    have hspells := (Number.spells_signed caret hstart).1
    obtain ⟨f, taken, rest', hs⟩ : ∃ f taken rest',
        Number.signed caret ('-' :: d :: rest) = (f, '-' :: taken, rest') := ⟨_, _, _, rfl⟩
    rw [hs] at hspells
    rw [head, if_pos hstart, number, hs]
    refine ⟨f, taken, hspells, ?_⟩
    rcases closed_cases caret (.literal f) .strayInNumber ('-' :: taken) rest' with
      ⟨-, heq⟩ | ⟨e, ds, -, -, heq⟩
    · exact .inl ⟨rest', heq⟩
    · exact .inr ⟨e, ds, heq⟩
  · cases caret <;> rfl

namespace Lexer

variable {caret : Caret} {source : String} {l : Lexer} {us : List Token} {blanks : List Char}
  {d : Char} {o stop : Nat}

/-- The lexer remembers what tells whether an operand is due. -/
theorem HasRead.allowsSign (h : l.HasRead caret source us) :
    l.allowsSign = Token.operandDue us := by
  rw [Lexer.allowsSign, h.previous, Token.operandDue]
  cases us.getLast? <;> rfl

theorem HasRead.exists_minus (h : l.HasRead caret source us)
    (hgap : Between source.toList (Token.lastStop us) o blanks)
    (hblanks : ∀ b ∈ blanks, isBlank b = true) (hminus : Between source.toList o stop ['-', d])
    (hd : d.isDigit = true) :
    ∃ t vs, tokenize caret source = us ++ t :: vs ∧ o ≤ t.span.start ∧
      (Token.operandDue us = true → t.IsSignedAt source.toList o) ∧
      (Token.operandDue us = false → t.kind = .operator .sub ∧ t.span = ⟨o, o + 1⟩) := by
  obtain ⟨before, after, hsource, hbefore⟩ := hgap.append hminus
  have ho : o = Token.lastStop us + byteLength blanks := by
    obtain ⟨-, -, -, -, ho⟩ := hgap
    exact ho
  -- what is still to read begins with the blanks and the sign
  have hrest : l.rest = blanks ++ '-' :: d :: after := by
    obtain ⟨read, hread, hlength⟩ := h.text
    have hsame : byteLength read = byteLength before := by rw [hlength, h.offset, hbefore]
    exact (eq_of_byteLength_eq (hread.symm.trans hsource) hsame).2
  have hskip : l.skipBlanks.rest = '-' :: d :: after := by
    simp only [skipBlanks, hrest]
    rw [List.dropWhile_append_of_pos hblanks]
    rfl
  have hoffset : l.skipBlanks.offset = o := by
    simp only [skipBlanks, hrest, h.offset, ho]
    rw [List.takeWhile_append_of_pos hblanks]
    simp [isBlank]
  have hnext := next?_of_skipBlanks hskip
  dsimp only at hnext
  rw [h.allowsSign, h.caret, hoffset] at hnext
  refine ⟨_, _, by rw [h.tokens, tokens_of_next?_some hnext], Nat.le_add_right .., ?_, ?_⟩
  · intro hdue
    rw [hdue]
    obtain ⟨⟨f, taken, hspells, hpiece⟩, -⟩ := Piece.head_minus caret hd after
    have hparts := Piece.parts_head caret true '-' (d :: after)
    rcases hpiece with ⟨rest', hpiece⟩ | ⟨e, rest', hpiece⟩
    · rw [hpiece]
      exact .literal hspells rfl String.toList_ofList rfl
    · rw [hpiece] at hparts ⊢
      refine .stray hspells rfl ⟨before ++ blanks, [e] ++ rest', ?_, ?_, rfl⟩
      · rw [hsource, List.cons_append, List.cons_append, List.nil_append, ← hparts]
        simp [Piece.parts]
      · rw [ho, hbefore, byteLength_append]
  · intro hdue
    rw [hdue, (Piece.head_minus caret hd after).2]
    exact ⟨rfl, rfl⟩

end Lexer

/-! ## What the parser needs -/

theorem Token.operandDue_iff {ts : List Token} : operandDue ts = true ↔ ts = [] ∨
    ∃ t ∈ ts.getLast?, t.kind.isOperator = true ∨ t.kind.isCall = true ∨ t.kind = .opening := by
  rcases List.eq_nil_or_concat ts with rfl | ⟨ts, t, rfl⟩
  · simp [operandDue]
  · simpa [operandDue] using t.kind.allowsSign_iff

namespace Parser

variable {source : List Char} {limit o : Nat} {p : Parser} {t : Token} {S : Diagnostic → Prop}

/-- A number with a sign is at most too much for the limit, or reported for its stray, where an
    operand is due. -/
theorem Confined.step_signed (h : p.Confined S) (hl : p.level.expectsOperand = true)
    (ht : t.IsSignedAt source o) (hlimit : S (.exceeds limit t))
    (hstray : S (.atToken .strayInNumber t)) : (p.step limit t).Confined S := by
  unfold Parser.step
  split_ifs
  · exact h
  · cases ht with
    | literal _ hk =>
      rw [hk]
      exact h.addOperand_of_due hl hlimit
    | stray _ hk =>
      rw [hk]
      exact h.addStray hstray _

/-- An operator is at most too much for the limit where an operand is complete. -/
theorem Confined.step_operator {op : Operator} (h : p.Confined S)
    (hl : p.level.expectsOperand = false) (hk : t.kind = .operator op)
    (hlimit : S (.exceeds limit t)) : (p.step limit t).Confined S := by
  unfold Parser.step
  split_ifs
  · exact h
  · rw [hk]
    exact h.addOperator_of_due hl hlimit

end Parser

/-- Nothing that was due is reported at an offset. -/
def Diagnostic.IsAside (o : Nat) (d : Diagnostic) : Prop :=
  d.kind = .operandExpected ∨ d.kind = .operatorExpected → d.span.start ≠ o

theorem holdsAt_isAside {o : Nat} {span : Span} (h : span.start ≠ o) :
    HoldsAt (Diagnostic.IsAside o) span :=
  fun _ hd _ => hd ▸ h

/-- All tokens but the one at an offset begin elsewhere, and so does the end of the tokens. So
    what was due is reported at this offset only if it is at this token. -/
theorem isAside_of_step {caret : Caret} {source : String} {limit o : Nat} {us vs : List Token}
    {t : Token} (htokens : tokenize caret source = us ++ t :: vs) (hus : Token.lastStop us ≤ o)
    (ho : o ≤ t.span.start)
    (hstep : (Parser.start.run limit us).Confined (Diagnostic.IsAside o) →
      ((Parser.start.run limit us).step limit t).Confined (Diagnostic.IsAside o)) :
    ∀ d ∈ (parse limit (tokenize caret source)).diagnostics, d.IsAside o := by
  have hspan := ((tokenize_covers caret source).1 us t vs htokens).2.1
  obtain ⟨-, hafter⟩ := tokenize_ordered htokens
  have hbefore := lt_lastStop_of_mem htokens
  have hend : t.span.start < Token.lastStop (tokenize caret source) :=
    lt_lastStop_of_mem (List.append_nil _).symm t (by simp [htokens])
  have hpre : (Parser.start.run limit us).Confined (Diagnostic.IsAside o) := by
    refine (Parser.confined_start _).run fun u hu => holdsAt_isAside ?_
    have := hbefore u hu
    omega
  have hrun : (Parser.start.run limit (tokenize caret source)).Confined
      (Diagnostic.IsAside o) := by
    rw [htokens, Parser.run_append, Parser.run_cons]
    refine (hstep hpre).run fun v hv => holdsAt_isAside ?_
    have := hafter v hv
    omega
  have hlast : Token.lastStop (tokenize caret source) ≠ o := by omega
  rw [parse_eq_ended, upToFinish_tokenize]
  exact (hrun.unwind rfl fun _ => hlast).diagnostics

/-- Let the parser have nothing to report of the first tokens of a source. It expects an operand
    then if there are none, or if the last of them is an operator, a call or an opening bracket.
    So a minus sign before a digit that comes next is the sign of a number if the parser expects
    an operand, and the operator if it does not, and in the whole parse there is no report at
    that sign of an operand or an operator that was due. -/
theorem tokenize_sign {caret : Caret} {source : String} {limit : Nat} {us : List Token}
    (hus : us <+: tokenize caret source) (hs : (Parser.start.run limit us).Silent) :
    ((Parser.start.run limit us).level.expectsOperand = true ↔ us = [] ∨
      ∃ t ∈ us.getLast?, t.kind.isOperator = true ∨ t.kind.isCall = true ∨ t.kind = .opening) ∧
    ∀ blanks d o stop, Between source.toList (Token.lastStop us) o blanks →
      (∀ b ∈ blanks, isBlank b = true) → Between source.toList o stop ['-', d] →
      d.isDigit = true →
      ∃ t vs, tokenize caret source = us ++ t :: vs ∧
        ((Parser.start.run limit us).level.expectsOperand = true ↔
          t.IsSignedAt source.toList o) ∧
        ((Parser.start.run limit us).level.expectsOperand = false ↔
          t.kind = .operator .sub ∧ t.span = ⟨o, o + 1⟩) ∧
        ∀ e ∈ (parse limit (tokenize caret source)).diagnostics,
          e.kind = .operandExpected ∨ e.kind = .operatorExpected → e.span.start ≠ o := by
  obtain ⟨ws, hws⟩ := hus
  have hfinish : ∀ t ∈ us, t.isFinish = false := fun t ht =>
    Lexer.isFinish_of_mem_tokens _ t (hws ▸ List.mem_append_left ws ht)
  have hdue := Parser.expectsOperand_run hfinish hs
  refine ⟨by rw [hdue, Token.operandDue_iff], ?_⟩
  intro blanks d o stop hgap hblanks hminus hd
  obtain ⟨l, hread, -⟩ := Lexer.exists_hasRead hws.symm
  obtain ⟨t, vs, htokens, ho, hsigned, hoperator⟩ :=
    hread.exists_minus hgap hblanks hminus hd
  rw [hdue]
  refine ⟨t, vs, htokens, ⟨hsigned, fun ht => ?_⟩, ⟨hoperator, fun ht => ?_⟩, ?_⟩
  · by_contra hcomplete
    obtain ⟨hk, -⟩ := hoperator (by simpa using hcomplete)
    cases ht <;> simp_all
  · by_contra hexpects
    have ht' := hsigned (by simpa using hexpects)
    cases ht' <;> simp_all
  · obtain ⟨-, -, -, -, hstop⟩ := hgap
    refine isAside_of_step htokens (by omega) ho fun hpre => ?_
    cases hk : Token.operandDue us with
    | true =>
      exact hpre.step_signed (hdue.trans hk) (hsigned hk) (by simp [Diagnostic.IsAside])
        (by simp [Diagnostic.IsAside])
    | false =>
      exact hpre.step_operator (hdue.trans hk) (hoperator hk).1 (by simp [Diagnostic.IsAside])

/-- In a bracket after an operator, and after a blank, a minus sign is that of a number. Right
    after this number it is the operator. -/
theorem tokenize_sign_bracket :
    let source := "2*( -3-4)"
    let us : List Token := [⟨.literal .integer, "2", ⟨0, 1⟩⟩, ⟨.operator .mul, "", ⟨1, 2⟩⟩,
      ⟨.opening, "", ⟨2, 3⟩⟩]
    let three : Token := ⟨.literal .integer, "-3", ⟨4, 6⟩⟩
    us ++ [three] <+: tokenize .power source ∧ (Parser.start.run 4 (us ++ [three])).Silent ∧
      (Between source.toList 3 4 [' '] ∧ Between source.toList 4 6 ['-', '3'] ∧
        Between source.toList 6 6 [] ∧ Between source.toList 6 8 ['-', '4']) ∧
      (∃ t vs, tokenize .power source = us ++ t :: vs ∧ t.IsSignedAt source.toList 4) ∧
      ∃ t vs, tokenize .power source = us ++ [three] ++ t :: vs ∧ t.kind = .operator .sub ∧
        t.span = ⟨6, 7⟩ := by
  intro source us three
  have htaken : us ++ [three] <+: tokenize .power source :=
    ⟨[⟨.operator .sub, "", ⟨6, 7⟩⟩, ⟨.literal .integer, "4", ⟨7, 8⟩⟩, ⟨.closing, "", ⟨8, 9⟩⟩],
      by decide +kernel⟩
  have hfirst : us <+: tokenize .power source := (List.prefix_append us [three]).trans htaken
  have hsilent : (Parser.start.run 4 (us ++ [three])).Silent := rfl
  have hsilent' : (Parser.start.run 4 us).Silent := rfl
  have htext : source.toList = ['2', '*', '(', ' ', '-', '3', '-', '4', ')'] := by decide +kernel
  have hblank : Between source.toList 3 4 [' '] :=
    ⟨['2', '*', '('], ['-', '3', '-', '4', ')'], htext, rfl, rfl⟩
  have hsign : Between source.toList 4 6 ['-', '3'] :=
    ⟨['2', '*', '(', ' '], ['-', '4', ')'], htext, rfl, rfl⟩
  have hnone : Between source.toList 6 6 [] :=
    ⟨['2', '*', '(', ' ', '-', '3'], ['-', '4', ')'], htext, rfl, rfl⟩
  have hminus : Between source.toList 6 8 ['-', '4'] :=
    ⟨['2', '*', '(', ' ', '-', '3'], [')'], htext, rfl, rfl⟩
  obtain ⟨hexpects, hdigit⟩ := tokenize_sign hfirst hsilent'
  obtain ⟨hcomplete, hdigit'⟩ := tokenize_sign htaken hsilent
  obtain ⟨t, vs, htokens, hsigned, -⟩ := hdigit [' '] '3' 4 6 hblank (by simp [isBlank]) hsign rfl
  obtain ⟨t', vs', htokens', -, hoperator, -⟩ :=
    hdigit' [] '4' 6 8 hnone (by simp) hminus rfl
  exact ⟨htaken, hsilent, ⟨hblank, hsign, hnone, hminus⟩,
    ⟨t, vs, htokens, hsigned.mp rfl⟩, t', vs', htokens', hoperator.mp rfl⟩

end Reckoner
