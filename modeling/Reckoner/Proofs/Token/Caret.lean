import Reckoner.Proofs.Token.Position
import Reckoner.Proofs.Token.Value

/-!
# The meaning of the caret

The caret is looked at in many places: at the beginning of a token, in a number, after one of
another base, and at the end of a name. In each of them it has the meaning that the source has
for it.

* `offsets`: where a character stands in a text;
* `Literal.Spells.count_caret`: a power has one caret, and other literals have none;
* `Lexer.spans_xor`: where the caret is an operator, all carets are, and nothing else has one
  (`Piece.IsHead.caret_xor`);
* `Caret.Place`: where a caret may be if it joins literals;
* `Lexer.tokens_of_not_mem`: without carets their meaning makes no difference;
* `tokenize_caret`: the carets of a source, in either meaning.
-/

namespace Reckoner

/-! ## Offsets -/

/-- The offsets of a character in a text that begins at an offset. -/
def offsets (mark : Char) : Nat → List Char → List Nat
  | _, [] => []
  | start, c :: cs =>
    if c = mark then start :: offsets mark (start + c.utf8Size) cs
    else offsets mark (start + c.utf8Size) cs

section Offsets

variable {mark : Char} {cs : List Char}

theorem offsets_append (mark : Char) (start : Nat) (cs ds : List Char) :
    offsets mark start (cs ++ ds) =
      offsets mark start cs ++ offsets mark (start + byteLength cs) ds := by
  induction cs generalizing start with
  | nil => rfl
  | cons c cs ih =>
    simp only [List.cons_append, offsets, byteLength, ih, Nat.add_assoc]
    split_ifs
    · rw [List.cons_append]
    · rfl

theorem offsets_of_not_mem (h : mark ∉ cs) (start : Nat) : offsets mark start cs = [] := by
  induction cs generalizing start with
  | nil => rfl
  | cons c cs ih =>
    rw [List.mem_cons, not_or] at h
    rw [offsets, if_neg (Ne.symm h.1), ih h.2]

theorem mem_offsets_iff {start o : Nat} : o ∈ offsets mark start cs ↔
    ∃ before after, cs = before ++ mark :: after ∧ o = start + byteLength before := by
  constructor
  · intro h
    induction cs generalizing start with
    | nil => cases h
    | cons c cs ih =>
      have htail (h : o ∈ offsets mark (start + c.utf8Size) cs) :
          ∃ before after, c :: cs = before ++ mark :: after ∧ o = start + byteLength before := by
        obtain ⟨before, after, rfl, rfl⟩ := ih h
        exact ⟨c :: before, after, rfl, by rw [byteLength, Nat.add_assoc]⟩
      rw [offsets] at h
      split_ifs at h with hc
      · rcases List.mem_cons.mp h with rfl | h
        · exact ⟨[], cs, by rw [hc, List.nil_append], rfl⟩
        · exact htail h
      · exact htail h
  · rintro ⟨before, after, rfl, rfl⟩
    rw [offsets_append, offsets, if_pos rfl]
    simp

end Offsets

/-! ## Carets of literals and names -/

namespace Literal

variable {f : Format} {cs : List Char}

theorem Bare.not_mem_caret (hf : f = .integer ∨ f = .decimal) (h : Bare f cs) : '^' ∉ cs := by
  have hne : ∀ c ∈ cs, c ≠ '^' := h.ne_of_mem hf rfl (by decide)
  exact fun hmem => hne '^' hmem rfl

theorem not_mem_caret_sign {minus : List Char} (hm : minus = [] ∨ minus = ['-']) :
    '^' ∉ minus := by
  have hne : ∀ c ∈ minus, c ≠ '^' := ne_of_mem_sign hm (by decide)
  exact fun hmem => hne '^' hmem rfl

theorem Bare.count_caret (h : Bare f cs) : cs.count '^' = if f = .power then 1 else 0 := by
  cases h with
  | integer hne hd => exact List.count_eq_zero.mpr ((Bare.integer hne hd).not_mem_caret (.inl rfl))
  | decimal hds he => exact List.count_eq_zero.mpr ((Bare.decimal hds he).not_mem_caret (.inr rfl))
  | binary hd =>
    have hnone : '^' ∉ _ := fun hmem => absurd (hd '^' hmem) (by decide)
    simpa using List.count_eq_zero.mpr hnone
  | hexadecimal hd =>
    have hnone : '^' ∉ _ := fun hmem => absurd (hd '^' hmem) (by decide)
    simpa using List.count_eq_zero.mpr hnone
  | @power g base minus es hg hbase hm he =>
    have hexponent : '^' ∉ es := fun hmem => absurd (he '^' hmem) (by decide)
    rw [List.count_append, List.count_cons_self, List.count_append,
      List.count_eq_zero.mpr (hbase.not_mem_caret hg),
      List.count_eq_zero.mpr (not_mem_caret_sign hm), List.count_eq_zero.mpr hexponent]
    rfl

/-- A power has one caret, and other literals have none. -/
theorem Spells.count_caret (h : Spells f cs) : cs.count '^' = if f = .power then 1 else 0 := by
  obtain ⟨minus, body, hm, hbody, rfl⟩ := h
  rw [List.count_append, List.count_eq_zero.mpr (not_mem_caret_sign hm), hbody.count_caret,
    Nat.zero_add]

theorem Spells.not_mem_caret (h : Spells f cs) (hf : f ≠ .power) : '^' ∉ cs := by
  rw [← List.count_eq_zero, h.count_caret, if_neg hf]

end Literal

theorem IsWord.not_mem_caret {cs : List Char} (h : IsWord cs) : '^' ∉ cs :=
  fun hmem => absurd (h.2 '^' hmem) (by decide)

/-- A call is no operator, no literal and no stray. -/
theorem Token.Kind.ofOpener_ne (text : String) : ofOpener text ≠ .operator .xor ∧
    ofOpener text ≠ .literal .power ∧ (ofOpener text).isStray = false := by
  rcases ofOpener_cases text with ⟨f, hf⟩ | hf <;> rw [hf] <;> simp [isStray]

/-! ## The caret as an operator -/

namespace Piece

variable {signs : Bool} {c : Char} {cs : List Char} {p : Piece}

/-- Where the caret is an operator, it is a piece of its own and part of no other one. -/
theorem IsHead.caret_xor (h : IsHead .xor signs c cs p) : '^' ∉ p.dropped ∧
    if p.kind = .operator .xor then p.lexeme = ['^'] else '^' ∉ p.lexeme := by
  have hends {d : Char} (hd : Caret.xor.ends d = false) : '^' ∉ [d] := by
    rw [List.mem_singleton]
    rintro rfl
    exact absurd hd (by decide)
  have hnumber {f : Literal.Format} {taken rest : List Char}
      (hstart : startsNumber signs c cs = true)
      (hs : Number.signed .xor (c :: cs) = (f, taken, rest)) : '^' ∉ taken := by
    obtain ⟨hspells, hpower, -⟩ := Number.spells_signed .xor hstart
    rw [hs] at hspells hpower
    exact hspells.not_mem_caret fun hf => absurd (hpower hf) (by decide)
  cases h with
  | number hstart hs => exact ⟨List.not_mem_nil, hnumber hstart hs⟩
  | strayInNumber hstart hs hd => exact ⟨hnumber hstart hs, hends hd⟩
  | name hw => exact ⟨List.not_mem_nil, hw.not_mem_caret⟩
  | strayInName hw _ _ _ hd => exact ⟨hw.not_mem_caret, hends hd⟩
  | @call letters rest hw =>
    refine ⟨List.not_mem_nil, ?_⟩
    rw [if_neg (Token.Kind.ofOpener_ne _).1]
    simpa using hw.not_mem_caret
  | opening | closing => exact ⟨List.not_mem_nil, by simp⟩
  | @operator op => exact ⟨List.not_mem_nil, by cases op <;> simp [Operator.char]⟩
  | strayCharacter _ _ _ _ hop =>
    refine ⟨List.not_mem_nil, ?_⟩
    show '^' ∉ [c]
    rw [List.mem_singleton]
    rintro rfl
    exact absurd hop (by decide)

end Piece

namespace Lexer

/-- The operators for exclusive or are the carets. -/
theorem spans_xor (l : Lexer) (hl : l.caret = .xor) :
    (l.tokens.filter (·.kind = .operator .xor)).map Token.span =
      (offsets '^' l.offset l.rest).map fun o => ⟨o, o + 1⟩ := by
  have hblank {blanks : List Char} (hb : ∀ b ∈ blanks, isBlank b = true) : '^' ∉ blanks :=
    fun hmem => absurd (hb '^' hmem) (by decide)
  fun_induction tokens l with
  | case1 l h =>
    have hrest := List.dropWhile_eq_nil_iff.mp (rest_of_next?_none h)
    rw [offsets_of_not_mem (hblank hrest)]
    rfl
  | case2 l t l' h ih =>
    obtain ⟨blanks, p, hstep⟩ := exists_stepsBy h
    obtain ⟨c, cs, -, -, hhead⟩ := hstep.head
    rw [hl] at hhead
    obtain ⟨hdropped, hlexeme⟩ := hhead.caret_xor
    have hstart := hstep.isCutAt.start
    have hstop := hstep.isCutAt.stop
    rw [byteLength_append, ← Nat.add_assoc] at hstart
    rw [hstep.written] at hstop
    have hoffsets : offsets '^' l.offset l.rest =
        offsets '^' t.span.start p.lexeme ++ offsets '^' l'.offset l'.rest := by
      rw [hstep.rest, offsets_append, offsets_of_not_mem (hblank hstep.gap), List.nil_append,
        offsets_append, offsets_of_not_mem hdropped, List.nil_append, offsets_append, ← hstart,
        ← hstop, ← hstep.offset]
    rw [hoffsets, List.map_append, ← ih (hstep.caret.trans hl), List.filter_cons, hstep.kind]
    by_cases hk : p.kind = .operator .xor
    · rw [if_pos hk] at hlexeme
      rw [hlexeme] at hstop ⊢
      have hone : t.span = ⟨t.span.start, t.span.start + 1⟩ := by
        rw [show t.span.start + 1 = t.span.stop from hstop.symm]
      simp [hk, offsets, ← hone]
    · rw [if_neg hk] at hlexeme
      rw [offsets_of_not_mem hlexeme]
      simp [hk]

end Lexer

/-! ## The caret between base and exponent -/

namespace Piece

variable {signs : Bool} {c : Char} {cs : List Char} {p : Piece}

/-- Where the caret joins literals, it is no operator, and among the pieces that are no strays
    it is in powers only, once in each of them. -/
theorem IsHead.caret_power (h : IsHead .power signs c cs p) : p.kind ≠ .operator .xor ∧
    (p.kind.isStray = false →
      p.lexeme.count '^' = if p.kind = .literal .power then 1 else 0) := by
  cases h with
  | @number f taken rest hstart hs =>
    have hspells := (Number.spells_signed .power hstart).1
    rw [hs] at hspells
    refine ⟨by simp, fun _ => ?_⟩
    simpa using hspells.count_caret
  | name hw => exact ⟨by simp, fun _ => List.count_eq_zero.mpr hw.not_mem_caret⟩
  | @call letters rest hw =>
    obtain ⟨hxor, hpower, -⟩ := Token.Kind.ofOpener_ne (String.ofList (letters ++ ['(']))
    refine ⟨hxor, fun _ => ?_⟩
    rw [if_neg hpower, List.count_eq_zero]
    simpa using hw.not_mem_caret
  | opening | closing => exact ⟨by simp, fun _ => rfl⟩
  | @operator op _ hop =>
    have hxor : op ≠ .xor := fun h => absurd (operator?_eq_some hop h) (by decide)
    refine ⟨by simpa using hxor, fun _ => ?_⟩
    cases op <;> first | rfl | exact absurd rfl hxor
  | strayInNumber | strayInName | strayCharacter =>
    exact ⟨by simp, fun hstray => by cases hstray⟩

theorem IsHead.exists_stray {caret : Caret} (h : IsHead caret signs c cs p)
    (hk : p.kind.isStray = true) : ∃ d, p.lexeme = [d] := by
  cases h with
  | strayInNumber | strayInName | strayCharacter => exact ⟨_, rfl⟩
  | call => exact absurd hk (by simp [(Token.Kind.ofOpener_ne _).2.2])
  | number | name | opening | closing | operator => cases hk

end Piece

/-- Where a caret of a source is that joins literals: in a power, alone as a stray character,
    or in what is given up right before a stray character in a number. -/
inductive Caret.Place (source : String) (o : Nat) : Prop
  | power {t : Token} : t ∈ tokenize .power source → t.kind = .literal .power →
      t.span.start ≤ o → o < t.span.stop → Place source o
  | stray {t : Token} : t ∈ tokenize .power source → t.kind.isStray = true → t.text = "^" →
      t.span = ⟨o, o + 1⟩ → Place source o
  | givenUp {us vs : List Token} {t : Token} {blanks dropped : List Char} :
      tokenize .power source = us ++ t :: vs → t.kind = .strayInNumber →
      Between source.toList (Token.lastStop us) t.span.start (blanks ++ dropped) →
      (∀ b ∈ blanks, isBlank b = true) → t.kind.GivesUp dropped →
      Token.lastStop us + byteLength blanks ≤ o → o < t.span.start → Place source o

section Power

variable {source : String} {t : Token}

theorem caret_of_mem_tokenize (ht : t ∈ tokenize .power source) : t.kind ≠ .operator .xor ∧
    (t.kind.isStray = false → t.written.count '^' = if t.kind = .literal .power then 1 else 0) ∧
    (t.kind.isStray = true → ∃ d, t.written = [d]) := by
  obtain ⟨signs, c, cs, p, offset, hhead, -, rfl⟩ := Lexer.exists_isHead_of_mem ht
  obtain ⟨hkind, hcount⟩ := Piece.IsHead.caret_power hhead
  rw [Piece.written_token, hhead.written_item]
  exact ⟨hkind, hcount, hhead.exists_stray⟩

/-- What is given up and has a caret is given up before a stray in a number. -/
theorem strayInNumber_of_givesUp {kind : Token.Kind} {dropped : List Char}
    (h : kind.GivesUp dropped) (hcaret : '^' ∈ dropped) : kind = .strayInNumber := by
  cases kind with
  | strayInNumber => rfl
  | strayInName => exact absurd hcaret (IsWord.not_mem_caret h)
  | finish | literal | name | operator | call | unknownCall | opening | closing
  | strayCharacter =>
    obtain rfl : dropped = [] := h
    exact absurd hcaret List.not_mem_nil

theorem Token.written_of_isStray (hk : t.kind.isStray = true) : t.written = t.text.toList := by
  unfold Token.written Item.written Item.ofToken
  cases hkind : t.kind <;> rw [hkind] at hk <;> first | rfl | cases hk

/-- A stray with a caret is that caret. -/
theorem Token.eq_caret_of_isStray (hk : t.kind.isStray = true) {left right : List Char}
    (hsingle : ∃ d, t.written = [d]) (hmem : t.written = left ++ '^' :: right) :
    left = [] ∧ t.written = ['^'] ∧ t.text = "^" := by
  obtain ⟨d, hd⟩ := hsingle
  rw [hd] at hmem
  obtain ⟨rfl, rfl⟩ : left = [] ∧ d = '^' := by cases left <;> simp_all
  exact ⟨rfl, hd, String.toList_injective ((written_of_isStray hk).symm.trans hd)⟩

theorem Caret.place_of_mem {o : Nat} (ho : o ∈ offsets '^' 0 source.toList) :
    Place source o := by
  obtain ⟨before, after, hsource, ho⟩ := mem_offsets_iff.mp ho
  rw [Nat.zero_add] at ho
  obtain ⟨us, t, vs, htokens, hplace⟩ := tokenize_places .power hsource (by decide)
  have ht : t ∈ tokenize .power source := by simp [htokens]
  have hcaret : byteLength ['^'] = 1 := rfl
  rcases hplace with ⟨left, right, hmem, hbefore⟩ |
    ⟨blanks, dropped, left, right, hgap, hblanks, hgivesUp, hmem, hbefore⟩
  · obtain ⟨-, hcount, hstray⟩ := caret_of_mem_tokenize ht
    obtain ⟨-, -, -, ⟨-, -, -, -, hstop⟩, -⟩ := (tokenize_covers .power source).1 us t vs htokens
    cases hk : t.kind.isStray with
    | false =>
      have hpower : t.kind = .literal .power := by
        by_contra hne
        rw [if_neg hne, List.count_eq_zero, hmem] at hcount
        exact hcount hk (by simp)
      rw [hmem, List.append_cons, byteLength_append, byteLength_append] at hstop
      exact .power ht hpower (by omega) (by omega)
    | true =>
      obtain ⟨rfl, hwritten, htext⟩ := Token.eq_caret_of_isStray hk (hstray hk) hmem
      have hstart : t.span.start = o := ho.trans hbefore |>.symm
      have hend : t.span.stop = o + 1 := by rw [hstop, hwritten, hstart, hcaret]
      exact .stray ht hk htext (by rw [← hend, ← hstart])
  · refine .givenUp htokens (strayInNumber_of_givesUp hgivesUp (by simp [hmem])) hgap hblanks
      hgivesUp ?_ ?_
    · rw [ho, hbefore, byteLength_append]
      omega
    · obtain ⟨-, -, -, -, hstart⟩ := hgap
      rw [hmem, List.append_cons, byteLength_append, byteLength_append, byteLength_append] at hstart
      rw [byteLength_append] at hbefore
      omega

end Power

/-! ## Sources without carets -/

section Absent

variable {caret caret' : Caret} {cs : List Char} {c : Char}

theorem Caret.operator?_of_ne (h : c ≠ '^') : caret.operator? c = caret'.operator? c := by
  unfold operator?
  split
  · rename_i hc
    exact absurd (Operator.char_eq_of_ofChar? hc) h
  · rfl

theorem Caret.ends_of_ne (h : c ≠ '^') : caret.ends c = caret'.ends c := by
  rw [ends, ends, operator?_of_ne h]

namespace Number

theorem exponent_of_not_mem (h : '^' ∉ cs) : exponent caret cs = ([], cs) :=
  exponent_of_ne fun _ hc hcaret => h (hcaret ▸ List.mem_of_mem_head? hc)

theorem unsigned_of_not_mem (caret caret' : Caret) (h : '^' ∉ cs) :
    unsigned caret cs = unsigned caret' cs := by
  -- the exponent is looked for in what comes after the digits and the fraction
  have hrest : '^' ∉ (fraction (digits Char.isDigit cs).2).2 := by
    intro hmem
    have hdigits := digits_append Char.isDigit cs
    have hfraction := fraction_append (digits Char.isDigit cs).2
    rw [← hdigits, ← hfraction] at h
    exact h (List.mem_append_right _ (List.mem_append_right _ hmem))
  unfold unsigned
  split
  · rfl
  · rfl
  · simp only [exponent_of_not_mem hrest]

theorem signed_of_not_mem (caret caret' : Caret) (h : '^' ∉ cs) :
    signed caret cs = signed caret' cs := by
  have hbody : '^' ∉ (sign cs).2 := by
    rw [← sign_append cs] at h
    exact fun hmem => h (List.mem_append_right _ hmem)
  simp only [signed, unsigned_of_not_mem caret caret' hbody]

end Number

namespace Piece

theorem closed_of_not_mem {kind stray : Token.Kind} {taken rest : List Char} (h : '^' ∉ rest) :
    closed caret kind stray taken rest = closed caret' kind stray taken rest := by
  cases rest with
  | nil => rfl
  | cons d ds =>
    have hd : d ≠ '^' := fun hd => h (hd ▸ List.mem_cons_self)
    rw [closed, closed, Caret.ends_of_ne hd]

theorem head_of_not_mem (caret caret' : Caret) (signs : Bool) (h : '^' ∉ c :: cs) :
    head caret signs c cs = head caret' signs c cs := by
  have hnumber : number caret (c :: cs) = number caret' (c :: cs) := by
    have hrest : '^' ∉ (Number.signed caret' (c :: cs)).2.2 := by
      rw [← Number.signed_append caret' (c :: cs)] at h
      exact fun hmem => h (List.mem_append_right _ hmem)
    rw [number, number, Number.signed_of_not_mem caret caret' h]
    exact closed_of_not_mem hrest
  have hword : word caret (c :: cs) = word caret' (c :: cs) := by
    have hrest : '^' ∉ (c :: cs).dropWhile Char.isAlpha :=
      fun hmem => h ((List.dropWhile_sublist _).subset hmem)
    unfold word
    dsimp only
    split
    · rfl
    · exact closed_of_not_mem hrest
  have hc : c ≠ '^' := fun hc => h (hc ▸ List.mem_cons_self)
  rw [head, head, hnumber, hword, Caret.operator?_of_ne hc]

end Piece

namespace Lexer

theorem next?_of_not_mem {l : Lexer} (h : '^' ∉ l.rest) (caret : Caret) :
    ({ l with caret := caret } : Lexer).next? =
      l.next?.map fun r => (r.1, { r.2 with caret := caret }) := by
  have hskip : ({ l with caret := caret } : Lexer).skipBlanks =
      { l.skipBlanks with caret := caret } := rfl
  unfold next?
  rw [hskip]
  dsimp only
  cases hrest : l.skipBlanks.rest with
  | nil => rfl
  | cons c cs =>
    have hhead : '^' ∉ c :: cs := by
      rw [← hrest]
      exact fun hmem => h ((List.dropWhile_sublist isBlank).subset hmem)
    dsimp only
    rw [Piece.head_of_not_mem caret l.skipBlanks.caret _ hhead]
    rfl

/-- Without carets their meaning makes no difference. -/
theorem tokens_of_not_mem (l : Lexer) (h : '^' ∉ l.rest) (caret : Caret) :
    ({ l with caret := caret } : Lexer).tokens = l.tokens := by
  fun_induction tokens l with
  | case1 l hn =>
    refine tokens_of_next?_none ?_
    rw [next?_of_not_mem h, hn]
    rfl
  | case2 l t l' hn ih =>
    obtain ⟨blanks, dropped, -, hrest, -⟩ := isCutAt_of_next? hn
    have hrest' : '^' ∉ l'.rest := by
      intro hmem
      rw [hrest] at h
      exact h (by simp [hmem])
    have hnext : ({ l with caret := caret } : Lexer).next? =
        some (t, { l' with caret := caret }) := by
      rw [next?_of_not_mem h, hn]
      rfl
    rw [tokens_of_next?_some hnext, ih hrest']

end Lexer

end Absent

/-! ## Sources -/

/-- The caret has one meaning in a source. Where it is an operator, the tokens of exclusive or
    are the carets of the source, in order and each with the span of its caret, and no token has
    a caret in its text. Where it joins literals, there is no exclusive or, every power has
    one caret, and no other token but a stray has any; each caret of the source is in a power,
    is a stray itself, or is given up with the number right before a stray. A source without
    carets has the same tokens in both meanings. -/
theorem tokenize_caret (source : String) :
    (((tokenize .xor source).filter (·.kind = .operator .xor)).map Token.span =
        (offsets '^' 0 source.toList).map (fun o => ⟨o, o + 1⟩) ∧
      ∀ t ∈ tokenize .xor source, '^' ∉ t.text.toList) ∧
    ((∀ t ∈ tokenize .power source, t.kind ≠ .operator .xor ∧
        (t.kind = .literal .power → t.written.count '^' = 1) ∧
        (t.kind ≠ .literal .power → t.kind.isStray = false → '^' ∉ t.written)) ∧
      ∀ o ∈ offsets '^' 0 source.toList, Caret.Place source o) ∧
    ('^' ∉ source.toList → tokenize .power source = tokenize .xor source) := by
  refine ⟨⟨(Lexer.ofString .xor source).spans_xor rfl, fun t ht => ?_⟩,
    ⟨fun t ht => ?_, fun o => Caret.place_of_mem⟩, fun h => ?_⟩
  · obtain ⟨signs, c, cs, p, offset, hhead, -, rfl⟩ := Lexer.exists_isHead_of_mem ht
    obtain ⟨-, hlexeme⟩ := Piece.IsHead.caret_xor hhead
    show '^' ∉ (if p.kind.keepsText then String.ofList p.lexeme else "").toList
    by_cases hk : p.kind = .operator .xor
    · rw [hk]
      exact List.not_mem_nil
    · rw [if_neg hk] at hlexeme
      split_ifs
      · rwa [String.toList_ofList]
      · exact List.not_mem_nil
  · obtain ⟨hkind, hcount, -⟩ := caret_of_mem_tokenize ht
    refine ⟨hkind, fun hpower => ?_, fun hpower hstray => ?_⟩
    · rw [hcount (by rw [hpower]; rfl), if_pos hpower]
    · rw [← List.count_eq_zero, hcount hstray, if_neg hpower]
  · exact (Lexer.ofString .xor source).tokens_of_not_mem h .power

/-- A power, a stray caret, and a power that is given up before another one. Where the caret is
    an operator, all four of them are. Without them the meaning makes no difference. -/
theorem tokenize_caret_places :
    tokenize .power "1^-2 ^ 3^^" = [⟨.literal .power, "1^-2", ⟨0, 4⟩⟩,
        ⟨.strayCharacter, "^", ⟨5, 6⟩⟩, ⟨.strayInNumber, "^", ⟨9, 10⟩⟩] ∧
      offsets '^' 0 "1^-2 ^ 3^^".toList = [1, 5, 8, 9] ∧
      (∀ o ∈ [1, 5, 8, 9], Caret.Place "1^-2 ^ 3^^" o) ∧
      ((tokenize .xor "1^-2 ^ 3^^").filter (·.kind = .operator .xor)).map Token.span =
        [⟨1, 2⟩, ⟨5, 6⟩, ⟨8, 9⟩, ⟨9, 10⟩] ∧
      tokenize .power "1-2 3" = tokenize .xor "1-2 3" := by
  have htokens : tokenize .power "1^-2 ^ 3^^" = [⟨.literal .power, "1^-2", ⟨0, 4⟩⟩,
      ⟨.strayCharacter, "^", ⟨5, 6⟩⟩, ⟨.strayInNumber, "^", ⟨9, 10⟩⟩] := by decide +kernel
  have hoffsets : offsets '^' 0 "1^-2 ^ 3^^".toList = [1, 5, 8, 9] := by decide +kernel
  obtain ⟨⟨hxor, -⟩, ⟨-, hplaces⟩, -⟩ := tokenize_caret "1^-2 ^ 3^^"
  rw [hoffsets] at hxor hplaces
  exact ⟨htokens, hoffsets, hplaces, hxor, (tokenize_caret "1-2 3").2.2 (by decide +kernel)⟩

end Reckoner
