import Reckoner.Proofs.Token.Cutting
import Mathlib.Data.List.Chain
import Mathlib.Data.List.TakeWhile

/-!
# The language of the lexer

A source without stray characters is a list of tokens with blanks around them, and every
list of tokens that may stand in a source is read back from it.

    word   ::= [A-Za-z]+
    name   ::= word
    call   ::= word [(]

Literals are spelled as in `Literal.Spells`. A literal with a sign stands at the beginning
only, or after an operator, a call or an opening bracket.

* `Item.IsSpelled`: the texts of a kind, which all tokens have that are no strays
  (`Piece.isSpelled_head`), and which are cut off a text as they were written
  (`Item.cuts_written`);
* `Admissible`: the lists of tokens that occur in sources (`admissible_iff_exists`);
* `Writes`: the texts of a list, with any blanks between its tokens;
* `Lexer.Admits`: the lists that may come at a position, from one token to the next one
  (`Lexer.admits_cons`);
* `tokenize_language`: sources without strays have admissible tokens, and admissible tokens
  are read back from every text of them.
-/

namespace Reckoner

/-! ## Items -/

/-- A token without its place. -/
structure Item where
  kind : Token.Kind
  text : String
deriving DecidableEq, Repr

/-- Letters, one at least. -/
def IsWord (cs : List Char) : Prop := cs ≠ [] ∧ ∀ c ∈ cs, c.isAlpha = true

namespace Item

/-- A token as an item. -/
def ofToken (t : Token) : Item := ⟨t.kind, t.text⟩

/-- The text is one of the kind. Operators and brackets have none, strays are no part of
    the language. -/
def IsSpelled (caret : Caret) (i : Item) : Prop :=
  match i.kind with
  | .literal f => Literal.Spells f i.text.toList ∧ (f = .power → caret = .power)
  | .name => IsWord i.text.toList
  | .call _ | .unknownCall =>
    ∃ word, IsWord word ∧ i.text.toList = word ++ ['('] ∧ i.kind = .ofOpener i.text
  | .operator op => i.text = "" ∧ (op = .xor → caret = .xor)
  | .opening | .closing => i.text = ""
  | .finish | .strayCharacter | .strayInNumber | .strayInName => False

/-- A literal with a sign. -/
def IsSigned (i : Item) : Prop := i.kind.isNumber = true ∧ i.text.toList.head? = some '-'

/-- A literal with a sign stands right after an operator, a call or an opening bracket. -/
def MayFollow (i j : Item) : Prop :=
  j.IsSigned → i.kind.isOperator = true ∨ i.kind.isCall = true ∨ i.kind = .opening

/-- An item of the language is no stray. -/
theorem IsSpelled.isStray {caret : Caret} {i : Item} (h : i.IsSpelled caret) :
    i.kind.isStray = false := by
  obtain ⟨kind, text⟩ := i
  cases kind <;> first | rfl | exact h.elim

/-- The characters of an item. -/
def written (i : Item) : List Char :=
  match i.kind with
  | .operator op => [op.char]
  | .opening => ['(']
  | .closing => [')']
  | _ => i.text.toList

end Item

/-- The lists of tokens that occur in sources. -/
structure Admissible (caret : Caret) (items : List Item) : Prop where
  spelled : ∀ i ∈ items, i.IsSpelled caret
  signs : items.IsChain Item.MayFollow

/-- The texts that go on with these items, each after blanks, and end with blanks or not. -/
inductive Continues : List Item → List Char → Prop
  | nil {trail : List Char} : (∀ c ∈ trail, isBlank c = true) → Continues [] trail
  | cons {gap rest : List Char} {i : Item} {items : List Item} : gap ≠ [] →
      (∀ c ∈ gap, isBlank c = true) → Continues items rest →
      Continues (i :: items) (gap ++ (i.written ++ rest))

/-- The texts of these items in their order, with blanks between them. Before the first item
    there may be blanks or none. -/
inductive Writes : List Item → List Char → Prop
  | blank {items : List Item} {cs : List Char} : Continues items cs → Writes items cs
  | item {i : Item} {items : List Item} {rest : List Char} : Continues items rest →
      Writes (i :: items) (i.written ++ rest)

/-! ## What is cut off is spelled -/

namespace Number

variable {caret : Caret} {c : Char} {cs : List Char}

theorem isDigit_of_mem_digits {p : Char → Bool} (h : c ∈ (digits p cs).1) : p c = true :=
  List.mem_takeWhile_imp h

theorem sign_fst (cs : List Char) : (sign cs).1 = [] ∨ (sign cs).1 = ['-'] := by
  unfold sign
  split
  · exact .inr rfl
  · exact .inl rfl

theorem fraction_fst (cs : List Char) :
    (fraction cs).1 = [] ∨ ∃ es, (∀ c ∈ es, c.isDigit = true) ∧ (fraction cs).1 = '.' :: es := by
  unfold fraction
  split
  · exact .inr ⟨_, fun c hc => isDigit_of_mem_digits hc, rfl⟩
  · exact .inl rfl

/-- Only where carets join literals there is an exponent. -/
theorem exponent_fst (caret : Caret) (cs : List Char) :
    (exponent caret cs).1 = [] ∨ caret = .power ∧ ∃ minus es, (minus = [] ∨ minus = ['-']) ∧
      (∀ c ∈ es, c.isDigit = true) ∧ (exponent caret cs).1 = '^' :: (minus ++ es) := by
  unfold exponent
  split
  · rename_i cs
    split_ifs with hcaret
    · exact .inr ⟨hcaret, _, _, sign_fst cs, fun c hc => isDigit_of_mem_digits hc, rfl⟩
    · exact .inl rfl
  · exact .inl rfl

/-- A number without a sign is spelled in the format that is told. -/
theorem bare_unsigned (caret : Caret) (cs : List Char) (hc : c.isDigit = true) :
    Literal.Bare (unsigned caret (c :: cs)).1 (unsigned caret (c :: cs)).2.1 ∧
      ((unsigned caret (c :: cs)).1 = .power → caret = .power) := by
  unfold unsigned
  split
  · exact ⟨.hexadecimal fun c hc => isDigit_of_mem_digits hc, by simp⟩
  · exact ⟨.binary fun c hc => isDigit_of_mem_digits hc, by simp⟩
  · have hwhole : Literal.Bare .integer (digits Char.isDigit (c :: cs)).1 :=
      .integer (by simp [digits, hc]) fun c hc => isDigit_of_mem_digits hc
    dsimp only
    rcases fraction_fst (digits Char.isDigit (c :: cs)).2 with hpoint | ⟨es, hes, hpoint⟩
    · rcases exponent_fst caret (fraction (digits Char.isDigit (c :: cs)).2).2 with
        hpower | ⟨hcaret, minus, fs, hm, hfs, hpower⟩
      · rw [hpoint, hpower]
        simpa using hwhole
      · rw [hpoint, hpower]
        simpa [hcaret] using Literal.Bare.power (.inl rfl) hwhole hm hfs
    · have hdecimal := Literal.Bare.decimal hwhole hes
      rcases exponent_fst caret (fraction (digits Char.isDigit (c :: cs)).2).2 with
        hpower | ⟨hcaret, minus, fs, hm, hfs, hpower⟩
      · rw [hpoint, hpower]
        simpa using hdecimal
      · rw [hpoint, hpower]
        simpa [hcaret] using Literal.Bare.power (.inr rfl) hdecimal hm hfs

/-- Where a number begins it is spelled in the format that is told, and it has a sign only
    where one may stand. -/
theorem spells_signed (caret : Caret) {signs : Bool} (h : Piece.startsNumber signs c cs = true) :
    Literal.Spells (signed caret (c :: cs)).1 (signed caret (c :: cs)).2.1 ∧
      ((signed caret (c :: cs)).1 = .power → caret = .power) ∧
      ((signed caret (c :: cs)).2.1.head? = some '-' → signs = true) := by
  simp only [Piece.startsNumber, Bool.or_eq_true, Bool.and_eq_true, decide_eq_true_eq] at h
  rcases h with hc | ⟨⟨rfl, hsigns⟩, hhead⟩
  · have hne : c ≠ '-' := by rintro rfl; exact absurd hc (by decide)
    have hsign : sign (c :: cs) = ([], c :: cs) := by
      unfold sign
      split
      · simp_all
      · rfl
    obtain ⟨hbare, hcaret⟩ := bare_unsigned caret cs hc
    simp only [signed, hsign, List.nil_append]
    refine ⟨⟨[], _, .inl rfl, hbare, rfl⟩, hcaret, fun hminus => ?_⟩
    obtain ⟨d, ds, hds, hd⟩ := hbare.exists_digit
    rw [hds] at hminus
    obtain rfl : d = '-' := by simpa using hminus
    exact absurd hd (by decide)
  · cases cs with
    | nil => simp at hhead
    | cons d ds =>
      have hd : d.isDigit = true := by simpa using hhead
      obtain ⟨hbare, hcaret⟩ := bare_unsigned caret ds hd
      have hsign : sign ('-' :: d :: ds) = (['-'], d :: ds) := rfl
      simp only [signed, hsign]
      exact ⟨⟨['-'], _, .inr rfl, hbare, rfl⟩, hcaret, fun _ => hsigns⟩

end Number

theorem Token.Kind.ofOpener_cases (text : String) :
    (∃ f, ofOpener text = .call f) ∨ ofOpener text = .unknownCall := by
  unfold ofOpener
  split
  · exact .inl ⟨_, rfl⟩
  · exact .inr rfl

@[simp] theorem Token.Kind.keepsText_ofOpener (text : String) :
    (ofOpener text).keepsText = true := by
  rcases ofOpener_cases text with ⟨f, h⟩ | h <;> rw [h] <;> rfl

@[simp] theorem Token.Kind.isNumber_ofOpener (text : String) :
    (ofOpener text).isNumber = false := by
  rcases ofOpener_cases text with ⟨f, h⟩ | h <;> rw [h] <;> rfl

/-- A word with a bracket is a call, of a known function or not. -/
theorem Item.isSpelled_ofOpener (caret : Caret) {cs : List Char} (h : IsWord cs) :
    IsSpelled caret ⟨.ofOpener (String.ofList (cs ++ ['('])), String.ofList (cs ++ ['('])⟩ := by
  rcases Token.Kind.ofOpener_cases (String.ofList (cs ++ ['('])) with ⟨f, hf⟩ | hf <;>
    simp only [IsSpelled, hf] <;> exact ⟨cs, h, String.toList_ofList, trivial⟩

namespace Piece

variable {caret : Caret} {signs : Bool} {kind stray : Token.Kind} {taken rest : List Char}
  {c : Char} {cs : List Char}

/-- The token of a piece without its place. -/
def item (p : Piece) : Item :=
  ⟨p.kind, if p.kind.keepsText then String.ofList p.lexeme else ""⟩

/-- What is closed without a stray is the number or name itself. -/
theorem closed_of_isStray (hs : stray.isStray = true)
    (h : (closed caret kind stray taken rest).kind.isStray = false) :
    closed caret kind stray taken rest = ⟨kind, [], taken, rest⟩ := by
  unfold closed at h ⊢
  split at h
  · rfl
  · split_ifs at h ⊢ with hends
    · rfl
    · exact absurd hs (by simp [h])

theorem isSpelled_number (hstart : startsNumber signs c cs = true)
    (h : (number caret (c :: cs)).kind.isStray = false) :
    (number caret (c :: cs)).item.IsSpelled caret ∧
      ((number caret (c :: cs)).item.IsSigned → signs = true) := by
  obtain ⟨hspells, hpower, hsign⟩ := Number.spells_signed caret hstart
  obtain ⟨r, hr⟩ : ∃ r, r = Number.signed caret (c :: cs) := ⟨_, rfl⟩
  have hnumber : number caret (c :: cs) = closed caret (.literal r.1) .strayInNumber r.2.1 r.2.2 :=
    hr ▸ rfl
  rw [← hr] at hspells hpower hsign
  rw [hnumber] at h ⊢
  rw [closed_of_isStray rfl h]
  simp only [item, Token.Kind.keepsText, if_true, Item.IsSpelled, Item.IsSigned,
    String.toList_ofList]
  exact ⟨⟨hspells, hpower⟩, fun hsigned => hsign hsigned.2⟩

theorem isSpelled_word (hc : c.isAlpha = true)
    (h : (word caret (c :: cs)).kind.isStray = false) :
    (word caret (c :: cs)).item.IsSpelled caret ∧ ¬ (word caret (c :: cs)).item.IsSigned := by
  have hword : IsWord ((c :: cs).takeWhile Char.isAlpha) :=
    ⟨by simp [hc], fun d hd => List.mem_takeWhile_imp hd⟩
  unfold word at h ⊢
  dsimp only at h ⊢
  split at h
  · exact ⟨by simpa [item] using Item.isSpelled_ofOpener caret hword,
      by simp [item, Item.IsSigned]⟩
  · rw [closed_of_isStray rfl h]
    exact ⟨by simpa [item, Item.IsSpelled, Token.Kind.keepsText] using hword,
      by simp [item, Item.IsSigned, Token.Kind.isNumber]⟩

theorem operator?_eq_some {op : Operator} (h : caret.operator? c = some op) :
    op = .xor → caret = .xor := by
  rintro rfl
  unfold Caret.operator? at h
  split at h
  · split_ifs at h with hcaret
    exact hcaret
  · simp_all

/-- A piece of the text that is no stray is spelled as its kind, and it has a sign only where
    one may stand. -/
theorem isSpelled_head (h : (head caret signs c cs).kind.isStray = false) :
    (head caret signs c cs).item.IsSpelled caret ∧
      ((head caret signs c cs).item.IsSigned → signs = true) := by
  unfold head at h ⊢
  split_ifs at h ⊢ with hstart halpha hopening hclosing
  · exact isSpelled_number hstart h
  · exact (isSpelled_word halpha h).imp_right fun hn hs => absurd hs hn
  · exact ⟨rfl, fun hs => Bool.noConfusion hs.1⟩
  · exact ⟨rfl, fun hs => Bool.noConfusion hs.1⟩
  · split at h
    · rename_i op hop
      exact ⟨⟨rfl, operator?_eq_some hop⟩, fun hs => Bool.noConfusion hs.1⟩
    · exact Bool.noConfusion h

end Piece

/-! ## Sources without strays -/

theorem Token.Kind.allowsSign_iff (k : Token.Kind) : (k.isOperator || k.opensLevel) = true ↔
    k.isOperator = true ∨ k.isCall = true ∨ k = .opening := by
  cases k <;> simp [isOperator, opensLevel, isCall]

namespace Lexer

variable {l l' : Lexer} {t : Token}

/-- At this position admissible items may come: the first one has a sign only where one may
    stand. -/
structure Admits (l : Lexer) (items : List Item) : Prop where
  admissible : Admissible l.caret items
  first : ∀ i ∈ items.head?, i.IsSigned → l.allowsSign = true

theorem admits_nil (l : Lexer) : l.Admits [] := ⟨⟨by simp, .nil⟩, by simp⟩

/-- After an item the lexer stands where the items may come that follow it, if it remembers
    the kind of the item. -/
theorem admits_cons {i : Item} {items : List Item} (hcaret : l'.caret = l.caret)
    (hprevious : l'.previous = some i.kind) : l.Admits (i :: items) ↔
      i.IsSpelled l.caret ∧ (i.IsSigned → l.allowsSign = true) ∧ l'.Admits items := by
  have hfollow (j : Item) : i.MayFollow j ↔ (j.IsSigned → l'.allowsSign = true) := by
    simp only [Item.MayFollow, allowsSign, hprevious, Token.Kind.allowsSign_iff]
  constructor
  · rintro ⟨⟨hspelled, hsigns⟩, hfirst⟩
    obtain ⟨hnext, htail⟩ := List.isChain_cons.mp hsigns
    exact ⟨hspelled i (by simp), hfirst i rfl,
      ⟨⟨fun j hj => hcaret ▸ hspelled j (by simp [hj]), htail⟩,
        fun j hj => (hfollow j).mp (hnext j hj)⟩⟩
  · rintro ⟨hspelled, hsign, ⟨hitems, htail⟩, hnext⟩
    refine ⟨⟨?_, List.isChain_cons.mpr ⟨fun j hj => (hfollow j).mpr (hnext j hj), htail⟩⟩, ?_⟩
    · exact List.forall_mem_cons.mpr ⟨hspelled, fun j hj => hcaret ▸ hitems j hj⟩
    · simpa using hsign

/-- Without strays the tokens are admissible. -/
theorem admits_tokens (l : Lexer) (h : ∀ t ∈ l.tokens, t.kind.isStray = false) :
    l.Admits (l.tokens.map .ofToken) := by
  fun_induction tokens l with
  | case1 l hn => exact l.admits_nil
  | case2 l t l' hn ih =>
    obtain ⟨c, cs, -, rfl, hl⟩ := next?_eq_some hn
    obtain ⟨hspelled, hsign⟩ := Piece.isSpelled_head (h _ List.mem_cons_self)
    have hcaret : l'.caret = l.caret := by rw [hl]
    exact (admits_cons hcaret (by rw [hl]; rfl)).mpr
      ⟨hspelled, hsign, ih fun u hu => h u (List.mem_cons_of_mem _ hu)⟩

end Lexer

/-! ## Reading admissible tokens -/

theorem Continues.detached {items : List Item} {cs : List Char} (h : Continues items cs) :
    Detached cs := by
  cases h with
  | nil htrail =>
    exact fun c hc => .inl (htrail c (List.mem_of_mem_head? hc))
  | @cons gap rest i items hne hgap h =>
    obtain ⟨c, gap, rfl⟩ := List.exists_cons_of_ne_nil hne
    exact detached_cons (.inl (hgap c (by simp)))

namespace Item

variable {caret : Caret} {signs : Bool} {i : Item} {rest : List Char}

/-- An item is cut off a text as it was written, where its sign may stand. -/
theorem cuts_written (h : i.IsSpelled caret) (hs : i.IsSigned → signs = true)
    (hr : Detached rest) : Piece.Cuts caret signs i.kind i.written rest := by
  obtain ⟨kind, text⟩ := i
  cases kind with
  | literal f => exact Piece.cuts_literal h.1 h.2 (fun hminus => hs ⟨rfl, hminus⟩) hr
  | name => exact Piece.cuts_name h.1 h.2 hr
  | operator op => exact Piece.cuts_operator h.2 hr
  | opening => exact Piece.cuts_opening
  | closing => exact Piece.cuts_closing
  | call _ | unknownCall =>
    obtain ⟨word, hword, htext, hkind⟩ := h
    have hcuts : Piece.Cuts caret signs (.ofOpener (String.ofList (word ++ ['('])))
        (word ++ ['(']) rest := Piece.cuts_opener hword.1 hword.2
    rw [← htext, String.ofList_toList, ← hkind] at hcuts
    exact hcuts
  | finish | strayCharacter | strayInNumber | strayInName => exact h.elim

/-- The text of an item is told by its characters. -/
theorem text_written (h : i.IsSpelled caret) :
    (if i.kind.keepsText then String.ofList i.written else "") = i.text := by
  obtain ⟨kind, text⟩ := i
  cases kind with
  | literal f => exact String.ofList_toList
  | name | call _ | unknownCall => exact String.ofList_toList
  | operator op => exact h.1.symm
  | opening | closing => exact Eq.symm h
  | finish | strayCharacter | strayInNumber | strayInName => exact h.elim

end Item

namespace Lexer

variable {l : Lexer} {items : List Item} {i : Item} {blanks rest cs : List Char}

/-- An item after blanks is the next token, and the text after it is read from a position
    where the items may come that follow. -/
theorem ofToken_tokens_cons (h : l.Admits (i :: items)) (hb : ∀ c ∈ blanks, isBlank c = true)
    (hl : l.rest = blanks ++ (i.written ++ rest)) (hr : Detached rest) :
    ∃ l' : Lexer, l.tokens.map Item.ofToken = i :: l'.tokens.map Item.ofToken ∧
      l'.rest = rest ∧ l'.Admits items := by
  have hspelled := h.admissible.spelled i (by simp)
  obtain ⟨t, l', hreads, hkind, htext, hrest, hprevious⟩ :=
    reads_of_cuts hb hl (Item.cuts_written hspelled (h.first i rfl) hr)
  have hitem : Item.ofToken t = i := by
    rw [Item.ofToken, hkind, htext, Item.text_written hspelled]
  refine ⟨l', ?_, hrest, ((admits_cons hreads.2 hprevious).mp h).2.2⟩
  rw [hreads.1, List.singleton_append, List.map_cons, hitem]

theorem ofToken_tokens_of_continues (h : Continues items cs) (ha : l.Admits items)
    (hl : l.rest = cs) : l.tokens.map .ofToken = items := by
  induction h generalizing l with
  | @nil trail htrail =>
    have hnext : l.next? = none := by
      simp [next?, skipBlanks, hl, List.dropWhile_eq_nil_iff.mpr htrail]
    rw [tokens_of_next?_none hnext, List.map_nil]
  | cons _ hgap h ih =>
    obtain ⟨l', htokens, hrest, ha'⟩ := ofToken_tokens_cons ha hgap hl h.detached
    rw [htokens, ih ha' hrest]

theorem ofToken_tokens_of_writes (h : Writes items cs) (ha : l.Admits items)
    (hl : l.rest = cs) : l.tokens.map .ofToken = items := by
  cases h with
  | blank h => exact ofToken_tokens_of_continues h ha hl
  | item h =>
    obtain ⟨l', htokens, hrest, ha'⟩ :=
      ofToken_tokens_cons ha (List.forall_mem_nil _) hl h.detached
    rw [htokens, ofToken_tokens_of_continues h ha' hrest]

end Lexer

/-- Items written with a space before each. -/
theorem continues_spaced (items : List Item) :
    Continues items (items.flatMap fun i => ' ' :: i.written) := by
  induction items with
  | nil => exact .nil (by simp)
  | cons i items ih =>
    show Continues (i :: items) ([' '] ++ (i.written ++ _))
    exact .cons (by simp) (List.forall_mem_singleton.mpr rfl) ih

/-- The admissible lists are the ones that occur. -/
theorem admissible_iff_exists (caret : Caret) (items : List Item) :
    Admissible caret items ↔ ∃ source, (∀ t ∈ tokenize caret source, t.kind.isStray = false) ∧
      (tokenize caret source).map .ofToken = items := by
  constructor
  · intro h
    obtain ⟨cs, hcs⟩ : ∃ cs, cs = items.flatMap fun i => ' ' :: i.written := ⟨_, rfl⟩
    have htokens : (tokenize caret (String.ofList cs)).map .ofToken = items :=
      Lexer.ofToken_tokens_of_writes (.blank (hcs ▸ continues_spaced items))
        ⟨h, fun _ _ _ => rfl⟩ String.toList_ofList
    refine ⟨_, fun t ht => ?_, htokens⟩
    have hspelled : (Item.ofToken t).IsSpelled caret :=
      h.spelled _ (htokens ▸ List.mem_map_of_mem ht)
    exact hspelled.isStray
  · rintro ⟨source, h, rfl⟩
    exact ((Lexer.ofString caret source).admits_tokens h).admissible

/-- The tokens of a source without strays are admissible, and admissible tokens are read back
    from every text of them. -/
theorem tokenize_language (caret : Caret) :
    (∀ source, (∀ t ∈ tokenize caret source, t.kind.isStray = false) →
      Admissible caret ((tokenize caret source).map .ofToken)) ∧
    (∀ items source, Admissible caret items → Writes items source.toList →
      (tokenize caret source).map .ofToken = items) := by
  refine ⟨fun source h => ((Lexer.ofString caret source).admits_tokens h).admissible,
    fun items source ha hw => ?_⟩
  exact Lexer.ofToken_tokens_of_writes hw ⟨ha, fun _ _ _ => rfl⟩ rfl

/-- A sign, the operator of the same character and a sign again. -/
theorem tokenize_language_signs :
    (tokenize .xor "-1 -\t-0x ").map Item.ofToken =
      [⟨.literal .integer, "-1"⟩, ⟨.operator .sub, ""⟩, ⟨.literal .hexadecimal, "-0x"⟩] := by
  have hone : Literal.Bare .integer ['1'] :=
    .integer (by simp) (List.forall_mem_singleton.mpr rfl)
  have hlast : Continues [⟨.literal .hexadecimal, "-0x"⟩] (['\t'] ++ (['-', '0', 'x'] ++ [' '])) :=
    .cons (by simp) (List.forall_mem_singleton.mpr rfl) (.nil (List.forall_mem_singleton.mpr rfl))
  have hoperator : Continues [⟨.operator .sub, ""⟩, ⟨.literal .hexadecimal, "-0x"⟩]
      ([' '] ++ (['-'] ++ (['\t'] ++ (['-', '0', 'x'] ++ [' '])))) :=
    .cons (by simp) (List.forall_mem_singleton.mpr rfl) hlast
  apply (tokenize_language .xor).2
  · refine ⟨?_, .cons_cons ?_ (.cons_cons ?_ (.singleton _))⟩
    · simp only [List.forall_mem_cons, Item.IsSpelled]
      exact ⟨⟨⟨['-'], ['1'], .inr rfl, hone, rfl⟩, by simp⟩, by simp,
        ⟨⟨['-'], ['0', 'x'], .inr rfl, .hexadecimal (by simp), rfl⟩, by simp⟩, by simp⟩
    · exact fun hsigned => absurd hsigned.1 (by simp [Token.Kind.isNumber])
    · exact fun _ => .inl rfl
  · exact .item hoperator

end Reckoner
