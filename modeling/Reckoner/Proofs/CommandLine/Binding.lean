import Reckoner.CommandLine.Binding
import Reckoner.Proofs.Token.Value

/-!
# Names on the command line

    binding ::= space* name space* [=] space* value space*

An argument of this form, and no other, binds a variable. Its names are the ones that a
source may have for its variables, so that each variable can be bound and each name that is
bound can be used.

* `Text.trim_append`, `Text.trim_eq_self`: white space at the ends is all that is taken off;
* `tokenize_of_isWord`, `isWord_of_mem_tokenize`: the names of sources are the words;
* `CommandLine.parseBinding_split`: what comes of an argument by its first equals sign;
* `CommandLine.parseBinding_names`: bindings against the tokens of sources.
-/

namespace Reckoner

/-! ## White space at both ends -/

namespace Text

variable {left right cs : List Char}

/-- More white space at the ends does not count. -/
theorem trim_append (hl : ∀ c ∈ left, isWhiteSpace c = true)
    (hr : ∀ c ∈ right, isWhiteSpace c = true) : trim (left ++ cs ++ right) = trim cs := by
  have hright : (cs ++ right).dropWhile isWhiteSpace =
      if (cs.dropWhile isWhiteSpace).isEmpty then [] else cs.dropWhile isWhiteSpace ++ right := by
    rw [List.dropWhile_append, List.dropWhile_eq_nil_iff.mpr hr]
  rw [trim, trim, List.append_assoc, List.dropWhile_append_of_pos hl, hright]
  split
  · rename_i hempty
    rw [List.isEmpty_iff.mp hempty]
  · rw [List.reverse_append, List.dropWhile_append_of_pos (by simpa using hr)]

/-- Characters none of which is white space stay as they are. -/
theorem trim_eq_self (h : ∀ c ∈ cs, isWhiteSpace c = false) : trim cs = cs := by
  have hkeep {ds : List Char} (hd : ∀ c ∈ ds, isWhiteSpace c = false) :
      ds.dropWhile isWhiteSpace = ds := by
    cases ds with
    | nil => rfl
    | cons d ds => rw [List.dropWhile_cons, if_neg (by simp [hd d])]
  rw [trim, hkeep h, hkeep (by simpa using h), List.reverse_reverse]

end Text

/-! ## Words as sources -/

/-- A letter is no white space. -/
theorem IsWord.isWhiteSpace_of_mem {cs : List Char} (h : IsWord cs) :
    ∀ c ∈ cs, Text.isWhiteSpace c = false := by
  intro c hc
  have halpha := h.2 c hc
  unfold Char.isAlpha Char.isUpper Char.isLower at halpha
  simp only [Bool.or_eq_true, Bool.and_eq_true, decide_eq_true_eq, ge_iff_le,
    UInt32.le_iff_toNat_le] at halpha
  have hletter : 65 ≤ c.toNat ∧ c.toNat ≤ 90 ∨ 97 ≤ c.toNat ∧ c.toNat ≤ 122 := halpha
  simp only [Text.isWhiteSpace, Bool.or_eq_false_iff, Bool.and_eq_false_iff,
    decide_eq_false_iff_not]
  omega

/-- The only token of a word is its name. -/
theorem tokenize_of_isWord (caret : Caret) {name : String} (h : IsWord name.toList) :
    tokenize caret name = [⟨.name, name, ⟨0, name.utf8ByteSize⟩⟩] := by
  obtain ⟨c, cs, hname, hc, hhead⟩ :
      Piece.Cuts caret true .name name.toList [] := Piece.cuts_name h.1 h.2 detached_nil
  have hskip : (Lexer.ofString caret name).skipBlanks = Lexer.ofString caret name := by
    simp [Lexer.skipBlanks, Lexer.ofString, hname, hc, byteLength]
  have hrest : (Lexer.ofString caret name).skipBlanks.rest = c :: cs := by
    rw [hskip]
    exact hname
  have hnext := Lexer.next?_of_skipBlanks hrest
  rw [hskip] at hnext
  have hpiece : Piece.head (Lexer.ofString caret name).caret
      (Lexer.ofString caret name).allowsSign c cs = ⟨.name, [], name.toList, []⟩ := by
    rw [← hhead, List.append_nil]
    rfl
  rw [tokenize, Lexer.tokens_of_next?_some hnext, hpiece, Lexer.tokens_of_rest_nil rfl]
  simp [Piece.token, Token.Kind.keepsText, Lexer.ofString, byteLength, byteLength_toList]

/-- The names of a source are words. -/
theorem isWord_of_mem_tokenize {caret : Caret} {source : String} {t : Token}
    (ht : t ∈ tokenize caret source) (hkind : t.kind = .name) : IsWord t.text.toList := by
  have hspelled := (Lexer.ofString caret source).isSpelled_of_mem_tokens ht (by rw [hkind]; rfl)
  simpa only [Item.IsSpelled, Item.ofToken, hkind] using hspelled

/-! ## Bindings -/

namespace CommandLine

variable {argument name : String} {before value : List Char} {x : Float}

theorem isName_iff {cs : List Char} : isName cs = true ↔ IsWord cs := by
  simp [isName, IsWord]

/-- Nothing writes no number. -/
theorem readFloat?_nil : Decimal.readFloat? [] = none := by
  decide

/-- Without an equals sign nothing is bound. -/
theorem parseBinding_of_not_mem (h : '=' ∉ argument.toList) :
    parseBinding argument = .error (.noEquals argument) := by
  have hnone : argument.toList.dropWhile (· ≠ '=') = [] := by
    rw [List.dropWhile_eq_nil_iff]
    intro c hc
    exact decide_eq_true (by rintro rfl; exact h hc)
  rw [parseBinding, hnone]

/-- The first equals sign counts. What stands before it has to be a name and what comes after
    it a number, but for white space. -/
theorem parseBinding_split (h : argument.toList = before ++ '=' :: value) (hb : '=' ∉ before) :
    parseBinding argument = .ok (name, x) ↔ name.toList = Text.trim before ∧
      IsWord (Text.trim before) ∧ Decimal.readFloat? (Text.trim value) = some x := by
  have hmark : ∀ c ∈ before, decide (c ≠ '=') = true := fun c hc =>
    decide_eq_true (by rintro rfl; exact hb hc)
  have hdrop : argument.toList.dropWhile (· ≠ '=') = '=' :: value := by
    rw [h, List.dropWhile_append_of_pos hmark]
    rfl
  have htake : argument.toList.takeWhile (· ≠ '=') = before := by
    rw [h, List.takeWhile_append_of_pos hmark]
    simp
  simp only [parseBinding, hdrop, htake, Bool.not_eq_true']
  split_ifs with hname hvalue
  · rw [← Bool.not_eq_true, isName_iff] at hname
    exact ⟨nofun, fun h => absurd h.2.1 hname⟩
  · rw [List.isEmpty_iff.mp hvalue, readFloat?_nil]
    exact ⟨nofun, fun h => nomatch h.2.2⟩
  · rw [Bool.not_eq_false, isName_iff] at hname
    cases hread : Decimal.readFloat? (Text.trim value) with
    | none => exact ⟨nofun, fun h => nomatch h.2.2⟩
    | some y =>
      have hlist : String.ofList (Text.trim before) = name ↔ name.toList = Text.trim before := by
        rw [← String.toList_inj, String.toList_ofList, eq_comm]
      simp [hname, hlist]

/-- An argument with an equals sign is refused for its name or for its number. -/
theorem exists_error_iff (h : argument.toList = before ++ '=' :: value) (hb : '=' ∉ before) :
    (∃ e, parseBinding argument = .error e) ↔
      ¬IsWord (Text.trim before) ∨ Decimal.readFloat? (Text.trim value) = none := by
  constructor
  · rintro ⟨e, he⟩
    by_contra! hgood
    obtain ⟨hword, hnumber⟩ := hgood
    obtain ⟨x, hx⟩ := Option.ne_none_iff_exists'.mp hnumber
    have hok := (parseBinding_split h hb).mpr ⟨String.toList_ofList, hword, hx⟩
    rw [he] at hok
    cases hok
  · intro hbad
    cases hparse : parseBinding argument with
    | error e => exact ⟨e, rfl⟩
    | ok binding =>
      obtain ⟨-, hword, hx⟩ := (parseBinding_split h hb).mp hparse
      rcases hbad with hbad | hnone
      · exact absurd hword hbad
      · rw [hnone] at hx
        cases hx

/-- Arguments bind the names of variables to numbers. Each name that is bound is, as a source,
    that name and nothing else, under both meanings of the caret. Each name in a source can be
    bound to each number, whatever white space there is. All other arguments are refused. -/
theorem parseBinding_names :
    (∀ argument name x, parseBinding argument = .ok (name, x) →
      ∀ caret, tokenize caret name = [⟨.name, name, ⟨0, name.utf8ByteSize⟩⟩]) ∧
    (∀ caret source t, t ∈ tokenize caret source → t.kind = .name →
      ∀ left right value x, (∀ c ∈ left, Text.isWhiteSpace c = true) →
        (∀ c ∈ right, Text.isWhiteSpace c = true) →
        Decimal.readFloat? (Text.trim value) = some x →
        parseBinding (String.ofList (left ++ t.text.toList ++ right ++ '=' :: value)) =
          .ok (t.text, x)) ∧
    ∀ argument, (∃ e, parseBinding argument = .error e) ↔ '=' ∉ argument.toList ∨
      ∃ before value, argument.toList = before ++ '=' :: value ∧ '=' ∉ before ∧
        (¬IsWord (Text.trim before) ∨ Decimal.readFloat? (Text.trim value) = none) := by
  refine ⟨?_, ?_, ?_⟩
  · intro argument name x hok caret
    by_cases hmem : '=' ∈ argument.toList
    · obtain ⟨before, value, hsplit, hbefore⟩ := List.eq_append_cons_of_mem hmem
      obtain ⟨hname, hword, -⟩ := (parseBinding_split hsplit hbefore).mp hok
      exact tokenize_of_isWord caret (hname ▸ hword)
    · rw [parseBinding_of_not_mem hmem] at hok
      cases hok
  · intro caret source t ht hkind left right value x hleft hright hx
    have hword : IsWord t.text.toList := isWord_of_mem_tokenize ht hkind
    have hbefore : '=' ∉ left ++ t.text.toList ++ right := by
      simp only [List.mem_append]
      rintro ((hc | hc) | hc)
      · exact absurd (hleft _ hc) (by decide)
      · exact absurd (hword.2 _ hc) (by decide)
      · exact absurd (hright _ hc) (by decide)
    have htrim : Text.trim (left ++ t.text.toList ++ right) = t.text.toList := by
      rw [Text.trim_append hleft hright, Text.trim_eq_self hword.isWhiteSpace_of_mem]
    rw [parseBinding_split (String.toList_ofList ..) hbefore, htrim]
    exact ⟨rfl, hword, hx⟩
  · intro argument
    constructor
    · rintro ⟨e, he⟩
      by_cases hmem : '=' ∈ argument.toList
      · obtain ⟨before, value, hsplit, hbefore⟩ := List.eq_append_cons_of_mem hmem
        exact .inr ⟨before, value, hsplit, hbefore, (exists_error_iff hsplit hbefore).mp ⟨e, he⟩⟩
      · exact .inl hmem
    · rintro (hmem | ⟨before, value, hsplit, hbefore, hbad⟩)
      · exact ⟨_, parseBinding_of_not_mem hmem⟩
      · exact (exists_error_iff hsplit hbefore).mpr hbad

/-- A name of a source, bound between wide spaces to a number that has a sign and no digit
    before its point. -/
theorem parseBinding_names_spaces : ∃ x,
    parseBinding "\u3000rate\u00a0=\t-.5\n" = .ok ("rate", x) ∧
      tokenize .xor "rate" = [⟨.name, "rate", ⟨0, 4⟩⟩] := by
  obtain ⟨hlexes, hbinds, -⟩ := parseBinding_names
  have hmem : (⟨.name, "rate", ⟨2, 6⟩⟩ : Token) ∈ tokenize .power "2*rate" := by
    have htokens : tokenize .power "2*rate" = [⟨.literal .integer, "2", ⟨0, 1⟩⟩,
        ⟨.operator .mul, "", ⟨1, 2⟩⟩, ⟨.name, "rate", ⟨2, 6⟩⟩] := by decide +kernel
    simp [htokens]
  obtain ⟨x, hx⟩ : ∃ x, Decimal.readFloat? (Text.trim "\t-.5\n".toList) = some x :=
    Option.isSome_iff_exists.mp (by decide)
  have hbound := hbinds .power "2*rate" _ hmem rfl ['\u3000'] ['\u00a0'] "\t-.5\n".toList x
    (List.forall_mem_singleton.mpr rfl) (List.forall_mem_singleton.mpr rfl) hx
  exact ⟨x, hbound, hlexes _ _ x hbound .xor⟩

end CommandLine

end Reckoner
