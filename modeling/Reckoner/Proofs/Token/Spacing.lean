import Reckoner.Proofs.Token.Coverage
import Reckoner.Proofs.Token.Locality

/-!
# Changing the blanks of a source

Blanks may be put in at the beginning of a source and right after its tokens, and a run of
blanks may become another one. This does not change the tokens, not even those of a
malformed source; it only moves them.

* `Respacing`: a change of blanks, step by step. `Respacing.IsValid` says where blanks may be
  put in and which runs may be exchanged, and `Respacing.added` counts the bytes that are
  added before a character;
* `Respacing.IsValid.keeps`: a change leaves a part without blanks as it is;
* `Lexer.next?_of_resembles`: a token is read the same way at another place;
* `Lexer.forall₂_tokens`: two positions with a change between their texts have the same
  tokens from there on;
* `tokenize_respaced`: the tokens of a source whose blanks are changed.
-/

namespace Reckoner

/-! ## Changes of blanks -/

/-- A step of a change. -/
inductive Respacing.Step
  /-- a character that stays as it is -/
  | keep (c : Char)
  /-- blanks that are put in -/
  | insert (blanks : List Char)
  /-- a run of blanks, and the blanks that come in its place -/
  | replace (run blanks : List Char)
deriving DecidableEq, Repr

/-- A change of the blanks of a text, from its beginning to its end. -/
abbrev Respacing := List Respacing.Step

namespace Respacing

/-- The text of a step before the change. -/
def Step.old : Step → List Char
  | keep c => [c]
  | insert _ => []
  | replace run _ => run

/-- The text of a step after the change. -/
def Step.new : Step → List Char
  | keep c => [c]
  | insert blanks => blanks
  | replace _ blanks => blanks

/-- The text before the change. -/
def old (r : Respacing) : List Char := r.flatMap Step.old

/-- The text after the change. -/
def new (r : Respacing) : List Char := r.flatMap Step.new

/-- The number of bytes that the change adds before the character at an offset, less those
    that it takes away. -/
def added : Respacing → Nat → Int
  | [], _ => 0
  | .keep c :: r, n => if n < c.utf8Size then 0 else added r (n - c.utf8Size)
  | .insert blanks :: r, n => byteLength blanks + added r n
  | .replace run blanks :: r, n =>
    (byteLength blanks - byteLength run) + added r (n - byteLength run)

/-- Changes of a text that begins at an offset. Blanks are put in at some offsets only, and a
    whole run of blanks, up to the next character that is none, comes in place of a whole
    run. -/
inductive IsValid (places : List Nat) : Nat → Respacing → Prop
  | nil {offset : Nat} : IsValid places offset []
  | keep {offset : Nat} {c : Char} {r : Respacing} : isBlank c = false →
      IsValid places (offset + c.utf8Size) r → IsValid places offset (.keep c :: r)
  | insert {offset : Nat} {blanks : List Char} {r : Respacing} : offset ∈ places →
      (∀ c ∈ blanks, isBlank c = true) → IsValid places offset r →
      IsValid places offset (.insert blanks :: r)
  | replace {offset : Nat} {run blanks : List Char} {r : Respacing} :
      run ≠ [] → (∀ c ∈ run, isBlank c = true) →
      blanks ≠ [] → (∀ c ∈ blanks, isBlank c = true) →
      (∀ c ∈ r.old.head?, isBlank c = false) → IsValid places (offset + byteLength run) r →
      IsValid places offset (.replace run blanks :: r)

/-! ## Parts of a change -/

variable {places : List Nat} {offset : Nat} {r s : Respacing} {solid rest : List Char}

@[simp] theorem old_nil : old [] = [] := rfl

@[simp] theorem new_nil : new [] = [] := rfl

@[simp] theorem old_cons (step : Step) (r : Respacing) : old (step :: r) = step.old ++ r.old := rfl

@[simp] theorem new_cons (step : Step) (r : Respacing) : new (step :: r) = step.new ++ r.new := rfl

@[simp] theorem new_append (r s : Respacing) : new (r ++ s) = r.new ++ s.new :=
  List.flatMap_append

@[simp] theorem old_keeps (cs : List Char) : old (cs.map .keep) = cs := by
  induction cs with
  | nil => rfl
  | cons c cs ih => simp [ih, Step.old]

@[simp] theorem new_keeps (cs : List Char) : new (cs.map .keep) = cs := by
  induction cs with
  | nil => rfl
  | cons c cs ih => simp [ih, Step.new]

/-- Behind a part of the change all that the part adds is counted. -/
theorem added_append (r s : Respacing) {n : Nat} (h : byteLength r.old ≤ n) :
    (r ++ s).added n =
      (byteLength r.new - byteLength r.old : Int) + s.added (n - byteLength r.old) := by
  induction r generalizing n with
  | nil => simp [byteLength]
  | cons step r ih =>
    rw [old_cons, byteLength_append] at h
    have hrest := ih (Nat.le_sub_of_add_le' h)
    cases step with
    | keep c =>
      have hc : ¬n < c.utf8Size := by
        simp only [Step.old, byteLength] at h
        omega
      simp only [Step.old, byteLength, Nat.add_zero] at hrest
      simp only [List.cons_append, added, if_neg hc, hrest, old_cons, new_cons, Step.old, Step.new,
        byteLength_append, byteLength, Nat.sub_sub, Nat.zero_add]
      push_cast
      omega
    | insert blanks | replace run blanks =>
      simp only [Step.old, byteLength, Nat.sub_zero] at hrest
      simp only [List.cons_append, added, hrest, old_cons, new_cons, Step.old, Step.new,
        byteLength_append, byteLength, Nat.sub_sub, Nat.zero_add]
      push_cast
      omega

/-- Nothing is added within a part that stays as it is. -/
theorem added_keeps (cs : List Char) (s : Respacing) {n : Nat} (h : n < byteLength cs) :
    added (cs.map .keep ++ s) n = 0 := by
  induction cs generalizing n with
  | nil => exact absurd h (Nat.not_lt_zero n)
  | cons c cs ih =>
    simp only [byteLength] at h
    simp only [List.map_cons, List.cons_append, added]
    split_ifs
    · rfl
    · exact ih (by omega)

/-- The text after the change begins like the text before it, or with a blank. -/
theorem IsValid.resembles (h : IsValid places offset r) : Resembles r.old r.new := by
  induction h with
  | nil => simp [Resembles]
  | keep => exact resembles_cons _ _ _
  | @insert _ blanks _ _ hblanks _ ih =>
    cases blanks with
    | nil => exact ih
    | cons b blanks => exact fun d hd => .inl (by simp_all [Step.new])
  | @replace _ _ blanks _ _ _ hne hblanks =>
    cases blanks with
    | nil => exact absurd rfl hne
    | cons b blanks => exact fun d hd => .inl (by simp_all [Step.new])

/-- A part of the text without blanks stays as it is where nothing can be put in. -/
theorem IsValid.keeps (h : IsValid places offset r) (hold : r.old = solid ++ rest)
    (hsolid : ∀ c ∈ solid, isBlank c = false)
    (hplaces : ∀ e ∈ places, offset ≤ e → offset + byteLength solid ≤ e) :
    ∃ s, r = solid.map .keep ++ s ∧ s.old = rest ∧
      IsValid places (offset + byteLength solid) s := by
  induction solid generalizing offset r with
  | nil => exact ⟨r, rfl, hold, h⟩
  | cons c solid ih =>
    have hc := c.utf8Size_pos
    obtain ⟨hblank, hsolid'⟩ := List.forall_mem_cons.mp hsolid
    simp only [byteLength] at hplaces ⊢
    cases h with
    | nil => cases hold
    | keep _ h =>
      simp only [old_cons, Step.old, List.cons_append, List.nil_append] at hold
      obtain ⟨rfl, htail⟩ := List.cons.inj hold
      obtain ⟨s, rfl, hs, hvalid⟩ := ih h htail hsolid' fun e he hle => by
        have := hplaces e he (by omega)
        omega
      exact ⟨s, rfl, hs, Nat.add_assoc _ _ _ ▸ hvalid⟩
    | insert hplace =>
      have := hplaces _ hplace (Nat.le_refl _)
      omega
    | replace hne hrun =>
      obtain ⟨d, run, rfl⟩ := List.exists_cons_of_ne_nil hne
      obtain ⟨rfl, -⟩ := List.cons.inj hold
      rw [hrun _ List.mem_cons_self] at hblank
      cases hblank

end Respacing

/-! ## Tokens at other places -/

/-- A token and the same token at another place. -/
structure Token.MovedBy (bytes : Int) (t t' : Token) : Prop where
  kind : t'.kind = t.kind
  text : t'.text = t.text
  start : (t'.span.start : Int) = t.span.start + bytes
  stop : (t'.span.stop : Int) = t.span.stop + bytes

namespace Lexer

variable {l l' l₁ : Lexer} {t : Token} {blanks rest : List Char} {c : Char} {cs : List Char}

/-- The position after some characters. -/
def past (l : Lexer) (cs rest : List Char) : Lexer :=
  { l with rest := rest, offset := l.offset + byteLength cs }

theorem tokens_past (hb : ∀ c ∈ blanks, isBlank c = true) (hl : l.rest = blanks ++ rest) :
    l.tokens = (l.past blanks rest).tokens := by
  have hskip : l.skipBlanks = (l.past blanks rest).skipBlanks := by
    simp only [skipBlanks, past, hl, List.dropWhile_append_of_pos hb,
      List.takeWhile_append_of_pos hb, byteLength_append, Nat.add_assoc]
  have hnext : l.next? = (l.past blanks rest).next? := by
    unfold next?
    rw [hskip]
  rw [tokens, tokens, hnext]

theorem skipBlanks_of_cons (hc : isBlank c = false) (hl : l.rest = c :: cs) :
    l.skipBlanks = l := by
  obtain ⟨caret, _, offset, previous⟩ := l
  obtain rfl := hl
  simp [skipBlanks, hc, byteLength]

/-- The position after a token of a kind with its characters. -/
def after (l : Lexer) (kind : Token.Kind) (solid rest : List Char) : Lexer :=
  { l.past solid rest with previous := some kind }

/-- A token is read at once, without blanks before it, and takes some characters. -/
structure Passes (l : Lexer) (t : Token) (solid rest : List Char) : Prop where
  next? : l.next? = some (t, l.after t.kind solid rest)
  text : l.rest = solid ++ rest
  isBlank_of_mem : ∀ c ∈ solid, isBlank c = false
  start : l.offset ≤ t.span.start ∧ t.span.start < t.span.stop
  stop : t.span.stop = l.offset + byteLength solid

theorem Passes.ne_nil {solid : List Char} (h : l.Passes t solid rest) : solid ≠ [] := by
  rintro rfl
  have hstart := h.start
  have hstop := h.stop
  simp only [byteLength] at hstop
  omega

theorem passes_of_isHead {p : Piece} (hc : isBlank c = false) (hl : l.rest = c :: cs)
    (h : Piece.IsHead l.caret l.allowsSign c cs p) :
    l.Passes (p.token l.offset) (p.dropped ++ p.lexeme) p.rest := by
  have hskip := skipBlanks_of_cons hc hl
  have hnext := next?_of_skipBlanks (hskip.symm ▸ hl)
  have hparts := Piece.parts_head l.caret l.allowsSign c cs
  have hlexeme := byteLength_pos (Piece.lexeme_head_ne_nil l.caret l.allowsSign c cs)
  rw [h.eq_head, hskip] at hnext
  rw [h.eq_head] at hparts hlexeme
  refine ⟨?_, hl.trans hparts.symm, h.isBlank_of_mem hc, ?_, ?_⟩
  · rw [hnext]
    simp only [after, past, Piece.token, byteLength_append, Nat.add_assoc]
  · simp only [Piece.token]
    omega
  · simp only [Piece.token, byteLength_append, Nat.add_assoc]

/-- The characters of a token are read the same way at another place, with a similar text
    after them. -/
theorem exists_passes (hc : isBlank c = false) (hl : l.rest = c :: cs)
    (hcaret : l'.caret = l.caret) (hprevious : l'.previous = l.previous) :
    ∃ t solid rest, l.Passes t solid rest ∧
      ∀ rest', Resembles rest rest' → l'.rest = solid ++ rest' →
        ∃ t', l'.Passes t' solid rest' ∧ t.MovedBy (l'.offset - l.offset) t' := by
  obtain ⟨p, hhead⟩ : ∃ p, Piece.IsHead l.caret l.allowsSign c cs p :=
    ⟨_, Piece.isHead_head ..⟩
  refine ⟨_, _, _, passes_of_isHead hc hl hhead, fun rest' hr hl' => ?_⟩
  obtain ⟨cs', htext, hhead'⟩ := hhead.of_resembles hr
  have hsigns : l'.allowsSign = l.allowsSign := by rw [allowsSign, allowsSign, hprevious]
  rw [← hcaret, ← hsigns] at hhead'
  rw [List.append_assoc, htext] at hl'
  refine ⟨_, passes_of_isHead hc hl' hhead', rfl, rfl, ?_, ?_⟩
  all_goals simp only [Piece.token]; omega

/-! ## Positions with a change between their texts -/

/-- A change goes on from two positions. What it puts in stands at the first of them or
    between the tokens from there on. -/
structure Respaced (places : List Nat) (r : Respacing) (l l' : Lexer) : Prop where
  caret : l'.caret = l.caret
  previous : l'.previous = l.previous
  old : l.rest = r.old
  new : l'.rest = r.new
  valid : r.IsValid places l.offset
  places : ∀ e ∈ places, e ≤ l.offset ∨ e ∈ l.tokens.map fun t => t.span.stop

variable {places : List Nat} {r : Respacing} {run : List Char}

theorem Respaced.insert (h : Respaced places (.insert blanks :: r) l l') :
    Respaced places r l (l'.past blanks r.new) ∧
      l'.tokens = (l'.past blanks r.new).tokens := by
  cases h.valid with
  | insert _ hblanks hr =>
    exact ⟨⟨h.caret, h.previous, h.old, rfl, hr, h.places⟩, tokens_past hblanks h.new⟩

theorem Respaced.replace (h : Respaced places (.replace run blanks :: r) l l') :
    Respaced places r (l.past run r.old) (l'.past blanks r.new) ∧
      l.tokens = (l.past run r.old).tokens ∧ l'.tokens = (l'.past blanks r.new).tokens := by
  cases h.valid with
  | replace _ hrun _ hblanks _ hr =>
    have htokens : l.tokens = (l.past run r.old).tokens := tokens_past hrun h.old
    refine ⟨⟨h.caret, h.previous, rfl, rfl, hr, fun e he => ?_⟩, htokens,
      tokens_past hblanks h.new⟩
    rw [← htokens]
    exact (h.places e he).imp_left fun hle => hle.trans (Nat.le_add_right _ _)

/-- At a character that is no blank both positions read the same token, and the change goes
    on behind it. -/
theorem Respaced.keep (h : Respaced places (.keep c :: r) l l') :
    ∃ t t' solid, ∃ s : Respacing, .keep c :: r = solid.map .keep ++ s ∧
      l.Passes t solid s.old ∧ l'.Passes t' solid s.new ∧ t.MovedBy (l'.offset - l.offset) t' ∧
      Respaced places s (l.after t.kind solid s.old) (l'.after t'.kind solid s.new) := by
  cases h.valid with
  | keep hc hr =>
  obtain ⟨t, solid, rest, hpasses, hsame⟩ := exists_passes hc h.old h.caret h.previous
  have hstop := hpasses.stop
  obtain ⟨d, solid, rfl⟩ := List.exists_cons_of_ne_nil hpasses.ne_nil
  obtain ⟨rfl, hold⟩ : c = d ∧ r.old = solid ++ rest :=
    List.cons.inj (h.old.symm.trans hpasses.text)
  simp only [byteLength] at hstop
  have htokens := tokens_of_next?_some hpasses.next?
  have hafter : ∀ e ∈ places, e ≤ l.offset ∨
      e ∈ t.span.stop :: (l.after t.kind (c :: solid) rest).tokens.map fun t => t.span.stop := by
    have hplaces := h.places
    rwa [htokens] at hplaces
  -- nothing is put in where the token stands
  have hkeeps : ∀ e ∈ places, l.offset + c.utf8Size ≤ e →
      l.offset + c.utf8Size + byteLength solid ≤ e := by
    intro e he hle
    have hsize := c.utf8Size_pos
    rcases hafter e he with hbefore | hmem
    · omega
    · rcases List.mem_cons.mp hmem with rfl | hmem
      · omega
      · obtain ⟨u, hu, rfl⟩ := List.mem_map.mp hmem
        have hlt := (cover_tokens _).offset_lt_stop u hu
        simp only [after, past, byteLength] at hlt
        omega
  obtain ⟨s, rfl, rfl, hs⟩ := hr.keeps hold
    (List.forall_mem_cons.mp hpasses.isBlank_of_mem).2 hkeeps
  obtain ⟨t', hpasses', hmoved⟩ := hsame s.new hs.resembles <|
    h.new.trans (by simp [Respacing.Step.new])
  refine ⟨t, t', c :: solid, s, rfl, hpasses, hpasses', hmoved, h.caret,
    congrArg some hmoved.kind, rfl, rfl, ?_, fun e he => ?_⟩
  · simpa only [after, past, byteLength, Nat.add_assoc] using hs
  · simp only [after, past, byteLength]
    rcases hafter e he with hbefore | hmem
    · exact .inl (by omega)
    · exact (List.mem_cons.mp hmem).imp_left fun heq => by omega

/-- The tokens from two such positions are the same, each of them moved. -/
theorem Respaced.forall₂_tokens (h : Respaced places r l l') :
    List.Forall₂ (fun t t' => l.offset ≤ t.span.start ∧
      t.MovedBy (l'.offset - l.offset + r.added (t.span.start - l.offset)) t')
      l.tokens l'.tokens := by
  induction hn : r.length using Nat.strong_induction_on generalizing l l' r with
  | _ n ih =>
  subst hn
  match r, h with
  | [], h =>
    rw [tokens_of_rest_nil h.old, tokens_of_rest_nil h.new]
    exact .nil
  | .insert blanks :: r, h =>
    obtain ⟨hrest, htokens'⟩ := h.insert
    rw [htokens']
    refine (ih _ (Nat.lt_succ_self _) hrest rfl).imp fun t t' ⟨hle, hmoved⟩ => ⟨hle, ?_⟩
    convert hmoved using 1
    simp only [past, Respacing.added]
    push_cast
    omega
  | .replace run blanks :: r, h =>
    obtain ⟨hrest, htokens, htokens'⟩ := h.replace
    rw [htokens, htokens']
    refine (ih _ (Nat.lt_succ_self _) hrest rfl).imp fun t t' ⟨hle, hmoved⟩ =>
      ⟨Nat.le_of_add_right_le hle, ?_⟩
    convert hmoved using 1
    simp only [past, Respacing.added, Nat.sub_sub]
    push_cast
    omega
  | .keep c :: r, h =>
    obtain ⟨t, t', solid, s, hr, hpasses, hpasses', hmoved, hrest⟩ := h.keep
    have hstart := hpasses.start
    have hstop := hpasses.stop
    rw [tokens_of_next?_some hpasses.next?, tokens_of_next?_some hpasses'.next?, hr]
    refine .cons ⟨hstart.1, ?_⟩ ((ih s.length ?_ hrest rfl).imp fun u u' ⟨hle, hmoved'⟩ => ⟨?_, ?_⟩)
    · have hinside : t.span.start - l.offset < byteLength solid := by omega
      rwa [Respacing.added_keeps solid s hinside, Int.add_zero]
    · rw [List.length_cons]
      have hlength := congrArg List.length hr
      have hpos := List.length_pos_iff.mpr hpasses.ne_nil
      simp only [List.length_cons, List.length_append, List.length_map] at hlength
      omega
    · simp only [after, past] at hle
      omega
    · simp only [after, past] at hle
      have houtside : byteLength (Respacing.old (solid.map .keep)) ≤ u.span.start - l.offset := by
        rw [Respacing.old_keeps]
        omega
      rw [Respacing.added_append _ s houtside, Respacing.old_keeps, Respacing.new_keeps]
      convert hmoved' using 1
      simp only [after, past, Nat.sub_sub]
      push_cast
      omega

end Lexer

/-! ## Sources -/

/-- When blanks are put in at the beginning of a source or right after its tokens, and runs of
    blanks become others, the tokens stay the same. Each of them moves by the number of bytes
    that the change adds before it. -/
theorem tokenize_respaced (caret : Caret) (source : String) (r : Respacing)
    (hsource : source.toList = r.old)
    (hr : r.IsValid (0 :: (tokenize caret source).map fun t => t.span.stop) 0) :
    List.Forall₂ (fun t t' => t.MovedBy (r.added t.span.start) t')
      (tokenize caret source) (tokenize caret (String.ofList r.new)) := by
  have hrespaced : Lexer.Respaced (0 :: (tokenize caret source).map fun t => t.span.stop) r
      (.ofString caret source) (.ofString caret (String.ofList r.new)) :=
    ⟨rfl, rfl, hsource, String.toList_ofList, hr, fun e he =>
      (List.mem_cons.mp he).imp_left Nat.le_of_eq⟩
  refine hrespaced.forall₂_tokens.imp fun t t' ⟨_, hmoved⟩ => ?_
  simpa only [Lexer.ofString, Nat.sub_zero, Int.sub_self, Int.zero_add] using hmoved

/-- A number and a name that are given up, with blanks put in around the stray characters. -/
theorem tokenize_respaced_strays :
    let r : Respacing := [.insert ['\n'], .keep '1', .keep '2', .keep 'é', .insert [' ', ' '],
      .replace ['\t'] ['\r', '\n'], .keep 'a', .keep 'b', .keep '_', .insert [' ']]
    r.IsValid (0 :: (tokenize .power "12é\tab_").map fun t => t.span.stop) 0 ∧
      List.Forall₂ (fun t t' => t.MovedBy (r.added t.span.start) t')
        (tokenize .power "12é\tab_") (tokenize .power "\n12é  \r\nab_ ") := by
  intro r
  have hr : r.IsValid (0 :: (tokenize .power "12é\tab_").map fun t => t.span.stop) 0 := by
    have htokens : tokenize .power "12é\tab_" =
        [⟨.strayInNumber, "é", ⟨2, 4⟩⟩, ⟨.strayInName, "_", ⟨7, 8⟩⟩] := by decide +kernel
    rw [htokens]
    exact .insert (by decide) (by simp [isBlank]) <| .keep rfl <| .keep rfl <| .keep rfl <|
      .insert (by decide) (by simp [isBlank]) <|
      .replace (by decide) (by simp [isBlank]) (by decide) (by simp [isBlank])
        (by simp [Respacing.Step.old, isBlank]) <|
      .keep rfl <| .keep rfl <| .keep rfl <| .insert (by decide) (by simp [isBlank]) .nil
  exact ⟨hr, tokenize_respaced .power "12é\tab_" r (by decide) hr⟩

end Reckoner
