import Reckoner.Proofs.Token.Coverage

/-!
# Positions in a source

Offsets count bytes, and a source has at most one beginning of a length in bytes. So an offset
tells what was read before it and what is still to read.

* `eq_of_byteLength_eq`: beginnings of the same length are the same;
* `Lexer.HasRead`: a lexer that has read some tokens of a source, and no more. There is one
  after each of the tokens (`Lexer.exists_hasRead`);
* `tokenize_ordered`: the order of the tokens of a source;
* `tokenize_places`: every character that is no blank is in a token, or in what is given up
  before one.
-/

namespace Reckoner

/-! ## Beginnings of a text -/

theorem eq_of_byteLength_eq {cs ds es fs : List Char} (h : cs ++ ds = es ++ fs)
    (hlength : byteLength cs = byteLength es) : cs = es ∧ ds = fs := by
  have hnil (ms : List Char) (hm : byteLength ms = 0) : ms = [] := by
    by_contra hne
    have := byteLength_pos hne
    omega
  rcases List.append_eq_append_iff.mp h with ⟨ms, rfl, rfl⟩ | ⟨ms, rfl, rfl⟩
  · obtain rfl := hnil ms (by rw [byteLength_append] at hlength; omega)
    simp
  · obtain rfl := hnil ms (by rw [byteLength_append] at hlength; omega)
    simp

/-- What stands between an offset and another one is followed by what comes at that one. -/
theorem Between.append {cs part part' : List Char} {start middle stop : Nat}
    (h : Between cs start middle part) (h' : Between cs middle stop part') :
    ∃ before after, cs = before ++ (part ++ (part' ++ after)) ∧ start = byteLength before := by
  obtain ⟨before, after, hcs, hstart, hmiddle⟩ := h
  obtain ⟨before', after', hcs', hmiddle', -⟩ := h'
  have heq : before ++ part ++ after = before' ++ (part' ++ after') := by
    rw [List.append_assoc, ← hcs, hcs']
  obtain ⟨-, rfl⟩ := eq_of_byteLength_eq heq (by rw [byteLength_append]; omega)
  exact ⟨before, after', hcs, hstart⟩

/-- A character of two texts in a row is in the first or in the second one. -/
theorem append_eq_append_cons {cs ds before after : List Char} {c : Char}
    (h : cs ++ ds = before ++ c :: after) :
    (∃ right, cs = before ++ c :: right) ∨
      ∃ left, before = cs ++ left ∧ ds = left ++ c :: after := by
  rcases List.append_eq_append_iff.mp h with ⟨left, hbefore, hds⟩ | ⟨ms, hcs, hafter⟩
  · exact .inr ⟨left, hbefore, hds⟩
  · cases ms with
    | nil => exact .inr ⟨[], by simpa using hcs.symm, hafter.symm⟩
    | cons d right =>
      obtain ⟨rfl, -⟩ := List.cons.inj hafter
      exact .inl ⟨right, hcs⟩

/-! ## Tokens that were read -/

namespace Lexer

variable {caret : Caret} {source : String} {l l' : Lexer} {t : Token} {us vs ws : List Token}

theorem exists_next?_of_tokens {ts : List Token} (h : l.tokens = t :: ts) :
    ∃ l', l.next? = some (t, l') ∧ l'.tokens = ts := by
  cases hn : l.next? with
  | none =>
    rw [tokens_of_next?_none hn] at h
    cases h
  | some r =>
    rw [tokens_of_next?_some hn] at h
    obtain ⟨rfl, rfl⟩ := List.cons.inj h
    exact ⟨r.2, rfl, rfl⟩

/-- The lexer has read these tokens of a source, and no more. -/
structure HasRead (caret : Caret) (source : String) (us : List Token) (l : Lexer) : Prop where
  tokens : tokenize caret source = us ++ l.tokens
  text : ∃ before, source.toList = before ++ l.rest ∧ byteLength before = l.offset
  offset : l.offset = Token.lastStop us
  previous : l.previous = us.getLast?.map Token.kind
  caret : l.caret = caret

theorem hasRead_ofString (caret : Caret) (source : String) :
    (ofString caret source).HasRead caret source [] :=
  ⟨rfl, ⟨[], rfl, rfl⟩, rfl, rfl, rfl⟩

theorem HasRead.next (h : l.HasRead caret source us) (hn : l.next? = some (t, l')) :
    l'.HasRead caret source (us ++ [t]) := by
  obtain ⟨before, hsource, hbefore⟩ := h.text
  obtain ⟨blanks, p, hstep⟩ := exists_stepsBy hn
  have hstop := hstep.isCutAt.stop_eq
  rw [hstep.written] at hstop
  refine ⟨?_, ⟨before ++ (blanks ++ (p.dropped ++ p.lexeme)), by simp [hsource, hstep.rest], ?_⟩,
    by simp [hstep.offset, Token.lastStop], by simp [hstep.next], hstep.caret.trans h.caret⟩
  · rw [h.tokens, tokens_of_next?_some hn, List.append_assoc, List.singleton_append]
  · rw [byteLength_append, hstep.offset]
    omega

theorem HasRead.exists_hasRead (h : l.HasRead caret source us) (hl : l.tokens = ws ++ vs) :
    ∃ l' : Lexer, l'.HasRead caret source (us ++ ws) ∧ l'.tokens = vs := by
  induction ws generalizing us l with
  | nil => exact ⟨l, by rwa [List.append_nil], hl⟩
  | cons w ws ih =>
    obtain ⟨l', hn, hl'⟩ := exists_next?_of_tokens hl
    obtain ⟨l'', hread, hvs⟩ := ih (h.next hn) hl'
    exact ⟨l'', by rwa [List.append_assoc, List.singleton_append] at hread, hvs⟩

/-- After some of its tokens there is a position in a source. -/
theorem exists_hasRead (h : tokenize caret source = us ++ vs) :
    ∃ l : Lexer, l.HasRead caret source us ∧ l.tokens = vs :=
  (hasRead_ofString caret source).exists_hasRead h

/-- Each token is that of a piece. -/
theorem exists_isHead_of_mem (ht : t ∈ l.tokens) : ∃ signs c cs p offset,
    Piece.IsHead l.caret signs c cs p ∧ isBlank c = false ∧ t = p.token offset := by
  fun_induction tokens l with
  | case1 => exact absurd ht List.not_mem_nil
  | case2 l u l' h ih =>
    obtain ⟨blanks, p, hstep⟩ := exists_stepsBy h
    rcases List.mem_cons.mp ht with rfl | ht
    · obtain ⟨c, cs, -, hc, hhead⟩ := hstep.head
      exact ⟨_, c, cs, p, _, hhead, hc, hstep.token⟩
    · exact hstep.caret ▸ ih ht

end Lexer

/-! ## Characters in tokens -/

namespace Token

theorem Cover.exists_place {offset : Nat} {cs before after : List Char} {c : Char}
    {ts : List Token} (h : Cover offset cs ts) (hcs : cs = before ++ c :: after)
    (hc : isBlank c = false) : ∃ us t vs read blanks dropped rest, ts = us ++ t :: vs ∧
      cs = read ++ (blanks ++ (dropped ++ (t.written ++ rest))) ∧
      (us.getLast?.map fun t => t.span.stop).getD offset = offset + byteLength read ∧
      t.IsCutAt (offset + byteLength read) blanks dropped ∧
      ((∃ left right, t.written = left ++ c :: right ∧
          before = read ++ (blanks ++ (dropped ++ left))) ∨
        ∃ left right, dropped = left ++ c :: right ∧ before = read ++ (blanks ++ left)) := by
  induction h generalizing before with
  | nil hb =>
    have hblank := hb c (by simp [hcs])
    rw [hblank] at hc
    cases hc
  | @cons offset blanks dropped rest t ts hcut _ ih =>
    have hhere := hcut
    rw [← Nat.add_zero offset] at hhere
    rcases append_eq_append_cons hcs with ⟨right, hblanks⟩ | ⟨left, rfl, hsolid⟩
    · have hblank := hcut.gap c (by simp [hblanks])
      rw [hblank] at hc
      cases hc
    rcases append_eq_append_cons hsolid with ⟨right, hdropped⟩ | ⟨left, rfl, htoken⟩
    · exact ⟨[], t, ts, [], blanks, dropped, rest, rfl, rfl, rfl, hhere,
        .inr ⟨left, right, hdropped, rfl⟩⟩
    rcases append_eq_append_cons htoken with ⟨right, hwritten⟩ | ⟨left, rfl, hrest⟩
    · exact ⟨[], t, ts, [], blanks, dropped, rest, rfl, rfl, rfl, hhere,
        .inl ⟨left, right, hwritten, rfl⟩⟩
    obtain ⟨us, u, vs, read, blanks', dropped', rest', rfl, rfl, hlast, hcut', hplace⟩ :=
      ih hrest
    have hoffset := hcut.stop_add_byteLength read
    refine ⟨t :: us, u, vs, blanks ++ (dropped ++ (t.written ++ read)), blanks', dropped', rest',
      rfl, by simp, ?_, hoffset ▸ hcut', ?_⟩
    · rw [← hoffset, ← hlast, stop_getLast?_cons]
    · rcases hplace with ⟨left, right, hwritten, rfl⟩ | ⟨left, right, hdropped, rfl⟩
      · exact .inl ⟨left, right, hwritten, by simp⟩
      · exact .inr ⟨left, right, hdropped, by simp⟩

end Token

/-- Tokens do not overlap, and come one after the other. -/
theorem Token.Cover.pairwise {offset : Nat} {cs : List Char} {ts : List Token}
    (h : Cover offset cs ts) :
    (∀ t ∈ ts, offset ≤ t.span.start ∧ t.span.start < t.span.stop) ∧
      ts.Pairwise fun t u => t.span.stop ≤ u.span.start := by
  induction h with
  | nil => exact ⟨by simp, .nil⟩
  | cons hcut _ ih =>
    have hspan := hcut.start_lt_stop
    obtain ⟨hafter, hpairwise⟩ := ih
    refine ⟨List.forall_mem_cons.mpr ⟨hspan, fun u hu => ?_⟩,
      .cons (fun u hu => (hafter u hu).1) hpairwise⟩
    have := hafter u hu
    omega

/-- Before a token of a source others have ended, and after it others begin. -/
theorem tokenize_ordered {caret : Caret} {source : String} {us vs : List Token} {t : Token}
    (h : tokenize caret source = us ++ t :: vs) :
    (∀ u ∈ us, u.span.start < u.span.stop ∧ u.span.stop ≤ t.span.start) ∧
      ∀ v ∈ vs, t.span.stop ≤ v.span.start ∧ v.span.start < v.span.stop := by
  obtain ⟨hspans, hpairwise⟩ := ((Lexer.ofString caret source).cover_tokens).pairwise
  rw [show (Lexer.ofString caret source).tokens = us ++ t :: vs from h] at hspans hpairwise
  obtain ⟨-, htail, hbefore⟩ := List.pairwise_append.mp hpairwise
  obtain ⟨hafter, -⟩ := List.pairwise_cons.mp htail
  exact ⟨fun u hu => ⟨(hspans u (by simp [hu])).2, hbefore u hu t (by simp)⟩,
    fun v hv => ⟨hafter v hv, (hspans v (by simp [hv])).2⟩⟩

/-- Tokens begin before the last of them ends. -/
theorem lt_lastStop_of_mem {caret : Caret} {source : String} {us vs : List Token}
    (h : tokenize caret source = us ++ vs) : ∀ u ∈ us, u.span.start < Token.lastStop us := by
  intro u hu
  rcases List.eq_nil_or_concat us with rfl | ⟨us, w, rfl⟩
  · cases hu
  · rw [List.concat_eq_append] at h hu ⊢
    have hw : tokenize caret source = us ++ w :: vs := by simp [h]
    obtain ⟨hbefore, -⟩ := tokenize_ordered hw
    have hspan : w.span.start < w.span.stop := ((tokenize_covers caret source).1 us w vs hw).2.1
    have hlast : Token.lastStop (us ++ [w]) = w.span.stop := by simp [Token.lastStop]
    rcases List.mem_append.mp hu with hu | hu
    · have := hbefore u hu
      omega
    · obtain rfl := List.mem_singleton.mp hu
      omega

/-- Each character of a source that is no blank is in a token, or in what is given up before
    a token. -/
theorem tokenize_places (caret : Caret) {source : String} {before after : List Char} {c : Char}
    (hsource : source.toList = before ++ c :: after) (hc : isBlank c = false) :
    ∃ us t vs, tokenize caret source = us ++ t :: vs ∧
      ((∃ left right, t.written = left ++ c :: right ∧
          byteLength before = t.span.start + byteLength left) ∨
        ∃ blanks dropped left right,
          Between source.toList (Token.lastStop us) t.span.start (blanks ++ dropped) ∧
          (∀ b ∈ blanks, isBlank b = true) ∧ t.kind.GivesUp dropped ∧
          dropped = left ++ c :: right ∧
          byteLength before = Token.lastStop us + byteLength (blanks ++ left)) := by
  have hcover : Token.Cover 0 source.toList (tokenize caret source) :=
    (Lexer.ofString caret source).cover_tokens
  obtain ⟨us, t, vs, read, blanks, dropped, rest, htokens, hread, hlast, hcut, hplace⟩ :=
    hcover.exists_place hsource hc
  have hlast : Token.lastStop us = byteLength read := hlast.trans (Nat.zero_add _)
  have hstart := hcut.start
  refine ⟨us, t, vs, htokens, ?_⟩
  rcases hplace with ⟨left, right, hwritten, rfl⟩ | ⟨left, right, hdropped, rfl⟩
  · refine .inl ⟨left, right, hwritten, ?_⟩
    simp only [byteLength_append] at hstart ⊢
    omega
  · refine .inr ⟨blanks, dropped, left, right, ?_, hcut.gap, hcut.givesUp, hdropped, ?_⟩
    · refine ⟨read, t.written ++ rest, by rw [hread, List.append_assoc], hlast, ?_⟩
      rw [hlast, hstart, Nat.zero_add]
    · rw [hlast, byteLength_append]

end Reckoner
