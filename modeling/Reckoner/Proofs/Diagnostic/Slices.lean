import Reckoner.Proofs.Diagnostic.Snippet
import Reckoner.Proofs.Token.Streaming
import Reckoner.Proofs.Parser.Places

/-!
# Snippets of parse diagnostics

`Snippet.find` makes do with any span. Where a source is cut by byte offsets instead, a cut
inside of a character or beyond the source is a failure, and so are bounds in the wrong order.
None of this happens for the diagnostics of a parse, because they are at tokens.

* `slice?`: the characters between two offsets, if they are offsets between characters;
* `Snippet.find?` and `Diagnostic.snippet?`: the place of a span, by slices, and the snippet
  that is printed for it. If the ends of the span do not lie inside of characters, it is the
  same place (`Snippet.find?_eq_some`);
* `span_of_mem_diagnostics`: where the diagnostics of a token list are;
* `snippet_of_parse`: the spans of the diagnostics of a source, and their snippets.
-/

namespace Reckoner

/-! ## Slices -/

/-- The characters between two offsets. It fails if an offset lies inside of a character or
    beyond the text, and if the offsets are in the wrong order. -/
def slice? (cs : List Char) (start stop : Nat) : Option (List Char) :=
  let taken := (Snippet.splitBytes stop cs).1
  let (before, part) := Snippet.splitBytes start taken
  if byteLength taken = stop ∧ byteLength before = start then some part else none

/-- The number between two bounds that is nearest to a number. It fails if the bounds are in
    the wrong order. -/
def clamp? (n low high : Nat) : Option Nat :=
  if low ≤ high then some (max low (min n high)) else none

variable {cs part : List Char} {span : Span} {start stop : Nat}

theorem slice?_eq_some_iff : slice? cs start stop = some part ↔ Between cs start stop part := by
  constructor
  · intro h
    unfold slice? at h
    dsimp only at h
    split_ifs at h with hbytes
    obtain ⟨hstop, hstart⟩ := hbytes
    obtain rfl := Option.some.inj h
    have htaken := Snippet.splitBytes_append stop cs
    have hpart := Snippet.splitBytes_append start (Snippet.splitBytes stop cs).1
    refine ⟨_, (Snippet.splitBytes stop cs).2, ?_, hstart.symm, ?_⟩
    · rw [← List.append_assoc, hpart, htaken]
    · have hlength := congrArg byteLength hpart
      rw [byteLength_append] at hlength
      omega
  · rintro ⟨before, after, rfl, rfl, rfl⟩
    have htaken : Snippet.splitBytes (byteLength before + byteLength part)
        (before ++ (part ++ after)) = (before ++ part, after) := by
      rw [← byteLength_append, ← List.append_assoc, Snippet.splitBytes_byteLength]
    simp [slice?, htaken, Snippet.splitBytes_byteLength, byteLength_append]

theorem clamp?_eq_some {n low high : Nat} (h : low ≤ high) :
    clamp? n low high = some (max low (min n high)) := if_pos h

/-- The ends of what is between two offsets lie between characters. -/
theorem Between.isBoundary (h : Between cs start stop part) :
    IsBoundary cs start ∧ IsBoundary cs stop := by
  obtain ⟨before, after, rfl, rfl, rfl⟩ := h
  refine ⟨⟨before, _, rfl, rfl⟩, before ++ part, after, ?_, (byteLength_append ..).symm⟩
  rw [List.append_assoc]

namespace Snippet

/-- The place of a span in a source that is cut by offsets: at the start of the span, after the
    last newline before it and before the next one after it, and at the end of the span or of
    that line. -/
def find? (span : Span) (source : String) : Option Snippet := do
  let cs := source.toList
  let start := min span.start source.utf8ByteSize
  let passed ← slice? cs 0 start
  let lineStart := byteLength (passed.reverse.dropWhile inLine)
  let rest ← slice? cs start source.utf8ByteSize
  let lineStop := start + byteLength (rest.takeWhile inLine)
  let above ← slice? cs 0 lineStart
  let line ← slice? cs lineStart lineStop
  let before ← slice? cs lineStart start
  let stop ← clamp? span.stop start lineStop
  let marked ← slice? cs start stop
  return ⟨above.count '\n' + 1, before, line.drop before.length, marked.length⟩

variable {above below : List Char} {s : Snippet}

theorem IsPlaced.inLine_of_mem (h : s.IsPlaced span cs above below) {c : Char}
    (hc : c ∈ s.before ++ s.after) : inLine c = true := by
  have hne : c ≠ '\n' := by
    rintro rfl
    exact h.not_mem hc
  simpa [inLine] using hne

/-- Back from the start of the span, the first newline is the end of what stands above. -/
theorem IsPlaced.dropWhile_inLine (h : s.IsPlaced span cs above below) :
    (above ++ s.before).reverse.dropWhile inLine = above.reverse := by
  have hbefore : ∀ c ∈ s.before.reverse, inLine c = true := fun c hc =>
    h.inLine_of_mem (List.mem_append_left _ (List.mem_reverse.mp hc))
  rw [List.reverse_append, List.dropWhile_append_of_pos hbefore]
  rcases List.eq_nil_or_concat above with rfl | ⟨ended, c, rfl⟩
  · rfl
  · have hc : c = '\n' := h.newline_above c (by simp)
    rw [List.concat_eq_append, List.reverse_append, List.reverse_singleton, List.singleton_append,
      List.dropWhile_cons_of_neg (by simp [hc, inLine])]

theorem IsPlaced.takeWhile_inLine (h : s.IsPlaced span cs above below) :
    (s.after ++ below).takeWhile inLine = s.after := by
  have hafter : ∀ c ∈ s.after, inLine c = true := fun c hc =>
    h.inLine_of_mem (List.mem_append_right _ hc)
  rw [List.takeWhile_append_of_pos hafter]
  cases below with
  | nil => simp
  | cons c below =>
    have hc : c = '\n' := h.newline_below c rfl
    rw [List.takeWhile_cons_of_neg (by simp [hc, inLine]), List.append_nil]

theorem byteLength_reverse (cs : List Char) : byteLength cs.reverse = byteLength cs := by
  induction cs with
  | nil => rfl
  | cons c cs ih =>
    rw [List.reverse_cons, byteLength_append, ih]
    simp only [byteLength]
    omega

/-- What is marked of a line is between the start of the span and the nearer one of two ends,
    that of the span and that of the line. -/
theorem IsPlaced.between_marked (h : s.IsPlaced span cs above below)
    (hstop : IsAligned cs span.stop) (hs : start = byteLength (above ++ s.before)) :
    Between cs start (max start (min span.stop (start + byteLength s.after)))
      (splitBytes (span.stop - start) s.after).1 := by
  have hafter := h.isAligned_after hstop
  rw [← h.start, ← hs] at hafter
  have hbytes := byteLength_splitBytes hafter
  have happend := splitBytes_append (span.stop - start) s.after
  refine ⟨above ++ s.before, (splitBytes (span.stop - start) s.after).2 ++ below, ?_, hs, ?_⟩
  · rw [← List.append_assoc (splitBytes _ _).1, happend, h.text]
    simp
  · omega

/-- The place of a span is found by slices, if the span does not begin or end inside of a
    character. -/
theorem find?_eq_some {source : String} (h : span.EndsAligned source.toList) :
    find? span source = some (find span source) := by
  obtain ⟨above, below, hplaced⟩ := exists_isPlaced h.start
  generalize find span source = s at hplaced ⊢
  obtain ⟨start, hs⟩ : ∃ start, start = byteLength (above ++ s.before) := ⟨_, rfl⟩
  have hmarked := slice?_eq_some_iff.mpr (hplaced.between_marked h.stop hs)
  have htext := hplaced.text
  have hstart := hplaced.start
  have hwidth := hplaced.width
  rw [← hstart, ← hs] at hwidth
  rw [← hs, byteLength_toList] at hstart
  have hsize := congrArg byteLength htext
  rw [byteLength_toList] at hsize
  simp only [byteLength_append] at hsize hs
  -- the other slices, one after the other
  have hpassed : slice? source.toList 0 start = some (above ++ s.before) :=
    slice?_eq_some_iff.mpr ⟨[], s.after ++ below, by simp [htext], rfl,
      by rw [byteLength_append]; omega⟩
  have hrest : slice? source.toList start source.utf8ByteSize = some (s.after ++ below) :=
    slice?_eq_some_iff.mpr ⟨above ++ s.before, [], by simp [htext],
      by rw [byteLength_append]; omega, by rw [byteLength_append]; omega⟩
  have habove : slice? source.toList 0 (byteLength above) = some above :=
    slice?_eq_some_iff.mpr ⟨[], s.before ++ s.after ++ below, by simp [htext], rfl, by omega⟩
  have hline : slice? source.toList (byteLength above) (start + byteLength s.after) =
      some (s.before ++ s.after) :=
    slice?_eq_some_iff.mpr ⟨above, below, htext, rfl, by rw [byteLength_append]; omega⟩
  have hbefore : slice? source.toList (byteLength above) start = some s.before :=
    slice?_eq_some_iff.mpr ⟨above, s.after ++ below, by simp [htext], rfl, by omega⟩
  simp only [find?, ← hstart, hpassed, hrest, habove, hline, hbefore, hmarked,
    Option.bind_eq_bind, Option.bind_some, hplaced.dropWhile_inLine, hplaced.takeWhile_inLine,
    byteLength_reverse, clamp?_eq_some (Nat.le_add_right start (byteLength s.after)),
    List.drop_left]
  rw [← hwidth, ← hplaced.line]
  rfl

end Snippet

/-- The snippet of a diagnostic in a source that is cut by offsets. -/
def Diagnostic.snippet? (d : Diagnostic) (source : String) : Option String :=
  (Snippet.find? d.span source).map fun s => String.intercalate "\n" (s.rows d)

theorem Diagnostic.snippet?_eq_some {d : Diagnostic} {source : String}
    (h : d.span.EndsAligned source.toList) : d.snippet? source = some (d.snippet source) := by
  rw [snippet?, Snippet.find?_eq_some h]
  rfl

/-! ## Spans of diagnostics -/

/-- Every diagnostic is at a token, or at the end of the last one. -/
theorem span_of_mem_diagnostics {limit : Nat} {tokens : List Token} {d : Diagnostic}
    (h : d ∈ (parse limit tokens).diagnostics) :
    (∃ t ∈ Token.upToFinish tokens, d.span = t.span) ∨
      ∃ t ∈ (Token.upToFinish tokens).getLast?, d.span = .emptyAt t.span.stop := by
  rw [parse_eq_ended] at h
  generalize Token.upToFinish tokens = ts at h ⊢
  rcases List.eq_nil_or_concat ts with rfl | ⟨us, t, rfl⟩
  · -- nothing is said about no tokens
    exact absurd h (by simp [Parser.ended, Parser.unwind, Parser.endLevel, Parser.start,
      Level.isEmpty])
  · rw [List.concat_eq_append] at h ⊢
    have hlast : Token.lastStop (us ++ [t]) = t.span.stop := by simp [Token.lastStop]
    let S : Diagnostic → Prop := fun d =>
      (∃ u ∈ us ++ [t], d.span = u.span) ∨ ∃ u ∈ (us ++ [t]).getLast?, d.span = .emptyAt u.span.stop
    have hrun : (Parser.start.run limit (us ++ [t])).Confined S :=
      (Parser.confined_start S).run fun u hu d hd => .inl ⟨u, hu, hd⟩
    have hended : (Parser.ended limit (us ++ [t])).Confined S := by
      refine hrun.unwind rfl (.inr ⟨t, by simp, ?_⟩)
      rw [hlast]
      rfl
    exact hended.diagnostics d h

/-- No token contains a newline. -/
theorem newline_not_mem_written {caret : Caret} {source : String} {t : Token}
    (ht : t ∈ tokenize caret source) : '\n' ∉ t.written := by
  obtain ⟨signs, c, cs, p, offset, hhead, hc, rfl⟩ := Lexer.exists_isHead_of_mem ht
  rw [Piece.written_token, hhead.written_item]
  intro hmem
  have hblank := hhead.isBlank_of_mem hc '\n' (List.mem_append_right _ hmem)
  exact absurd hblank (by decide)

theorem between_of_mem_tokenize {caret : Caret} {source : String} {t : Token}
    (ht : t ∈ tokenize caret source) :
    t.span.stop ≤ source.utf8ByteSize ∧
      Between source.toList t.span.start t.span.stop t.written := by
  obtain ⟨us, vs, htokens⟩ := List.append_of_mem ht
  obtain ⟨-, -, hstop, hbetween, -⟩ := (tokenize_covers caret source).1 us t vs htokens
  exact ⟨hstop, hbetween⟩

/-- A diagnostic of a source is at one of its tokens, or at the end of the last one. So it is
    between characters of the source, within a line, and its snippet can be cut out of the
    source by offsets: no slice is out of range or cuts a character, and no bounds are in the
    wrong order. -/
theorem snippet_of_parse {r : Reading} {limit : Nat} {source : String} {d : Diagnostic}
    (h : d ∈ (r.parseWithin limit source).diagnostics) :
    ((∃ t ∈ tokenize r.caret source, d.span = t.span) ∨
      ∃ t ∈ (tokenize r.caret source).getLast?, d.span = .emptyAt t.span.stop) ∧
    d.span.start ≤ d.span.stop ∧ d.span.stop ≤ source.utf8ByteSize ∧
    IsBoundary source.toList d.span.start ∧ IsBoundary source.toList d.span.stop ∧
    (∃ part, Between source.toList d.span.start d.span.stop part ∧ '\n' ∉ part) ∧
    d.snippet? source = some (d.snippet source) := by
  rw [Reading.parseWithin, Reading.tokens_eq_tokenize] at h
  have hspan := span_of_mem_diagnostics h
  rw [upToFinish_tokenize] at hspan
  obtain ⟨part, hsize, hbetween, hnewline⟩ : ∃ part, d.span.stop ≤ source.utf8ByteSize ∧
      Between source.toList d.span.start d.span.stop part ∧ '\n' ∉ part := by
    rcases hspan with ⟨t, ht, hd⟩ | ⟨t, ht, hd⟩
    · obtain ⟨hstop, hbetween⟩ := between_of_mem_tokenize ht
      rw [hd]
      exact ⟨t.written, hstop, hbetween, newline_not_mem_written ht⟩
    · obtain ⟨hstop, hbetween⟩ := between_of_mem_tokenize (List.mem_of_getLast? ht)
      obtain ⟨before, after, htext, hbytes⟩ := hbetween.isBoundary.2
      rw [hd]
      exact ⟨[], hstop, ⟨before, after, htext, hbytes, rfl⟩, List.not_mem_nil⟩
  obtain ⟨hstart, hstop⟩ := hbetween.isBoundary
  have hle : d.span.start ≤ d.span.stop := by
    obtain ⟨-, -, -, -, hlength⟩ := hbetween
    omega
  exact ⟨hspan, hle, hsize, hstart, hstop, ⟨part, hbetween, hnewline⟩,
    d.snippet?_eq_some ⟨.inl hstart, .inl hstop⟩⟩

/-- At the end of the tokens an operand is due. Before it there is a stray character of two
    bytes, and after it a blank. -/
theorem snippet_of_parse_end :
    let source := "é\n2+ "
    let d : Diagnostic := .unexpectedEnd ⟨5, 5⟩
    d ∈ (Reading.default.parseWithin 3 source).diagnostics ∧
      IsBoundary source.toList 5 ∧ d.snippet? source = some (d.snippet source) := by
  intro source d
  have hmem : d ∈ (Reading.default.parseWithin 3 source).diagnostics := by decide +kernel
  obtain ⟨-, -, -, hstart, -, -, hsnippet⟩ := snippet_of_parse hmem
  exact ⟨hmem, hstart, hsnippet⟩

end Reckoner
