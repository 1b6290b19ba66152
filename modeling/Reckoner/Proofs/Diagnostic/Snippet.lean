import Reckoner.Diagnostic.Snippet
import Reckoner.Proofs.Token.Position

/-!
# Snippets point at spans

A span counts bytes, and a snippet lines and columns. They tell the same place as long as the
ends of the span do not lie inside of characters.

* `IsBoundary` and `IsAligned`: offsets between characters, and these or any beyond the text;
* `Snippet.byteLength_splitBytes`: at such an offset a text is split just there;
* `exists_lines`: the lines of a text, up to the end of one of them;
* `Snippet.IsPlaced`: the text around a snippet, which `Snippet.find` looks up
  (`Snippet.exists_isPlaced`);
* `Span.count`: the characters of a text in a span, as many as the snippet has marks
  (`Snippet.IsPlaced.width_eq`);
* `snippet_points`: the line, the column and the marks of a snippet.
-/

namespace Reckoner

/-! ## Offsets between characters -/

/-- An offset between two characters of a text, or at one of its ends. -/
def IsBoundary (cs : List Char) (offset : Nat) : Prop :=
  ∃ before after, cs = before ++ after ∧ offset = byteLength before

/-- An offset that does not lie inside of a character. It may lie beyond the text. -/
def IsAligned (cs : List Char) (offset : Nat) : Prop :=
  IsBoundary cs offset ∨ byteLength cs < offset

/-- Neither end of the span lies inside of a character. -/
structure Span.EndsAligned (span : Span) (cs : List Char) : Prop where
  start : IsAligned cs span.start
  stop : IsAligned cs span.stop

section Aligned

variable {cs ds : List Char} {c : Char} {n : Nat}

theorem isBoundary_zero (cs : List Char) : IsBoundary cs 0 := ⟨[], cs, rfl, rfl⟩

theorem isAligned_of_le (h : byteLength cs ≤ n) : IsAligned cs n := by
  rcases Nat.eq_or_lt_of_le h with heq | hlt
  · exact .inl ⟨cs, [], (List.append_nil cs).symm, heq.symm⟩
  · exact .inr hlt

/-- The first character ends at the offset or before it. -/
theorem IsAligned.of_cons (h : IsAligned (c :: cs) n) (hn : 0 < n) :
    c.utf8Size ≤ n ∧ IsAligned cs (n - c.utf8Size) := by
  rcases h with ⟨before, after, hcs, rfl⟩ | hlt
  · cases before with
    | nil => exact absurd hn (Nat.lt_irrefl 0)
    | cons d before =>
      obtain ⟨rfl, rfl⟩ := List.cons.inj hcs
      rw [byteLength, Nat.add_sub_cancel_left]
      exact ⟨Nat.le_add_right .., .inl ⟨before, after, rfl, rfl⟩⟩
  · rw [byteLength] at hlt
    exact ⟨by omega, .inr (by omega)⟩

theorem IsAligned.right (h : IsAligned (cs ++ ds) n) : IsAligned ds (n - byteLength cs) := by
  induction cs generalizing n with
  | nil => exact h
  | cons c cs ih =>
    rcases Nat.eq_zero_or_pos n with rfl | hn
    · rw [Nat.zero_sub]
      exact .inl (isBoundary_zero ds)
    · obtain ⟨-, htail⟩ := h.of_cons hn
      rw [byteLength, ← Nat.sub_sub]
      exact ih htail

theorem IsAligned.left (h : IsAligned (cs ++ ds) n) : IsAligned cs n := by
  rcases Nat.lt_or_ge n (byteLength cs) with hlt | hge
  · rcases h with ⟨before, after, heq, rfl⟩ | hgt
    · rcases List.append_eq_append_iff.mp heq with ⟨ms, rfl, -⟩ | ⟨ms, rfl, -⟩
      · rw [byteLength_append] at hlt
        omega
      · exact .inl ⟨before, ms, rfl, rfl⟩
    · rw [byteLength_append] at hgt
      omega
  · exact isAligned_of_le hge

end Aligned

namespace Snippet

variable {cs : List Char} {c : Char} {n : Nat}

@[simp] theorem splitBytes_zero (cs : List Char) : splitBytes 0 cs = ([], cs) := by
  cases cs with
  | nil => rfl
  | cons c cs =>
    have := c.utf8Size_pos
    rw [splitBytes, if_neg (by omega)]

theorem splitBytes_cons (h : c.utf8Size ≤ n) : splitBytes n (c :: cs) =
    (c :: (splitBytes (n - c.utf8Size) cs).1, (splitBytes (n - c.utf8Size) cs).2) := by
  rw [splitBytes, if_pos h]

theorem splitBytes_byteLength (cs ds : List Char) :
    splitBytes (byteLength cs) (cs ++ ds) = (cs, ds) := by
  induction cs with
  | nil => exact splitBytes_zero ds
  | cons c cs ih =>
    rw [byteLength, List.cons_append, splitBytes_cons (Nat.le_add_right ..),
      Nat.add_sub_cancel_left, ih]

/-- A text is split just at an offset that does not lie inside of a character, or at its end. -/
theorem byteLength_splitBytes (h : IsAligned cs n) :
    byteLength (splitBytes n cs).1 = min n (byteLength cs) := by
  induction cs generalizing n with
  | nil => simp [splitBytes, byteLength]
  | cons c cs ih =>
    rcases Nat.eq_zero_or_pos n with rfl | hn
    · simp [byteLength]
    · obtain ⟨hle, htail⟩ := h.of_cons hn
      rw [splitBytes_cons hle, byteLength, byteLength, ih htail]
      omega

end Snippet

/-! ## Lines -/

/-- Each line of a text but the last one ends with a newline. -/
theorem splitOn_newline (cs : List Char) :
    (cs.splitOn '\n').length = cs.count '\n' + 1 ∧
      (cs.splitOn '\n').flatMap (· ++ ['\n']) = cs ++ ['\n'] := by
  induction cs with
  | nil => exact ⟨rfl, rfl⟩
  | cons c cs ih =>
    obtain ⟨hlength, htext⟩ := ih
    rw [List.splitOn_cons_eq_if_modifyHead]
    by_cases hc : c = '\n'
    · subst hc
      simp [hlength, htext]
    · obtain ⟨line, lines, hlines⟩ := List.exists_cons_of_ne_nil (List.splitOn_ne_nil '\n' cs)
      rw [hlines] at hlength htext
      rw [if_neg (by simpa using hc), hlines, List.count_cons_of_ne (by simpa using hc)]
      refine ⟨hlength, ?_⟩
      simp only [List.modifyHead_cons, List.flatMap_cons, List.cons_append] at htext ⊢
      rw [htext]

/-- The lines of a text that has ended some of them, and goes on with one more. -/
theorem exists_lines {above line below : List Char} (ha : ∀ c ∈ above.getLast?, c = '\n')
    (hl : '\n' ∉ line) (hb : ∀ c ∈ below.head?, c = '\n') :
    ∃ lines lines', (above ++ (line ++ below)).splitOn '\n' = lines ++ line :: lines' ∧
      lines.length = above.count '\n' ∧ lines.flatMap (· ++ ['\n']) = above := by
  obtain ⟨lines', hrest⟩ : ∃ lines', (line ++ below).splitOn '\n' = line :: lines' := by
    cases below with
    | nil => exact ⟨[], by rw [List.append_nil, List.splitOn_eq_singleton hl]⟩
    | cons c below =>
      obtain rfl : c = '\n' := hb c rfl
      exact ⟨below.splitOn '\n', List.splitOn_append_cons_self_of_not_mem hl below⟩
  rcases List.eq_nil_or_concat above with rfl | ⟨ended, c, rfl⟩
  · exact ⟨[], lines', hrest, rfl, rfl⟩
  · rw [List.concat_eq_append] at ha ⊢
    obtain rfl : c = '\n' := ha c (by simp)
    obtain ⟨hlength, htext⟩ := splitOn_newline ended
    refine ⟨ended.splitOn '\n', lines', ?_, ?_, htext⟩
    · rw [List.append_assoc, List.singleton_append, List.splitOn_append_cons_self, hrest]
    · rw [hlength, List.count_append, List.count_singleton_self]

/-! ## The place of a snippet -/

namespace Snippet

/-- A snippet in the text that it was found in. -/
structure IsPlaced (span : Span) (cs above below : List Char) (s : Snippet) : Prop where
  text : cs = above ++ ((s.before ++ s.after) ++ below)
  newline_above : ∀ c ∈ above.getLast?, c = '\n'
  newline_below : ∀ c ∈ below.head?, c = '\n'
  not_mem : '\n' ∉ s.before ++ s.after
  line : s.line = above.count '\n' + 1
  start : byteLength (above ++ s.before) = min span.start (byteLength cs)
  width : s.width =
    (splitBytes (span.stop - min span.start (byteLength cs)) s.after).1.length

variable {span : Span} {cs above below : List Char} {s : Snippet}

theorem not_mem_takeWhile_inLine (cs : List Char) : '\n' ∉ cs.takeWhile inLine := by
  intro h
  have hline : inLine '\n' = true := List.mem_takeWhile_imp h
  exact absurd hline (by decide)

theorem head_dropWhile_inLine {c : Char} (h : c ∈ (cs.dropWhile inLine).head?) : c = '\n' := by
  have hhead := List.head?_dropWhile_not inLine cs
  rw [Option.mem_def.mp h] at hhead
  simpa [inLine] using hhead

/-- What is looked up for a span is a place in the source. -/
theorem exists_isPlaced {source : String} (h : IsAligned source.toList span.start) :
    ∃ above below, (find span source).IsPlaced span source.toList above below := by
  obtain ⟨passed, rest, hsplit⟩ : ∃ passed rest,
      splitBytes span.start source.toList = (passed, rest) := ⟨_, _, rfl⟩
  have htext : passed ++ rest = source.toList := by
    have happend := splitBytes_append span.start source.toList
    rwa [hsplit] at happend
  have hlength : byteLength passed = min span.start (byteLength source.toList) := by
    have hbytes := byteLength_splitBytes h
    rwa [hsplit] at hbytes
  have hfind : find span source =
      ⟨passed.count '\n' + 1, (passed.reverse.takeWhile inLine).reverse, rest.takeWhile inLine,
        (splitBytes (span.stop - min span.start (byteLength source.toList))
          (rest.takeWhile inLine)).1.length⟩ := by
    rw [find, hsplit, byteLength_toList]
  have hbefore : '\n' ∉ (passed.reverse.takeWhile inLine).reverse := by
    rw [List.mem_reverse]
    exact not_mem_takeWhile_inLine _
  -- the text that was passed is that above the line and that before the span
  have hpassed : (passed.reverse.dropWhile inLine).reverse ++
      (passed.reverse.takeWhile inLine).reverse = passed := by
    rw [← List.reverse_append, List.takeWhile_append_dropWhile, List.reverse_reverse]
  refine ⟨(passed.reverse.dropWhile inLine).reverse, rest.dropWhile inLine, ?_⟩
  rw [hfind]
  constructor
  · show source.toList = _ ++ (_ ++ _ ++ _)
    rw [← List.append_assoc, ← List.append_assoc, hpassed, List.append_assoc,
      List.takeWhile_append_dropWhile, htext]
  · intro c hc
    rw [List.getLast?_reverse] at hc
    exact head_dropWhile_inLine hc
  · intro c hc
    exact head_dropWhile_inLine hc
  · show '\n' ∉ _ ++ _
    rw [List.mem_append, not_or]
    exact ⟨hbefore, not_mem_takeWhile_inLine rest⟩
  · show passed.count '\n' + 1 = _
    have hcount := congrArg (List.count '\n') hpassed
    rw [List.count_append, List.count_eq_zero.mpr hbefore, Nat.add_zero] at hcount
    rw [hcount]
  · show byteLength (_ ++ _) = _
    rw [hpassed, hlength]
  · rfl

end Snippet

/-! ## Characters in a span -/

/-- How many characters begin within a span, in a text that begins at an offset. -/
def Span.count (span : Span) : Nat → List Char → Nat
  | _, [] => 0
  | offset, c :: cs =>
    (if span.start ≤ offset ∧ offset < span.stop then 1 else 0) +
      span.count (offset + c.utf8Size) cs

namespace Span

variable {span : Span} {cs ds : List Char} {offset : Nat}

theorem count_append (span : Span) (offset : Nat) (cs ds : List Char) :
    span.count offset (cs ++ ds) =
      span.count offset cs + span.count (offset + byteLength cs) ds := by
  induction cs generalizing offset with
  | nil => simp [count, byteLength]
  | cons c cs ih => simp only [List.cons_append, count, byteLength, ih, Nat.add_assoc]

/-- Before the span there are none of its characters. -/
theorem count_of_le_start (h : offset + byteLength cs ≤ span.start) : span.count offset cs = 0 := by
  induction cs generalizing offset with
  | nil => rfl
  | cons c cs ih =>
    have := c.utf8Size_pos
    rw [byteLength] at h
    rw [count, if_neg (by omega), ih (by omega)]

/-- After the span there are none of its characters. -/
theorem count_of_stop_le (h : span.stop ≤ offset) : span.count offset cs = 0 := by
  induction cs generalizing offset with
  | nil => rfl
  | cons c cs ih => rw [count, if_neg (by omega), ih (by omega)]

/-- From its start on the characters of a span are those that fit into its bytes. -/
theorem count_of_start_le (hstart : span.start ≤ offset) (h : IsAligned cs (span.stop - offset)) :
    span.count offset cs = (Snippet.splitBytes (span.stop - offset) cs).1.length := by
  induction cs generalizing offset with
  | nil => rfl
  | cons c cs ih =>
    rcases Nat.lt_or_ge offset span.stop with hlt | hge
    · obtain ⟨hle, htail⟩ := h.of_cons (by omega)
      rw [Nat.sub_sub] at htail
      rw [count, if_pos ⟨hstart, hlt⟩, ih (by omega) htail, Snippet.splitBytes_cons hle,
        List.length_cons, Nat.sub_sub, Nat.add_comm]
    · have hzero : span.stop - offset = 0 := by omega
      rw [count_of_stop_le hge, hzero, Snippet.splitBytes_zero]
      rfl

end Span

namespace Snippet

variable {span : Span} {cs above below : List Char} {s : Snippet}

theorem IsPlaced.isAligned_after (h : s.IsPlaced span cs above below)
    (hstop : IsAligned cs span.stop) :
    IsAligned s.after (span.stop - min span.start (byteLength cs)) := by
  rw [h.text, List.append_assoc, ← List.append_assoc] at hstop
  rw [← h.start]
  exact hstop.right.left

/-- A snippet has as many marks as there are characters of the span on its line. -/
theorem IsPlaced.width_eq (h : s.IsPlaced span cs above below) (hstop : IsAligned cs span.stop) :
    s.width = span.count (byteLength above) (s.before ++ s.after) := by
  have hafter := h.isAligned_after hstop
  have hstart := h.start
  have hbytes := congrArg byteLength h.text
  rw [byteLength_append] at hstart
  simp only [byteLength_append] at hbytes
  have hbefore : span.count (byteLength above) s.before = 0 := Span.count_of_le_start (by omega)
  rw [Span.count_append, hbefore, Nat.zero_add, h.width, hstart]
  rcases Nat.lt_or_ge (byteLength cs) span.start with hlt | hge
  · -- the span begins beyond the text, and nothing is left of the line
    have hnil : s.after = [] := by
      by_contra hne
      have := byteLength_pos hne
      omega
    rw [hnil]
    rfl
  · exact (Span.count_of_start_le (by omega) hafter).symm

theorem IsPlaced.width_le (h : s.IsPlaced span cs above below) : s.width ≤ s.after.length := by
  rw [h.width]
  have happend := congrArg List.length (splitBytes_append
    (span.stop - min span.start (byteLength cs)) s.after)
  rw [List.length_append] at happend
  omega

/-- What is printed, row by row. There is at least one mark. -/
theorem rows_eq (s : Snippet) (d : Diagnostic) :
    s.rows d = ["error: " ++ d.message, s.gutter ++ s!"--> line {s.line}, col {s.column}",
        toString s.line ++ " | " ++ String.ofList (s.before ++ s.after),
        s.gutter ++ " | " ++ spaces (s.column - 1) ++
          String.ofList
            (List.replicate (max 1 s.width) (if max 1 s.width = 1 then '^' else '~'))] ++
      d.help.toList.map fun help => s.gutter ++ " = help: " ++ help := by
  have hmarks : s.marks =
      String.ofList (List.replicate (max 1 s.width) (if max 1 s.width = 1 then '^' else '~')) := by
    unfold marks
    split_ifs with hle hone hone
    · rw [hone]
      rfl
    · omega
    · omega
    · rw [Nat.max_eq_right (by omega)]
  rw [← hmarks]
  unfold rows
  cases d.help <;> rfl

end Snippet

/-- A snippet prints the line of the source in which the span starts, with its number and the
    column, and below it as many marks as there are characters of the span on that line, at
    least one. The marks begin at the column and reach at most one column beyond the line. The
    rows without a line number are indented by its width. -/
theorem snippet_points (d : Diagnostic) {source : String} (h : d.span.EndsAligned source.toList) :
    let s := Snippet.find d.span source
    ∃ above line below left right,
      source.toList.splitOn '\n' = above ++ line :: below ∧ s.line = above.length + 1 ∧
      '\n' ∉ line ∧ line = left ++ right ∧ s.column = left.length + 1 ∧
      byteLength (above.flatMap (· ++ ['\n']) ++ left) =
        min d.span.start source.utf8ByteSize ∧
      let width := max 1 (d.span.count (byteLength (above.flatMap (· ++ ['\n']))) line)
      left.length + width ≤ line.length + 1 ∧
      let gutter := Snippet.spaces (toString s.line).length
      d.snippet source = String.intercalate "\n" (["error: " ++ d.message,
          gutter ++ s!"--> line {s.line}, col {s.column}",
          toString s.line ++ " | " ++ String.ofList line,
          gutter ++ " | " ++ Snippet.spaces (s.column - 1) ++
            String.ofList (List.replicate width (if width = 1 then '^' else '~'))] ++
        d.help.toList.map fun help => gutter ++ " = help: " ++ help) := by
  intro s
  obtain ⟨above, below, hplaced⟩ : ∃ above below, s.IsPlaced d.span source.toList above below :=
    Snippet.exists_isPlaced h.start
  obtain ⟨lines, lines', hlines, hnumber, habove⟩ :=
    exists_lines hplaced.newline_above hplaced.not_mem hplaced.newline_below
  rw [← hplaced.text] at hlines
  have hwidth := hplaced.width_eq h.stop
  have hle := hplaced.width_le
  have hstart := hplaced.start
  rw [byteLength_toList] at hstart
  refine ⟨lines, s.before ++ s.after, lines', s.before, s.after, hlines, ?_, hplaced.not_mem, rfl,
    rfl, ?_, ?_⟩
  · rw [hnumber]
    exact hplaced.line
  · rw [habove]
    exact hstart
  · intro width
    have hmarks : width = max 1 s.width := by rw [hwidth, ← habove]
    refine ⟨?_, ?_⟩
    · rw [hmarks, List.length_append]
      omega
    · intro gutter
      rw [hmarks]
      show String.intercalate "\n" (s.rows d) = _
      rw [Snippet.rows_eq]
      rfl

/-- A span that goes on beyond the line, and beyond the source. -/
theorem snippet_points_beyond :
    let source := "a\nxé+y\nz"
    let d : Diagnostic := ⟨.strayInName, "Invalid character 'é' in variable name", ⟨3, 20⟩, none⟩
    d.span.EndsAligned source.toList ∧
    ∃ above line below left right,
      source.toList.splitOn '\n' = above ++ line :: below ∧
      (Snippet.find d.span source).line = above.length + 1 ∧ line = left ++ right ∧
      (Snippet.find d.span source).column = left.length + 1 ∧
      byteLength (above.flatMap (· ++ ['\n']) ++ left) = 3 := by
  intro source d
  have htext : source.toList = ['a', '\n', 'x'] ++ ['é', '+', 'y', '\n', 'z'] := by decide +kernel
  have haligned : d.span.EndsAligned source.toList :=
    ⟨.inl ⟨_, _, htext, rfl⟩, .inr (by rw [htext]; decide)⟩
  obtain ⟨above, line, below, left, right, hlines, hnumber, -, hline, hcolumn, hstart, -⟩ :=
    snippet_points d haligned
  exact ⟨haligned, above, line, below, left, right, hlines, hnumber, hline, hcolumn, hstart⟩

end Reckoner
