import Reckoner.Proofs.Parser.Halting

/-!
# Where diagnostics are

A diagnostic is at the token that is taken, at a bracket that is open, or at the end of the
tokens. So what holds of all that may be said there holds of all diagnostics.

* `HoldsAt`: a property of whatever is said at a span;
* `Parser.Confined`: it holds of the diagnostics, and of whatever is said at the open brackets.
  It is kept by a token at which it holds (`Parser.Confined.step`), by tokens
  (`Parser.Confined.run`), and by the end if it holds there (`Parser.Confined.unwind`).
-/

namespace Reckoner

/-- The property holds of every diagnostic at a span. -/
def HoldsAt (S : Diagnostic → Prop) (span : Span) : Prop := ∀ d : Diagnostic, d.span = span → S d

namespace Parser

/-- The property holds of what was reported, and of whatever is reported at an open bracket. -/
structure Confined (S : Diagnostic → Prop) (p : Parser) : Prop where
  diagnostics : ∀ d ∈ p.diagnostics.toList, S d
  frames : ∀ f ∈ p.frames, HoldsAt S f.opening.span

variable {S : Diagnostic → Prop} {limit last : Nat} {p : Parser} {t : Token} {x : Sized}
  {op : Operator}

theorem confined_start (S : Diagnostic → Prop) : start.Confined S := ⟨by simp [start], by simp [start]⟩

namespace Confined

theorem report {d : Diagnostic} (h : p.Confined S) (hd : S d) : (p.report d).Confined S := by
  have hall : (p.report d).diagnostics.toList = p.diagnostics.toList ++ [d] := by
    simp [Parser.report]
  refine ⟨?_, h.frames⟩
  rw [hall]
  exact List.forall_mem_append.mpr ⟨h.diagnostics, List.forall_mem_singleton.mpr hd⟩

theorem withLevel (h : p.Confined S) (level : Level) : { p with level := level }.Confined S :=
  ⟨h.diagnostics, h.frames⟩

theorem halt (h : p.Confined S) (ht : S (.exceeds limit t)) : (p.halt limit t).Confined S :=
  ⟨(h.report ht).diagnostics, h.frames⟩

theorem checkHeight (h : p.Confined S) (ht : S (.exceeds limit t)) :
    (p.checkHeight limit t).Confined S := by
  unfold Parser.checkHeight
  split_ifs
  · exact h.halt ht
  · exact h

/-- Where an operand is due, it is reported at most that the limit is exceeded. -/
theorem addOperand_of_due (h : p.Confined S) (hl : p.level.expectsOperand = true)
    (ht : S (.exceeds limit t)) : (p.addOperand limit t x).Confined S := by
  rw [Parser.addOperand, if_pos hl]
  exact (h.withLevel _).checkHeight ht

theorem addOperand (h : p.Confined S) (ht : HoldsAt S t.span) :
    (p.addOperand limit t x).Confined S := by
  by_cases hl : p.level.expectsOperand = true
  · exact h.addOperand_of_due hl (ht _ rfl)
  · rw [Parser.addOperand, if_neg hl]
    exact h.report (ht _ rfl)

/-- Where an operator is due, it is reported at most that the limit is exceeded. -/
theorem addOperator_of_due (h : p.Confined S) (hl : p.level.expectsOperand = false)
    (ht : S (.exceeds limit t)) : (p.addOperator limit t op).Confined S := by
  rw [Parser.addOperator, if_neg (by simp [hl])]
  exact (h.withLevel _).checkHeight ht

theorem addOperator (h : p.Confined S) (ht : HoldsAt S t.span) :
    (p.addOperator limit t op).Confined S := by
  by_cases hl : p.level.expectsOperand = true
  · rw [Parser.addOperator, if_pos hl]
    exact h.report (ht _ rfl)
  · exact h.addOperator_of_due (by simpa using hl) (ht _ rfl)

theorem addStray {kind : Diagnostic.Kind} (h : p.Confined S) (ht : S (.atToken kind t))
    (defect : Option Tree.Defect) : (p.addStray t kind defect).Confined S := by
  obtain ⟨level, hlevel⟩ := addStray_eq p t kind defect
  rw [hlevel]
  exact (h.report ht).withLevel level

theorem enter (h : p.Confined S) (ht : HoldsAt S t.span) : (p.enter limit t).Confined S := by
  unfold Parser.enter
  split_ifs
  · exact h.halt (ht _ rfl)
  · exact ⟨h.diagnostics, List.forall_mem_cons.mpr ⟨ht, h.frames⟩⟩

theorem attach {opening : Token} {inner : Level} (h : p.Confined S)
    (ht : HoldsAt S opening.span) : (p.attach limit opening inner).Confined S := by
  unfold Parser.attach
  split
  · exact h.addOperand ht
  · exact (h.report (ht _ rfl)).addOperand ht
  · split_ifs
    · exact h
    · exact h.addOperand ht

theorem leave {frame : Frame} {frames : List Frame} (h : p.Confined S)
    (hf : p.frames = frame :: frames) : (p.leave limit frame frames).Confined S := by
  obtain ⟨hopening, houter⟩ := List.forall_mem_cons.mp (hf ▸ h.frames)
  exact attach (p := { p with frames := frames, level := frame.outer })
    ⟨h.diagnostics, houter⟩ hopening

theorem close (h : p.Confined S) (ht : HoldsAt S t.span) : (p.close limit t).Confined S := by
  unfold Parser.close
  split
  · exact h.report (ht _ rfl)
  · rename_i frame frames hf
    dsimp only
    split_ifs
    · exact (h.report (ht _ rfl)).leave hf
    · exact h.leave hf

theorem step (h : p.Confined S) (ht : HoldsAt S t.span) : (p.step limit t).Confined S := by
  unfold Parser.step
  split_ifs
  · exact h
  · cases hk : t.kind with
    | literal | name => exact h.addOperand ht
    | operator => exact h.addOperator ht
    | call | unknownCall | opening => exact h.enter ht
    | closing => exact h.close ht
    | strayCharacter | strayInNumber | strayInName => exact h.addStray (ht _ rfl) _
    | finish => exact h

theorem run {ts : List Token} (h : p.Confined S) (hts : ∀ t ∈ ts, HoldsAt S t.span) :
    (p.run limit ts).Confined S := by
  induction ts generalizing p with
  | nil => exact h
  | cons t ts ih =>
    obtain ⟨ht, hts⟩ := List.forall_mem_cons.mp hts
    exact ih (h.step ht) hts

/-- The end of a level is reported at its bracket, or at the end of the tokens. -/
theorem endLevel {opening : Option Token} (h : p.Confined S)
    (ho : ∀ t ∈ opening, HoldsAt S t.span) (hlast : S (.unexpectedEnd (.emptyAt last))) :
    (p.endLevel opening last).Confined S := by
  unfold Parser.endLevel
  split_ifs
  · exact h
  · cases opening with
    | none =>
      dsimp only
      split_ifs
      · exact h.report hlast
      · exact h
    | some t =>
      have hmissing : (p.report (.missingClosing t)).Confined S := h.report (ho t rfl _ rfl)
      dsimp only
      split_ifs
      · exact hmissing.report hlast
      · exact hmissing

theorem unwind {frames : List Frame} (h : p.Confined S) (hf : p.frames = frames)
    (hlast : S (.unexpectedEnd (.emptyAt last))) :
    (unwind limit last frames p).Confined S := by
  induction frames generalizing p with
  | nil => exact h.endLevel (by simp) hlast
  | cons frame frames ih =>
    have hopening : HoldsAt S frame.opening.span := h.frames frame (by simp [hf])
    have hend : (p.endLevel (some frame.opening) last).Confined S :=
      h.endLevel (by simpa using hopening) hlast
    exact ih (hend.leave (by rw [frames_endLevel, hf])) (frames_leave ..)

end Confined

end Parser

end Reckoner
