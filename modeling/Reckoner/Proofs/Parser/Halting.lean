import Reckoner.Proofs.Parser.Run

/-!
# Halting

A parser halts only where it says so, and it says nothing of that kind elsewhere. So a
list of diagnostics without such a report comes from a parser that never halted.

* `Parser.frames_addOperand` and its neighbours: which levels an operation leaves open;
* `Parser.run_induction`, `Parser.exists_unwound`, `Parser.exists_ended`,
  `Parser.ended_induction`: what every step and the end of every level keeps holds at the end
  of the whole parse;
* `Parser.HaltsAloud`: a halted parser has reported it, whatever it has read.
-/

namespace Reckoner

namespace Parser

variable {limit : Nat} {p q : Parser} {t : Token} {x : Sized} {op : Operator}

/-! ## Open levels -/

@[simp] theorem frames_report (p : Parser) (d : Diagnostic) : (p.report d).frames = p.frames := rfl

@[simp] theorem frames_checkHeight (limit : Nat) (p : Parser) (t : Token) :
    (p.checkHeight limit t).frames = p.frames := by
  unfold checkHeight
  split_ifs <;> rfl

@[simp] theorem frames_addOperand (limit : Nat) (p : Parser) (t : Token) (x : Sized) :
    (p.addOperand limit t x).frames = p.frames := by
  unfold addOperand
  split_ifs <;> simp

@[simp] theorem frames_addOperator (limit : Nat) (p : Parser) (t : Token) (op : Operator) :
    (p.addOperator limit t op).frames = p.frames := by
  unfold addOperator
  split_ifs <;> simp

@[simp] theorem frames_addStray (p : Parser) (t : Token) (kind : Diagnostic.Kind)
    (defect : Option Tree.Defect) : (p.addStray t kind defect).frames = p.frames := by
  unfold addStray
  cases defect with
  | none => rfl
  | some d => dsimp only; split_ifs <;> rfl

@[simp] theorem frames_attach (limit : Nat) (p : Parser) (opening : Token) (inner : Level) :
    (p.attach limit opening inner).frames = p.frames := by
  unfold attach
  split
  · simp
  · simp
  · split_ifs <;> simp

@[simp] theorem frames_leave (limit : Nat) (p : Parser) (frame : Frame) (frames : List Frame) :
    (p.leave limit frame frames).frames = frames := by
  simp [leave]

@[simp] theorem frames_endLevel (p : Parser) (opening : Option Token) (last : Nat) :
    (p.endLevel opening last).frames = p.frames := by
  unfold endLevel
  split_ifs
  · rfl
  · cases opening <;> dsimp only <;> split_ifs <;> rfl

@[simp] theorem level_checkHeight (limit : Nat) (p : Parser) (t : Token) :
    (p.checkHeight limit t).level = p.level := by
  unfold checkHeight
  split_ifs <;> rfl

@[simp] theorem level_endLevel (p : Parser) (opening : Option Token) (last : Nat) :
    (p.endLevel opening last).level = p.level := by
  unfold endLevel
  split_ifs
  · rfl
  · cases opening <;> dsimp only <;> split_ifs <;> rfl

/-! ## The whole parse -/

/-- The parser after all tokens and the end of all levels. -/
def ended (limit : Nat) (ts : List Token) : Parser :=
  unwind limit (Token.lastStop ts) (start.run limit ts).frames (start.run limit ts)

/-- What is there after the tokens, and is kept by ending and leaving a level, is there when
    only the outermost level is left to end. -/
theorem exists_unwound {P : Parser → Prop} {last : Nat}
    (hleave : ∀ p frame frames, p.frames = frame :: frames → P p →
      P ((p.endLevel (some frame.opening) last).leave limit frame frames))
    {frames : List Frame} (hf : p.frames = frames) (hp : P p) :
    ∃ q, P q ∧ q.frames = [] ∧ unwind limit last frames p = q.endLevel none last := by
  induction frames generalizing p with
  | nil => exact ⟨p, hp, hf, rfl⟩
  | cons frame frames ih => exact ih (frames_leave ..) (hleave p frame frames hf hp)

/-- What every step keeps is there after any tokens. -/
theorem run_induction {P : Parser → Prop} (hstep : ∀ p t, P p → P (p.step limit t))
    (ts : List Token) (hp : P p) : P (p.run limit ts) := by
  induction ts generalizing p with
  | nil => exact hp
  | cons t ts ih => exact ih (hstep p t hp)

/-- What is there before the first token, and is kept by every step and by ending and
    leaving a level, is there when only the outermost level is left to end. -/
theorem exists_ended {P : Parser → Prop} (hstart : P start)
    (hstep : ∀ p t, P p → P (p.step limit t))
    (hleave : ∀ p frame frames last, p.frames = frame :: frames → P p →
      P ((p.endLevel (some frame.opening) last).leave limit frame frames))
    (ts : List Token) :
    ∃ p, P p ∧ p.frames = [] ∧ ended limit ts = p.endLevel none (Token.lastStop ts) :=
  exists_unwound (fun p frame frames => hleave p frame frames _) rfl
    (run_induction hstep ts hstart)

/-- What is there before the first token, and is kept by every step, by the end of a level
    and by leaving it, is there at the end. -/
theorem ended_induction {P : Parser → Prop} (hstart : P start)
    (hstep : ∀ p t, P p → P (p.step limit t))
    (hend : ∀ p opening last, P p → P (p.endLevel opening last))
    (hleave : ∀ p frame frames, p.frames = frame :: frames → P p → P (p.leave limit frame frames))
    (ts : List Token) : P (ended limit ts) := by
  obtain ⟨p, hp, -, hended⟩ := exists_ended hstart hstep
    (fun p frame frames last hf hp => hleave _ frame frames (by rw [frames_endLevel, hf])
      (hend p _ last hp)) ts
  rw [hended]
  exact hend p none _ hp

/-! ## The report -/

/-- A halted parser has reported that the limit was exceeded. -/
def HaltsAloud (p : Parser) : Prop :=
  p.halted = true → ∃ d ∈ p.diagnostics.toList, d.kind = .tooDeep

theorem haltsAloud_start : start.HaltsAloud := fun h => absurd h (by simp [start])

theorem Logs.haltsAloud (h : Logs limit p q) (hp : p.HaltsAloud) : q.HaltsAloud := by
  induction h with
  | same hd hh =>
    intro hq
    rw [hd]
    exact hp (hh ▸ hq)
  | @report p q d _ _ ih =>
    refine ih fun hq => ?_
    obtain ⟨e, he, hkind⟩ := hp hq
    exact ⟨e, (extends_report p d).subset he, hkind⟩
  | @halt p q t _ _ ih =>
    exact ih fun _ => ⟨.exceeds limit t, by simp [Parser.halt, Parser.report], rfl⟩

/-- Without a report of that kind in the end the parser did not halt before. -/
theorem HaltsAloud.halted_eq_false (hp : p.HaltsAloud) (h : p.Extends q)
    (hq : ∀ d ∈ q.diagnostics.toList, d.kind ≠ .tooDeep) : p.halted = false := by
  by_contra hhalted
  obtain ⟨d, hd, hkind⟩ := hp (by simpa using hhalted)
  exact hq d (h.subset hd) hkind

theorem halted_of_step (h : (p.step limit t).halted = false) : p.halted = false :=
  (logs_step limit p t).running h

theorem haltsAloud_run (limit : Nat) (ts : List Token) : (start.run limit ts).HaltsAloud :=
  (logs_run limit start ts).haltsAloud haltsAloud_start

theorem haltsAloud_ended (limit : Nat) (ts : List Token) : (ended limit ts).HaltsAloud :=
  (logs_unwind limit _ _ _).haltsAloud (haltsAloud_run limit ts)

end Parser

/-- What comes of parsing is what the parser has at the end. -/
theorem parse_eq_ended (limit : Nat) (tokens : List Token) :
    parse limit tokens =
      ⟨(Parser.ended limit (Token.upToFinish tokens)).level.tree,
        (Parser.ended limit (Token.upToFinish tokens)).diagnostics.toList⟩ := rfl

end Reckoner
