import Reckoner.Tree.Parse
import Reckoner.Proofs.Level

/-!
# Runs of the parser

What one step does to a parser, in two respects:

* `Parser.Logs`: every operation only adds diagnostics, and it halts exactly where it
  reports that the limit was exceeded (`Parser.logs_step`, `Parser.logs_unwind`). So a parse
  that ends without a diagnostic never had one (`Parser.Extends.silent`);
* the operations whose conditions are met say nothing and change the level alone
  (`Parser.addOperand_eq` and its neighbours), and where they say nothing, their
  conditions are met (`Parser.addOperand_silent` and its neighbours).
-/

namespace Reckoner.Parser

variable {limit : Nat} {p q r : Parser} {t : Token} {x : Sized} {op : Operator}

/-- The parser after some tokens. -/
def run (limit : Nat) (p : Parser) (ts : List Token) : Parser := ts.foldl (step limit) p

@[simp] theorem run_nil (limit : Nat) (p : Parser) : p.run limit [] = p := rfl

@[simp] theorem run_cons (limit : Nat) (p : Parser) (t : Token) (ts : List Token) :
    p.run limit (t :: ts) = (p.step limit t).run limit ts := rfl

theorem run_append (limit : Nat) (p : Parser) (ts us : List Token) :
    p.run limit (ts ++ us) = (p.run limit ts).run limit us := List.foldl_append ..

/-! ## Diagnostics stay -/

/-- From the first parser to the second some problems were reported, one of them that the
    limit was exceeded if and only if the second one halted there. -/
inductive Logs (limit : Nat) : Parser → Parser → Prop
  | same {p q : Parser} : q.diagnostics = p.diagnostics → q.halted = p.halted → Logs limit p q
  | report {p q : Parser} {d : Diagnostic} : d.kind ≠ .tooDeep → Logs limit (p.report d) q →
      Logs limit p q
  | halt {p q : Parser} {t : Token} : p.halted = false → Logs limit (p.halt limit t) q →
      Logs limit p q

/-- The diagnostics of the second parser begin with those of the first. -/
def Extends (p q : Parser) : Prop := p.diagnostics.toList <+: q.diagnostics.toList

/-- Nothing was reported. -/
def Silent (p : Parser) : Prop := p.diagnostics.toList = []

theorem Extends.refl (p : Parser) : p.Extends p := List.prefix_refl _

theorem Extends.trans (h : p.Extends q) (h' : q.Extends r) : p.Extends r := List.IsPrefix.trans h h'

theorem Extends.silent (h : p.Extends q) (hq : q.Silent) : p.Silent :=
  List.prefix_nil.mp (hq ▸ h)

theorem extends_report (p : Parser) (d : Diagnostic) : p.Extends (p.report d) := by
  simp [Extends, report]

theorem not_silent_report (p : Parser) (d : Diagnostic) : ¬ (p.report d).Silent := by
  simp [Silent, report]

namespace Logs

theorem refl (limit : Nat) (p : Parser) : Logs limit p p := .same rfl rfl

/-- Only the diagnostics and the halting of the first parser matter. -/
theorem congr (hd : p.diagnostics = q.diagnostics) (hh : p.halted = q.halted)
    (h : Logs limit q r) : Logs limit p r := by
  induction h generalizing p with
  | same hd' hh' => exact .same (hd'.trans hd.symm) (hh'.trans hh.symm)
  | @report q r d hk _ ih => exact .report hk (ih (by simp [Parser.report, hd]) hh)
  | @halt q r t hq _ ih =>
    exact .halt (t := t) (hh.trans hq) (ih (by simp [Parser.halt, Parser.report, hd]) rfl)

theorem of_levels {frames : List Frame} {level : Level}
    (h : Logs limit { p with frames := frames, level := level } q) : Logs limit p q :=
  congr (q := { p with frames := frames, level := level }) rfl rfl h

theorem trans (h : Logs limit p q) (h' : Logs limit q r) : Logs limit p r := by
  induction h with
  | same hd hh => exact h'.congr hd.symm hh.symm
  | report hk _ ih => exact .report hk (ih h')
  | halt hp _ ih => exact .halt hp (ih h')

theorem of_report {d : Diagnostic} (hd : d.kind ≠ .tooDeep) : Logs limit p (p.report d) :=
  .report hd (.refl limit _)

/-- No operation sets a halted parser going again. -/
theorem running (h : Logs limit p q) (hq : q.halted = false) : p.halted = false := by
  induction h with
  | same _ hh => rw [← hh, hq]
  | report _ _ ih => exact ih hq
  | halt hp _ _ => exact hp

/-- No operation takes a diagnostic back. -/
theorem toExtends (h : Logs limit p q) : p.Extends q := by
  induction h with
  | same hd _ => exact ⟨[], by rw [hd, List.append_nil]⟩
  | @report p q d _ _ ih => exact (extends_report p d).trans ih
  | @halt p q t _ _ ih => exact (extends_report p (.exceeds limit t)).trans ih

end Logs

theorem logs_checkHeight (limit : Nat) (p : Parser) (t : Token) :
    Logs limit p (p.checkHeight limit t) := by
  unfold checkHeight
  split_ifs with h
  · exact .halt (by simp_all) (.refl limit _)
  · exact .refl limit p

theorem logs_addOperand (limit : Nat) (p : Parser) (t : Token) (x : Sized) :
    Logs limit p (p.addOperand limit t x) := by
  unfold addOperand
  split_ifs
  · exact .of_levels (logs_checkHeight limit { p with level := p.level.addOperand x } t)
  · exact .of_report (by simp)

theorem logs_addOperator (limit : Nat) (p : Parser) (t : Token) (op : Operator) :
    Logs limit p (p.addOperator limit t op) := by
  unfold addOperator
  split_ifs
  · exact .of_report (by simp)
  · exact .of_levels (logs_checkHeight limit { p with level := p.level.addOperator op } t)

/-- A stray character is reported, whatever it stands for. -/
theorem addStray_eq (p : Parser) (t : Token) (kind : Diagnostic.Kind)
    (defect : Option Tree.Defect) :
    ∃ l, p.addStray t kind defect = { p.report (.atToken kind t) with level := l } := by
  unfold addStray
  cases defect with
  | none => exact ⟨_, rfl⟩
  | some d => dsimp only; split_ifs <;> exact ⟨_, rfl⟩

theorem logs_addStray {kind : Diagnostic.Kind} (hk : kind ≠ .tooDeep) (p : Parser) (t : Token)
    (defect : Option Tree.Defect) : Logs limit p (p.addStray t kind defect) := by
  obtain ⟨l, hl⟩ := addStray_eq p t kind defect
  rw [hl]
  exact .report (d := .atToken kind t) hk (.same rfl rfl)

theorem logs_enter (hp : p.halted = false) : Logs limit p (p.enter limit t) := by
  unfold enter
  split_ifs
  · exact .halt hp (.refl limit _)
  · exact .same rfl rfl

theorem logs_attach (limit : Nat) (p : Parser) (opening : Token) (inner : Level) :
    Logs limit p (p.attach limit opening inner) := by
  unfold attach
  split
  · exact logs_addOperand ..
  · exact (Logs.of_report (by simp)).trans (logs_addOperand ..)
  · split_ifs
    · exact .refl limit p
    · exact logs_addOperand ..

theorem logs_leave (limit : Nat) (p : Parser) (frame : Frame) (frames : List Frame) :
    Logs limit p (p.leave limit frame frames) :=
  .of_levels (logs_attach limit { p with frames := frames, level := frame.outer } _ _)

theorem logs_close (limit : Nat) (p : Parser) (t : Token) : Logs limit p (p.close limit t) := by
  unfold close
  split
  · exact .of_report (by simp)
  · dsimp only
    split_ifs
    · exact (Logs.of_report (by simp)).trans (logs_leave ..)
    · exact logs_leave ..

theorem logs_step (limit : Nat) (p : Parser) (t : Token) : Logs limit p (p.step limit t) := by
  unfold step
  split_ifs with hp
  · exact .refl limit p
  · rw [Bool.not_eq_true] at hp
    split
    · exact logs_addOperand ..
    · exact logs_addOperand ..
    · exact logs_addOperator ..
    · exact logs_enter hp
    · exact logs_enter hp
    · exact logs_enter hp
    · exact logs_close ..
    · exact logs_addStray (by simp) ..
    · exact logs_addStray (by simp) ..
    · exact logs_addStray (by simp) ..
    · exact .refl limit p

theorem logs_run (limit : Nat) (p : Parser) (ts : List Token) : Logs limit p (p.run limit ts) := by
  induction ts generalizing p with
  | nil => exact .refl limit p
  | cons t ts ih => exact (logs_step limit p t).trans (ih _)

theorem logs_endLevel (limit : Nat) (p : Parser) (opening : Option Token) (last : Nat) :
    Logs limit p (p.endLevel opening last) := by
  have hdue (p : Parser) : Logs limit p (p.report (.unexpectedEnd (.emptyAt last))) :=
    .of_report (by simp [Diagnostic.unexpectedEnd, Diagnostic.atSpan])
  unfold endLevel
  split_ifs
  · exact .refl limit p
  · cases opening with
    | none => dsimp only; split_ifs <;> [exact hdue p; exact .refl limit p]
    | some t =>
      have hmissing : Logs limit p (p.report (.missingClosing t)) := .of_report (by simp)
      dsimp only
      split_ifs
      · exact hmissing.trans (hdue _)
      · exact hmissing

theorem logs_unwind (limit last : Nat) (frames : List Frame) (p : Parser) :
    Logs limit p (unwind limit last frames p) := by
  induction frames generalizing p with
  | nil => exact logs_endLevel limit p none last
  | cons frame frames ih =>
    exact (logs_endLevel limit p _ last).trans ((logs_leave ..).trans (ih _))

theorem extends_addOperand (limit : Nat) (p : Parser) (t : Token) (x : Sized) :
    p.Extends (p.addOperand limit t x) := (logs_addOperand limit p t x).toExtends

theorem extends_addStray (p : Parser) (t : Token) (kind : Diagnostic.Kind)
    (defect : Option Tree.Defect) :
    (p.report (.atToken kind t)).Extends (p.addStray t kind defect) := by
  obtain ⟨l, hl⟩ := addStray_eq p t kind defect
  rw [hl]
  exact .refl _

theorem extends_leave (limit : Nat) (p : Parser) (frame : Frame) (frames : List Frame) :
    p.Extends (p.leave limit frame frames) := (logs_leave limit p frame frames).toExtends

theorem extends_step (limit : Nat) (p : Parser) (t : Token) : p.Extends (p.step limit t) :=
  (logs_step limit p t).toExtends

theorem extends_unwind (limit last : Nat) (frames : List Frame) (p : Parser) :
    p.Extends (unwind limit last frames p) := (logs_unwind limit last frames p).toExtends

/-- At the end of the tokens an open bracket is always reported. -/
theorem frames_eq_nil_of_silent {last : Nat} (hp : p.halted = false)
    (h : (unwind limit last p.frames p).Silent) : p.frames = [] := by
  cases hf : p.frames with
  | nil => rfl
  | cons frame frames =>
    rw [hf] at h
    -- the report of the innermost open bracket comes first
    have hend : (p.report (.missingClosing frame.opening)).Extends
        (p.endLevel (some frame.opening) last) := by
      unfold endLevel
      simp only [hp, Bool.false_eq_true, if_false]
      split_ifs
      · exact extends_report _ _
      · exact .refl _
    have hall := hend.trans ((extends_leave limit _ frame frames).trans
      (extends_unwind limit last frames _))
    exact absurd (hall.silent h) (not_silent_report p _)

/-! ## Operations that say nothing -/

theorem checkHeight_eq (hle : p.level.height ≤ limit) : p.checkHeight limit t = p := by
  unfold checkHeight
  rw [if_neg]
  simp only [Bool.and_eq_true, decide_eq_true_eq, not_and]
  omega

theorem checkHeight_silent (hp : p.halted = false) (h : (p.checkHeight limit t).Silent) :
    p.level.height ≤ limit := by
  by_contra hgt
  have : p.level.height > limit := by omega
  simp only [checkHeight, this, hp, decide_true, Bool.not_false, Bool.and_self, if_true] at h
  exact not_silent_report _ _ h

theorem addOperand_eq (hl : p.level.expectsOperand = true)
    (hle : (p.level.addOperand x).height ≤ limit) :
    p.addOperand limit t x = { p with level := p.level.addOperand x } := by
  unfold addOperand
  rw [if_pos hl]
  exact checkHeight_eq hle

theorem addOperand_silent (hp : p.halted = false) (h : (p.addOperand limit t x).Silent) :
    p.level.expectsOperand = true ∧ (p.level.addOperand x).height ≤ limit := by
  unfold addOperand at h
  split_ifs at h with hl
  · have hle := checkHeight_silent (by exact hp) h
    exact ⟨hl, hle⟩
  · exact absurd h (not_silent_report p _)

theorem addOperator_eq (hl : p.level.expectsOperand = false)
    (hle : (p.level.addOperator op).height ≤ limit) :
    p.addOperator limit t op = { p with level := p.level.addOperator op } := by
  unfold addOperator
  rw [if_neg (by simp [hl])]
  exact checkHeight_eq hle

theorem addOperator_silent (hp : p.halted = false) (h : (p.addOperator limit t op).Silent) :
    p.level.expectsOperand = false ∧ (p.level.addOperator op).height ≤ limit := by
  unfold addOperator at h
  split_ifs at h with hl
  · exact absurd h (not_silent_report p _)
  · have hle := checkHeight_silent (by exact hp) h
    exact ⟨by simpa using hl, hle⟩

theorem enter_eq (h : p.depth < limit) :
    p.enter limit t = { p with frames := ⟨t, p.level⟩ :: p.frames, level := .empty } := by
  unfold enter
  rw [if_neg (by omega)]

theorem enter_silent (h : (p.enter limit t).Silent) : p.depth < limit := by
  unfold enter at h
  split_ifs at h with hd
  · exact absurd h (not_silent_report p _)
  · omega

/-- A bracket around a complete level closes without a report. -/
theorem close_eq {frame : Frame} {frames : List Frame} (hf : p.frames = frame :: frames)
    (hl : p.level.expectsOperand = false) :
    p.close limit t =
      { p with frames := frames, level := frame.outer }.attach limit frame.opening p.level := by
  simp [close, hf, hl, leave]

theorem close_silent (h : (p.close limit t).Silent) :
    p.level.expectsOperand = false ∧ ∃ frame frames, p.frames = frame :: frames := by
  unfold close at h
  split at h
  · exact absurd h (not_silent_report p _)
  · rename_i frame frames hf
    refine ⟨?_, frame, frames, hf⟩
    by_contra hl
    simp only [Bool.not_eq_false] at hl
    simp only [hl, if_true] at h
    exact not_silent_report p _ ((extends_leave ..).silent h)

/-! ## Steps by the kind of the token -/

theorem step_operand {x : Tree} (hp : p.halted = false) (h : Tree.ofToken? t = some x) :
    p.step limit t = p.addOperand limit t (.ofTree x) := by
  unfold step
  rw [if_neg (by simp [hp])]
  unfold Tree.ofToken? at h
  split at h <;> simp_all <;> subst h <;> rfl

theorem step_operator {op : Operator} (hp : p.halted = false) (h : t.kind = .operator op) :
    p.step limit t = p.addOperator limit t op := by
  unfold step
  rw [if_neg (by simp [hp]), h]

theorem step_opening (hp : p.halted = false) (h : t.kind.opensLevel = true) :
    p.step limit t = p.enter limit t := by
  unfold step
  rw [if_neg (by simp [hp])]
  cases hk : t.kind <;> simp_all [Token.Kind.opensLevel]

theorem step_closing (hp : p.halted = false) (h : t.kind = .closing) :
    p.step limit t = p.close limit t := by
  unfold step
  rw [if_neg (by simp [hp]), h]

end Reckoner.Parser
