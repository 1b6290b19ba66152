import Reckoner.Proofs.Parser.Halting

/-!
# Parsers within the limit

What a parser does next does not depend on what it has reported, and it depends on the limit
only where it halts. So a parser that goes on does the same under a larger limit, and with
other diagnostics before its own.

* `Parser.earlier`: a parser with diagnostics before its own;
* `Parser.earlier_step`, `Parser.earlier_run`, `Parser.earlier_unwind`: it does what the
  parser without them does, under every larger limit;
* `Parser.ended_of_le`: the whole parse under a larger limit, and `parse_of_le`: its tree and
  its diagnostics.
-/

namespace Reckoner

namespace Parser

/-- The parser with diagnostics before its own. -/
def earlier (ds : List Diagnostic) (p : Parser) : Parser :=
  { p with diagnostics := ds.toArray ++ p.diagnostics }

section Earlier

variable (ds : List Diagnostic) (p : Parser)

@[simp] theorem earlier_nil : p.earlier [] = p := by
  simp [earlier]

@[simp] theorem frames_earlier : (p.earlier ds).frames = p.frames := rfl

@[simp] theorem level_earlier : (p.earlier ds).level = p.level := rfl

@[simp] theorem halted_earlier : (p.earlier ds).halted = p.halted := rfl

theorem diagnostics_earlier :
    (p.earlier ds).diagnostics.toList = ds ++ p.diagnostics.toList := by
  simp [earlier]

theorem earlier_report (d : Diagnostic) :
    (p.earlier ds).report d = (p.report d).earlier ds := by
  simp [earlier, report]

theorem earlier_addStray (t : Token) (kind : Diagnostic.Kind) (defect : Option Tree.Defect) :
    (p.earlier ds).addStray t kind defect = (p.addStray t kind defect).earlier ds := by
  cases defect with
  | none => exact earlier_report ds p _
  | some d =>
    unfold addStray
    rw [earlier_report]
    dsimp only
    rw [apply_ite (earlier ds)]
    rfl

theorem earlier_endLevel (opening : Option Token) (last : Nat) :
    (p.earlier ds).endLevel opening last = (p.endLevel opening last).earlier ds := by
  unfold endLevel
  rw [halted_earlier]
  split_ifs
  · rfl
  · cases opening with
    | none =>
      dsimp only
      rw [apply_ite (earlier ds), ← earlier_report]
      rfl
    | some t =>
      dsimp only
      rw [apply_ite (earlier ds), ← earlier_report, ← earlier_report]
      rfl

end Earlier

section Within

variable {limit limit' : Nat} {p : Parser} {t : Token} {x : Sized}

/-- A level that is not too high is not too high for a larger limit. -/
theorem earlier_checkHeight (hle : limit ≤ limit') (ds : List Diagnostic)
    (h : (p.checkHeight limit t).halted = false) :
    (p.earlier ds).checkHeight limit' t = (p.checkHeight limit t).earlier ds := by
  have hp := (logs_checkHeight limit p t).running h
  have hheight : p.level.height ≤ limit := by
    by_contra hgt
    have hhalt : p.checkHeight limit t = p.halt limit t := by
      rw [checkHeight, if_pos (by simpa [hp] using hgt)]
    rw [hhalt] at h
    cases h
  rw [checkHeight_eq hheight]
  exact checkHeight_eq (p := p.earlier ds) (Nat.le_trans hheight hle)

theorem earlier_addOperand (hle : limit ≤ limit') (ds : List Diagnostic)
    (h : (p.addOperand limit t x).halted = false) :
    (p.earlier ds).addOperand limit' t x = (p.addOperand limit t x).earlier ds := by
  unfold addOperand at h ⊢
  rw [level_earlier]
  split_ifs at h ⊢
  · exact earlier_checkHeight hle ds h
  · exact earlier_report ds p _

theorem earlier_addOperator (hle : limit ≤ limit') (ds : List Diagnostic) {op : Operator}
    (h : (p.addOperator limit t op).halted = false) :
    (p.earlier ds).addOperator limit' t op = (p.addOperator limit t op).earlier ds := by
  unfold addOperator at h ⊢
  rw [level_earlier]
  split_ifs at h ⊢
  · exact earlier_report ds p _
  · exact earlier_checkHeight hle ds h

theorem earlier_enter (hle : limit ≤ limit') (ds : List Diagnostic)
    (h : (p.enter limit t).halted = false) :
    (p.earlier ds).enter limit' t = (p.enter limit t).earlier ds := by
  have hdepth : p.depth < limit := by
    by_contra hge
    rw [enter, if_pos (by omega)] at h
    cases h
  rw [enter_eq hdepth, enter_eq (p := p.earlier ds) (Nat.lt_of_lt_of_le hdepth hle)]
  rfl

theorem earlier_attach (hle : limit ≤ limit') (ds : List Diagnostic) {opening : Token}
    {inner : Level} (h : (p.attach limit opening inner).halted = false) :
    (p.earlier ds).attach limit' opening inner = (p.attach limit opening inner).earlier ds := by
  unfold attach at h ⊢
  cases hk : opening.kind with
  | call f =>
    simp only [hk] at h ⊢
    exact earlier_addOperand hle ds h
  | unknownCall =>
    simp only [hk] at h ⊢
    rw [earlier_report]
    exact earlier_addOperand hle ds h
  | finish | literal | name | operator | opening | closing | strayCharacter | strayInNumber
  | strayInName =>
    simp only [hk] at h ⊢
    split_ifs at h ⊢
    · rfl
    · exact earlier_addOperand hle ds h

theorem earlier_leave (hle : limit ≤ limit') (ds : List Diagnostic) {frame : Frame}
    {frames : List Frame} (h : (p.leave limit frame frames).halted = false) :
    (p.earlier ds).leave limit' frame frames = (p.leave limit frame frames).earlier ds :=
  earlier_attach hle ds h

theorem earlier_close (hle : limit ≤ limit') (ds : List Diagnostic)
    (h : (p.close limit t).halted = false) :
    (p.earlier ds).close limit' t = (p.close limit t).earlier ds := by
  unfold close at h ⊢
  rw [frames_earlier]
  cases hf : p.frames with
  | nil => exact earlier_report ds p _
  | cons frame frames =>
    simp only [hf] at h ⊢
    by_cases hl : p.level.expectsOperand = true
    · rw [if_pos hl] at h ⊢
      rw [if_pos (by exact hl), earlier_report]
      exact earlier_leave hle ds h
    · rw [if_neg hl] at h ⊢
      rw [if_neg (by exact hl)]
      exact earlier_leave hle ds h

theorem earlier_step (hle : limit ≤ limit') (ds : List Diagnostic)
    (h : (p.step limit t).halted = false) :
    (p.earlier ds).step limit' t = (p.step limit t).earlier ds := by
  have hp := halted_of_step h
  unfold step at h ⊢
  rw [halted_earlier]
  simp only [hp, Bool.false_eq_true, if_false] at h ⊢
  cases hk : t.kind with
  | literal | name =>
    rw [hk] at h
    exact earlier_addOperand hle ds h
  | operator op =>
    rw [hk] at h
    exact earlier_addOperator hle ds h
  | call | unknownCall | opening =>
    rw [hk] at h
    exact earlier_enter hle ds h
  | closing =>
    rw [hk] at h
    exact earlier_close hle ds h
  | strayCharacter | strayInNumber | strayInName => exact earlier_addStray ..
  | finish => rfl

theorem earlier_run (hle : limit ≤ limit') (ds : List Diagnostic) {ts : List Token}
    (h : (p.run limit ts).halted = false) :
    (p.earlier ds).run limit' ts = (p.run limit ts).earlier ds := by
  induction ts generalizing p with
  | nil => rfl
  | cons t ts ih =>
    have hstep : (p.step limit t).halted = false := (logs_run limit _ ts).running h
    rw [run_cons, earlier_step hle ds hstep]
    exact ih h

theorem earlier_unwind (hle : limit ≤ limit') (ds : List Diagnostic) {last : Nat}
    {frames : List Frame} (h : (unwind limit last frames p).halted = false) :
    unwind limit' last frames (p.earlier ds) = (unwind limit last frames p).earlier ds := by
  induction frames generalizing p with
  | nil => exact earlier_endLevel ds p none last
  | cons frame frames ih =>
    have hleave :
        ((p.endLevel (some frame.opening) last).leave limit frame frames).halted = false :=
      (logs_unwind limit last frames _).running h
    rw [unwind, earlier_endLevel, earlier_leave hle ds hleave]
    exact ih h

/-- The run up to a point of a parse that never halts is that under any larger limit. -/
theorem run_of_le (hle : limit ≤ limit') {ts : List Token} (h : (p.run limit ts).halted = false) :
    p.run limit' ts = p.run limit ts := by
  have hrun := earlier_run hle [] h
  rwa [earlier_nil, earlier_nil] at hrun

/-- A parse that never halts is that under any larger limit. -/
theorem ended_of_le (hle : limit ≤ limit') {ts : List Token} (h : (ended limit ts).halted = false) :
    ended limit' ts = ended limit ts := by
  have hrun : (start.run limit ts).halted = false := (logs_unwind ..).running h
  have hunwind := earlier_unwind hle [] h
  rw [earlier_nil, earlier_nil] at hunwind
  rw [ended, run_of_le hle hrun, hunwind, ended]

end Within

end Parser

/-- Where the limit is not exceeded, every larger limit gives the same tree and the same
    diagnostics, in the same order. -/
theorem parse_of_le {limit limit' : Nat} {tokens : List Token} (hle : limit ≤ limit')
    (h : ∀ d ∈ (parse limit tokens).diagnostics, d.kind ≠ .tooDeep) :
    parse limit' tokens = parse limit tokens := by
  have hgo : (Parser.ended limit (Token.upToFinish tokens)).halted = false :=
    (Parser.haltsAloud_ended limit _).halted_eq_false (.refl _) h
  rw [parse_eq_ended, parse_eq_ended, Parser.ended_of_le hle hgo]

/-- An unknown call after a product, with two variables in it and a bracket too many after it.
    Its height is the least limit. -/
theorem parse_of_le_unknownCall :
    let a : Token := ⟨.name, "a", ⟨0, 1⟩⟩
    let times : Token := ⟨.operator .mul, "", ⟨1, 2⟩⟩
    let call : Token := ⟨.unknownCall, "f(", ⟨2, 4⟩⟩
    let b : Token := ⟨.name, "b", ⟨4, 5⟩⟩
    let c : Token := ⟨.name, "c", ⟨6, 7⟩⟩
    let inner : Token := ⟨.closing, "", ⟨7, 8⟩⟩
    let outer : Token := ⟨.closing, "", ⟨8, 9⟩⟩
    let tokens := [a, times, call, b, c, inner, outer]
    let found : Parsed :=
      ⟨.binary .mul (.leaf .name "a") (.leaf (.invalid .function) "f"),
        [.atToken .operatorExpected c, .atToken .unknownFunction call,
          .atToken .strayClosing outer]⟩
    .exceeds 2 call ∈ (parse 2 tokens).diagnostics ∧
      3 ≤ 5 ∧ (∀ d ∈ (parse 3 tokens).diagnostics, d.kind ≠ .tooDeep) ∧
      parse 3 tokens = found ∧ parse 5 tokens = found := by
  intro a times call b c inner outer tokens found
  have hexceeds : .exceeds 2 call ∈ (parse 2 tokens).diagnostics := by decide
  have hwithin : ∀ d ∈ (parse 3 tokens).diagnostics, d.kind ≠ .tooDeep := by decide
  have hfound : parse 3 tokens = found := by decide
  exact ⟨hexceeds, by decide, hwithin, hfound, (parse_of_le (by decide) hwithin).trans hfound⟩

end Reckoner
