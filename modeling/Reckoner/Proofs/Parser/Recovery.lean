import Reckoner.Proofs.Parser.Recognition
import Reckoner.Proofs.Parser.Accounting
import Reckoner.Proofs.Parser.Within

/-!
# Recovery

One token out of place spoils nothing else: the parser reports it and builds the tree of the
other tokens. Closing brackets that are missing at the end are reported where they were
opened, and the tree is that of the closed brackets.

* `Misplaced`: tokens that do not belong where they stand, with their diagnostic;
* `Parser.expectsOperand_run`: which tokens are due depends on the last one only;
* `Parser.exists_run_misplaced`: such tokens are reported and leave the levels as they were;
* `Parser.unwind_closers`: the end of the tokens closes brackets as closing ones do;
* `Parser.exists_ended_misplaced`, `Parser.ended_closers`: the whole parse of changed tokens;
* `parse_recovers`: both, for tokens that were parsed without a report.
-/

namespace Reckoner

open Grammar

/-! ## Places -/

namespace Token

/-- Tokens that end an operand. -/
def Kind.endsOperand : Kind → Bool
  | literal _ | name | closing => true
  | _ => false

/-- Whether an operand is due after tokens: at the beginning, and after an operator or an
    opening token. -/
def operandDue (ts : List Token) : Bool :=
  ts.getLast?.all fun t => t.kind.isOperator || t.kind.opensLevel

/-- Whether an operand ends with the last of the tokens. -/
def operandEnds (ts : List Token) : Bool := ts.getLast?.any fun t => t.kind.endsOperand

theorem operandDue_eq_false {ts : List Token} (h : operandEnds ts = true) :
    operandDue ts = false := by
  unfold operandEnds at h
  unfold operandDue
  cases hlast : ts.getLast? with
  | none => rw [hlast] at h; cases h
  | some t =>
    rw [hlast] at h
    cases hk : t.kind <;>
      simp_all [Kind.endsOperand, Kind.isOperator, Kind.opensLevel]

end Token

/-- After the tokens `pre` the tokens `ts` are out of place, which the diagnostic reports at
    the first of them. -/
inductive Misplaced (pre : List Token) : List Token → Diagnostic → Prop
  /-- a closing bracket where none is open -/
  | closing {t : Token} : (Brackets.ofTokens pre).opened = [] → t.kind = .closing →
      Misplaced pre [t] (.atToken .strayClosing t)
  /-- an operator where an operand is due -/
  | operator {t : Token} {op : Operator} : Token.operandDue pre = true → t.kind = .operator op →
      Misplaced pre [t] (.atToken .operandExpected t)
  /-- an operand, which may be a group or a call, right after another one -/
  | operand {t : Token} {ts : List Token} {n : Nat} {x : Tree} : Token.operandEnds pre = true →
      Derives .atom n (t :: ts) x → Misplaced pre (t :: ts) (.atToken .operatorExpected t)
  /-- a stray character -/
  | stray {t : Token} : t.kind = .strayCharacter →
      Misplaced pre [t] (.atToken .strayCharacter t)

namespace Parser

variable {limit last : Nat} {p : Parser} {t : Token} {x : Sized}

/-! ## What is due -/

theorem expectsOperand_addOperand (limit : Nat) (p : Parser) (t : Token) (x : Sized) :
    (p.addOperand limit t x).level.expectsOperand = false := by
  unfold addOperand
  split_ifs with hl
  · rw [level_checkHeight]
    exact Level.expectsOperand_addOperand ..
  · show p.level.expectsOperand = false
    simpa using hl

theorem expectsOperand_addOperator (limit : Nat) (p : Parser) (t : Token) (op : Operator) :
    (p.addOperator limit t op).level.expectsOperand = true := by
  unfold addOperator
  split_ifs with hl
  · exact hl
  · rw [level_checkHeight]
    exact Level.expectsOperand_addOperator op (by simpa using hl)

/-- A bracket that closes without a report ends an operand. -/
theorem expectsOperand_close (h : (p.close limit t).Silent) :
    (p.close limit t).level.expectsOperand = false := by
  obtain ⟨hl, frame, frames, hf⟩ := close_silent h
  rw [close_eq hf hl]
  unfold attach
  split
  · exact expectsOperand_addOperand ..
  · exact expectsOperand_addOperand ..
  · rw [if_neg (by simp [Level.isEmpty_eq_false hl])]
    exact expectsOperand_addOperand ..

theorem expectsOperand_step (hp : p.halted = false) (ht : t.isFinish = false)
    (h : (p.step limit t).Silent) :
    (p.step limit t).level.expectsOperand = (t.kind.isOperator || t.kind.opensLevel) := by
  unfold step at h ⊢
  rw [if_neg (by simp [hp])] at h ⊢
  cases hk : t.kind with
  | literal | name => exact expectsOperand_addOperand ..
  | operator op => exact expectsOperand_addOperator ..
  | call | unknownCall | opening =>
    rw [hk] at h
    rw [enter_eq (enter_silent h)]
    rfl
  | closing =>
    rw [hk] at h
    exact expectsOperand_close h
  | strayCharacter | strayInNumber | strayInName =>
    rw [hk] at h
    exact absurd ((extends_addStray ..).silent h) (not_silent_report p _)
  | finish => simp [Token.isFinish, hk] at ht

/-- As long as nothing is reported an operand is due after an operator or an opening token,
    at the beginning, and nowhere else. -/
theorem expectsOperand_run {ts : List Token} (hts : ∀ t ∈ ts, t.isFinish = false)
    (h : (start.run limit ts).Silent) :
    (start.run limit ts).level.expectsOperand = Token.operandDue ts := by
  rcases List.eq_nil_or_concat ts with rfl | ⟨ts, t, rfl⟩
  · rfl
  · rw [List.concat_eq_append] at hts h ⊢
    rw [run_append, run_cons, run_nil] at h ⊢
    have hbefore : (start.run limit ts).Silent := (extends_step limit _ t).silent h
    have hrun := tracks_run (fun u hu => hts u (by simp [hu])) hbefore
    rw [expectsOperand_step hrun.1.1 (hts t (by simp)) h]
    simp [Token.operandDue]

/-! ## Tokens out of place -/

/-- An operand after a complete level is reported at its first token, and left out. -/
theorem run_atom_of_complete {n : Nat} {ts : List Token} {x : Tree} (h : Derives .atom n ts x)
    (hp : p.halted = false) (hl : p.level.expectsOperand = false) (hn : p.depth + n ≤ limit)
    (hx : x.height ≤ limit) :
    ∃ t us, ts = t :: us ∧ p.run limit ts = p.report (.atToken .operatorExpected t) := by
  have hreport (t : Token) (x : Sized) :
      p.addOperand limit t x = p.report (.atToken .operatorExpected t) := by
    rw [addOperand, if_neg (by simp [hl])]
  cases h with
  | @operand t x hoperand =>
    refine ⟨t, [], rfl, ?_⟩
    rw [run_cons, run_nil, step_operand hp hoperand, hreport]
  | @group o c n ts x ho hd hc =>
    obtain ⟨l, hcomplete, -, hrun⟩ :=
      run_bracket hp hn (by rw [ho]; rfl) (readsAs_of_derives hd) hx hc
    refine ⟨o, ts ++ [c], rfl, ?_⟩
    rw [hrun]
    simp only [attach, ho, Level.isEmpty_eq_false hcomplete, Bool.false_eq_true, if_false]
    exact hreport ..
  | @call o c f n ts x ho hd hc =>
    have hargument : x.height ≤ limit := by
      simp only [Tree.call, Tree.height] at hx
      omega
    obtain ⟨l, -, -, hrun⟩ :=
      run_bracket hp hn (by rw [ho]; rfl) (readsAs_of_derives hd) hargument hc
    refine ⟨o, ts ++ [c], rfl, ?_⟩
    rw [hrun]
    simp only [attach, ho]
    exact hreport ..

/-- Misplaced tokens are reported, and all else stays as it was, at every limit that is
    large enough. -/
theorem exists_run_misplaced {pre ts : List Token} {d : Diagnostic} (h : Misplaced pre ts d)
    (hpre : ∀ t ∈ pre, t.isFinish = false) (hs : (start.run limit pre).Silent) :
    ∃ bound, ∀ big, bound ≤ big →
      (start.run limit pre).run big ts = (start.run limit pre).report d := by
  have hp : (start.run limit pre).halted = false := (tracks_run hpre hs).1.1
  have hdue := expectsOperand_run hpre hs
  cases h with
  | @closing t hopened ht =>
    refine ⟨0, fun big _ => ?_⟩
    have hf : (start.run limit pre).frames = [] := by
      rw [← opening_frames_run hp] at hopened
      exact List.map_eq_nil_iff.mp hopened
    rw [run_cons, run_nil, step_closing hp ht, close, hf]
  | @operator t op hplace ht =>
    refine ⟨0, fun big _ => ?_⟩
    rw [run_cons, run_nil, step_operator hp ht, addOperator, if_pos (hdue.trans hplace)]
  | @operand t us n x hplace hd =>
    refine ⟨max ((start.run limit pre).depth + n) x.height, fun big hbig => ?_⟩
    have hcomplete := hdue.trans (Token.operandDue_eq_false hplace)
    obtain ⟨u, vs, hsplit, hrun⟩ := run_atom_of_complete hd hp hcomplete
      ((Nat.le_max_left ..).trans hbig) ((Nat.le_max_right ..).trans hbig)
    obtain ⟨rfl, -⟩ := List.cons.inj hsplit
    exact hrun
  | @stray t ht =>
    refine ⟨0, fun big _ => ?_⟩
    rw [run_cons, run_nil, step, if_neg (by simp [hp]), ht]
    rfl

/-! ## The end of the tokens -/

/-- Nothing is due in a complete level, and in one in which nothing was read. -/
def NothingDue (p : Parser) : Prop := p.level = .empty ∨ p.level.expectsOperand = false

theorem endLevel_none (hp : p.NothingDue) (last : Nat) : p.endLevel none last = p := by
  unfold endLevel
  have hdue : (!p.level.isEmpty && p.level.expectsOperand) = false := by
    rcases hp with hempty | hcomplete
    · rw [hempty]; rfl
    · rw [hcomplete, Bool.and_false]
  simp [hdue]

theorem endLevel_some (hgo : p.halted = false) (hp : p.level.expectsOperand = false)
    (opening : Token) (last : Nat) :
    p.endLevel (some opening) last = p.report (.missingClosing opening) := by
  unfold endLevel
  rw [if_neg (by simp [hgo])]
  dsimp only
  rw [if_neg]
  simp [report, hp]

/-- Nothing was reported, and no level is open but the outermost one, in which nothing is
    due. -/
structure Over (p : Parser) : Prop where
  silent : p.Silent
  halted : p.halted = false
  frames : p.frames = []
  nothingDue : p.NothingDue

theorem over_of_parse {tokens : List Token} (h : (parse limit tokens).diagnostics = []) :
    (start.run limit (Token.upToFinish tokens)).Over := by
  have hs : (start.run limit (Token.upToFinish tokens)).Silent := (extends_unwind ..).silent h
  have hp := (tracks_run (fun t ht => Token.isFinish_of_mem_upToFinish ht) hs).1.1
  obtain ⟨hf, hdue⟩ := finish_silent hp h
  exact ⟨hs, hp, hf, hdue⟩

/-- Then the end of the tokens adds nothing, whatever was reported before. -/
theorem Over.unwind_earlier (hp : p.Over) (limit last : Nat) (ds : List Diagnostic) :
    unwind limit last (p.earlier ds).frames (p.earlier ds) = p.earlier ds := by
  rw [frames_earlier, hp.frames]
  exact endLevel_none (p := p.earlier ds) hp.nothingDue last

theorem report_earlier (hs : p.Silent) (ds : List Diagnostic) (d : Diagnostic) :
    (p.earlier ds).report d = p.earlier (ds ++ [d]) := by
  have hnone : p.diagnostics = #[] := by simpa [Silent] using hs
  simp [earlier, report, hnone]

/-- The end of the tokens closes the open brackets as closing brackets would, and reports
    them. -/
theorem unwind_closers {closers : List Token} (hclosers : ∀ t ∈ closers, t.kind = .closing)
    (h : (p.run limit closers).Over) (ds : List Diagnostic) :
    unwind limit last p.frames (p.earlier ds) =
        (p.run limit closers).earlier
          (ds ++ p.frames.map fun f => .missingClosing f.opening) ∧
      p.frames.length = closers.length := by
  induction closers generalizing p ds with
  | nil =>
    rw [run_nil] at h ⊢
    have hend := h.unwind_earlier limit last ds
    rw [frames_earlier] at hend
    rw [hend, h.frames, List.map_nil, List.append_nil]
    exact ⟨rfl, rfl⟩
  | cons t closers ih =>
    have hp : p.halted = false := (logs_run limit p (t :: closers)).running h.halted
    have hs : p.Silent := (extends_run limit p (t :: closers)).silent h.silent
    rw [run_cons] at h ⊢
    have hstep : p.step limit t = p.close limit t := step_closing hp (hclosers t (by simp))
    have hclose : (p.close limit t).Silent := by
      rw [← hstep]
      exact (extends_run limit _ closers).silent h.silent
    obtain ⟨hl, frame, frames, hf⟩ := close_silent hclose
    have hleave : p.step limit t = p.leave limit frame frames := by
      rw [hstep, close_eq hf hl, leave]
    rw [hleave] at h ⊢
    have hgo : (p.leave limit frame frames).halted = false :=
      (logs_run limit _ closers).running h.halted
    obtain ⟨hrest, hlength⟩ :=
      ih (fun u hu => hclosers u (by simp [hu])) h (ds ++ [.missingClosing frame.opening])
    rw [frames_leave] at hrest hlength
    constructor
    · rw [hf, unwind, endLevel_some (p := p.earlier ds) hp hl, report_earlier hs,
        earlier_leave (Nat.le_refl limit) _ hgo, hrest]
      simp
    · rw [hf, List.length_cons, hlength, List.length_cons]

/-! ## The changed tokens -/

variable {ts : List Token}

/-- With misplaced tokens the parse ends as without them, and reports them alone, at every
    limit that is large enough. -/
theorem exists_ended_misplaced {pre post : List Token} {d : Diagnostic}
    (h : (start.run limit (pre ++ post)).Over) (hpre : ∀ t ∈ pre, t.isFinish = false)
    (hts : Misplaced pre ts d) :
    ∃ bound, ∀ big, limit ≤ big → bound ≤ big →
      ended big (pre ++ ts ++ post) = (start.run limit (pre ++ post)).earlier [d] := by
  rw [run_append] at h ⊢
  have hs : (start.run limit pre).Silent := (extends_run limit _ post).silent h.silent
  have hgo : (start.run limit pre).halted = false := (logs_run limit _ post).running h.halted
  have hreport : (start.run limit pre).report d = (start.run limit pre).earlier [d] := by
    simpa using report_earlier hs [] d
  obtain ⟨bound, hbound⟩ := exists_run_misplaced hts hpre hs
  refine ⟨bound, fun big hle hbig => ?_⟩
  have hrun : start.run big (pre ++ ts ++ post) =
      ((start.run limit pre).run limit post).earlier [d] := by
    rw [run_append, run_append, run_of_le hle hgo, hbound big hbig, hreport,
      earlier_run hle [d] h.halted]
  rw [ended, hrun]
  exact h.unwind_earlier ..

/-- Without the closing brackets at the end the parse ends as with them, and reports the
    brackets that stay open. -/
theorem ended_closers {closers : List Token} (hclosers : ∀ t ∈ closers, t.kind = .closing)
    (h : (start.run limit (ts ++ closers)).Over) :
    ended limit ts = (start.run limit (ts ++ closers)).earlier
        ((Brackets.ofTokens ts).opened.map .missingClosing) ∧
      (Brackets.ofTokens ts).opened.length = closers.length := by
  rw [run_append] at h ⊢
  have hgo : (start.run limit ts).halted = false := (logs_run limit _ closers).running h.halted
  rw [← opening_frames_run hgo, List.map_map, List.length_map]
  simpa [ended, Function.comp_def] using unwind_closers hclosers h []

end Parser

/-- Where only diagnostics were added to a parser that is at its end, they are all there are. -/
theorem parse_eq_of_ended {limit : Nat} {tokens : List Token} {p : Parser} {ds : List Diagnostic}
    (hp : p.Over) (h : Parser.ended limit (Token.upToFinish tokens) = p.earlier ds) :
    parse limit tokens = ⟨p.level.tree, ds⟩ := by
  rw [parse_eq_ended, h, Parser.diagnostics_earlier, hp.silent, List.append_nil, Parser.level_earlier]

/-- Let tokens be parsed without a report. With misplaced tokens among them the parse has
    the same tree and reports these alone, unless the limit is exceeded. Without closing
    brackets at their end it has the same tree and reports the brackets that stay open, as
    many as were closed there, the innermost first. -/
theorem parse_recovers {limit : Nat} {tokens edited : List Token}
    (h : (parse limit tokens).diagnostics = []) :
    (∀ pre post ts d, Token.upToFinish tokens = pre ++ post →
      Token.upToFinish edited = pre ++ ts ++ post → Misplaced pre ts d →
      (∀ e ∈ (parse limit edited).diagnostics, e.kind ≠ .tooDeep) →
      parse limit edited = ⟨(parse limit tokens).tree, [d]⟩) ∧
    ∀ closers, Token.upToFinish tokens = Token.upToFinish edited ++ closers →
      (∀ t ∈ closers, t.kind = .closing) →
      parse limit edited = ⟨(parse limit tokens).tree,
        (Brackets.ofTokens (Token.upToFinish edited)).opened.map .missingClosing⟩ ∧
      (Brackets.ofTokens (Token.upToFinish edited)).opened.length = closers.length := by
  have hover := Parser.over_of_parse h
  have htree : parse limit tokens =
      ⟨(Parser.start.run limit (Token.upToFinish tokens)).level.tree, []⟩ :=
    parse_eq_of_ended hover (by simpa [Parser.ended] using hover.unwind_earlier limit _ [])
  rw [htree]
  constructor
  · intro pre post ts d htokens hedited hts hdeep
    have hpre (t : Token) (ht : t ∈ pre) : t.isFinish = false := by
      have hmem : t ∈ Token.upToFinish tokens := htokens ▸ List.mem_append_left post ht
      exact Token.isFinish_of_mem_upToFinish hmem
    obtain ⟨bound, hbound⟩ := Parser.exists_ended_misplaced (htokens ▸ hover) hpre hts
    -- a limit under which the misplaced tokens are read, and all else as under the given one
    have hended : (Parser.ended limit (Token.upToFinish edited)).halted = false :=
      (Parser.haltsAloud_ended limit _).halted_eq_false (.refl _) hdeep
    have hbig := Parser.ended_of_le (Nat.le_max_left limit bound) hended
    refine parse_eq_of_ended hover ?_
    rw [← hbig, hedited, hbound _ (Nat.le_max_left ..) (Nat.le_max_right ..), htokens]
  · intro closers htokens hclosers
    rw [htokens] at hover ⊢
    obtain ⟨hended, hlength⟩ := Parser.ended_closers hclosers hover
    exact ⟨parse_eq_of_ended hover hended, hlength⟩

/-- The sum of a variable and of one in brackets, with another group right after the first
    variable, and without the closing bracket. -/
theorem parse_recovers_sum :
    let a : Token := ⟨.name, "a", ⟨0, 1⟩⟩
    let plus : Token := ⟨.operator .add, "", ⟨1, 2⟩⟩
    let opening : Token := ⟨.opening, "", ⟨2, 3⟩⟩
    let b : Token := ⟨.name, "b", ⟨3, 4⟩⟩
    let closing : Token := ⟨.closing, "", ⟨4, 5⟩⟩
    let x : Tree := .binary .add (.leaf .name "a") (.leaf .name "b")
    (parse 2 [a, plus, opening, b, closing]).diagnostics = [] ∧
      Misplaced [a] [opening, b, closing] (.atToken .operatorExpected opening) ∧
      (∀ e ∈ (parse 2 [a, opening, b, closing, plus, opening, b, closing]).diagnostics,
        e.kind ≠ .tooDeep) ∧
      parse 2 [a, opening, b, closing, plus, opening, b, closing] =
        ⟨x, [.atToken .operatorExpected opening]⟩ ∧
      parse 2 [a, plus, opening, b] = ⟨x, [.missingClosing opening]⟩ := by
  intro a plus opening b closing x
  have hsilent : (parse 2 [a, plus, opening, b, closing]).diagnostics = [] := by decide
  have hgroup : Misplaced [a] [opening, b, closing] (.atToken .operatorExpected opening) :=
    .operand rfl (.group rfl (.term (.atom (.operand rfl))) rfl)
  have hshallow : ∀ e ∈ (parse 2 [a, opening, b, closing, plus, opening, b, closing]).diagnostics,
      e.kind ≠ .tooDeep := by decide
  have htree : (parse 2 [a, plus, opening, b, closing]).tree = x := by decide
  have hinserted := (parse_recovers hsilent).1 [a] [plus, opening, b, closing] _ _ rfl rfl hgroup
    hshallow
  have hdropped : parse 2 [a, plus, opening, b] =
      ⟨(parse 2 [a, plus, opening, b, closing]).tree, [.missingClosing opening]⟩ :=
    ((parse_recovers hsilent).2 [closing] rfl (by simp [closing])).1
  rw [htree] at hinserted hdropped
  exact ⟨hsilent, hgroup, hshallow, hinserted, hdropped⟩

end Reckoner
