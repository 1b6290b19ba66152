import Reckoner.Proofs.Parser.Accounting
import Reckoner.Proofs.Parser.Holes
import Reckoner.Proofs.Parser.Recognition
import Reckoner.Proofs.Token.Streaming
import Mathlib.Data.List.Induction

/-!
# After the limit was exceeded

A parser that halts stays as it is but for the levels that are still open: they are put into
each other, and what is found wrong with that is said of the brackets around the halt. So the
limit is reported once, and no token after the halt counts.

* `Parser.HaltsOnce`: the limit was reported once if the parser halted, and else not at all;
* `Parser.ended_append_of_halted`: what follows the tokens up to the halt makes no difference;
* `Parser.HaltedWithin`: a parser that has halted inside some brackets. Every operation that
  halts leaves such a parser (`Parser.haltedWithin_step`), and the end of the tokens keeps
  it one (`Parser.HaltedWithin.unwind`);
* `Parser.HaltsAfter`: the tokens that were taken when the limit was exceeded. The brackets
  around the halt are still open then (`Parser.HaltsAfter.exists_haltedWithin`);
* `parse_exceeds_once`: the report, what is reported after it, and the tokens that count.
-/

namespace Reckoner

/-! ## Lists up to the end marker -/

namespace Token

theorem upToFinish_append {ts : List Token} (h : ∀ t ∈ ts, t.isFinish = false)
    (us : List Token) : upToFinish (ts ++ us) = ts ++ upToFinish us :=
  List.takeWhile_append_of_pos fun t ht => by simp [h t ht]

theorem upToFinish_cons_of_isFinish {t : Token} (h : t.isFinish = true) (ts : List Token) :
    upToFinish (t :: ts) = [] :=
  List.takeWhile_cons_of_neg (by simp [h])

end Token

/-! ## Brackets that are open -/

namespace Brackets

theorem opened_step {b : Brackets} {t : Token} :
    (b.step t).opened = t :: b.opened ∨ (b.step t).opened = b.opened ∨
      ∃ opening, b.opened = opening :: (b.step t).opened := by
  unfold step
  split_ifs
  · exact .inl rfl
  · cases hb : b.opened with
    | nil => exact .inr (.inl rfl)
    | cons opening opened => exact .inr (.inr ⟨opening, rfl⟩)
  · exact .inr (.inl rfl)

theorem opened_step_closing {b : Brackets} {t opening : Token} {opened : List Token}
    (h : t.kind = .closing) (hb : b.opened = opening :: opened) : (b.step t).opened = opened := by
  have hopens : ¬ t.kind.opensLevel = true := by simp [h, Token.Kind.opensLevel]
  rw [step, if_neg hopens, if_pos h, hb]

/-- A token that closes nothing leaves all brackets open. -/
theorem opened_subset_step {b : Brackets} {t : Token} (h : t.kind ≠ .closing) :
    b.opened ⊆ (b.step t).opened := by
  unfold step
  split_ifs
  · exact List.subset_cons_self _ _
  · exact List.Subset.refl _

/-- Around an open bracket are the brackets that were open before it. -/
theorem exists_opened {ts : List Token} {inner around : List Token} {t : Token}
    (h : (ofTokens ts).opened = inner ++ t :: around) :
    ∃ pre, pre ++ [t] <+: ts ∧ (ofTokens pre).opened = around := by
  induction ts using List.reverseRecOn generalizing inner with
  | nil => exact absurd h.symm (List.append_ne_nil_of_right_ne_nil _ (List.cons_ne_nil _ _))
  | append_singleton ts u ih =>
    have hearlier (inner' : List Token) (h' : (ofTokens ts).opened = inner' ++ t :: around) :
        ∃ pre, pre ++ [t] <+: ts ++ [u] ∧ (ofTokens pre).opened = around := by
      obtain ⟨pre, hpre, hopened⟩ := ih h'
      exact ⟨pre, hpre.trans (List.prefix_append ts [u]), hopened⟩
    rw [ofTokens_append_singleton] at h
    rcases opened_step (b := ofTokens ts) (t := u) with hopen | hsame | ⟨opening, hclose⟩
    · rw [hopen] at h
      cases inner with
      | nil =>
        obtain ⟨rfl, hopened⟩ := List.cons.inj h
        exact ⟨ts, List.prefix_refl _, hopened⟩
      | cons v inner => exact hearlier inner (List.cons.inj h).2
    · exact hearlier inner (hsame ▸ h)
    · rw [h] at hclose
      exact hearlier (opening :: inner) hclose

end Brackets

namespace Parser

variable {limit last : Nat} {p q : Parser} {t : Token} {x : Sized} {around : List Token}

/-! ## The report is made once -/

/-- The limit was reported once if the parser has halted, and else not at all. -/
def HaltsOnce (p : Parser) : Prop := p.count (· = .tooDeep) = if p.halted then 1 else 0

theorem haltsOnce_start : start.HaltsOnce := rfl

theorem Logs.haltsOnce (h : Logs limit p q) (hp : p.HaltsOnce) : q.HaltsOnce := by
  induction h with
  | same hd hh => rwa [HaltsOnce, count, hd, hh]
  | @report p q d hd _ ih =>
    refine ih ?_
    rw [HaltsOnce, count_report, if_neg (by simpa using hd)]
    exact hp
  | @halt p q t hgo _ ih =>
    refine ih ?_
    have hreport : (p.halt limit t).count (· = .tooDeep) = p.count (· = .tooDeep) + 1 :=
      count_report _ p (.exceeds limit t)
    rw [HaltsOnce, hgo] at hp
    rw [HaltsOnce, hreport, hp]
    rfl

theorem haltsOnce_ended (limit : Nat) (ts : List Token) : (ended limit ts).HaltsOnce :=
  ((logs_run limit start ts).trans (logs_unwind ..)).haltsOnce haltsOnce_start

/-! ## Tokens after the halt -/

theorem step_of_halted (hp : p.halted = true) (limit : Nat) (t : Token) : p.step limit t = p := by
  rw [step, if_pos hp]

theorem run_of_halted (hp : p.halted = true) (limit : Nat) (ts : List Token) :
    p.run limit ts = p := by
  induction ts with
  | nil => rfl
  | cons t ts ih => rw [run_cons, step_of_halted hp, ih]

theorem endLevel_of_halted (hp : p.halted = true) (opening : Option Token) (last : Nat) :
    p.endLevel opening last = p := by
  unfold endLevel
  rw [if_pos hp]

/-- No operation sets a halted parser going again. -/
theorem Logs.halted (h : Logs limit p q) (hp : p.halted = true) : q.halted = true := by
  by_contra hq
  rw [h.running (by simpa using hq)] at hp
  cases hp

/-- A halted parser says nothing of where the tokens end. -/
theorem unwind_of_halted (hp : p.halted = true) (limit last last' : Nat) (frames : List Frame) :
    unwind limit last frames p = unwind limit last' frames p := by
  induction frames generalizing p with
  | nil => rw [unwind, unwind, endLevel_of_halted hp, endLevel_of_halted hp]
  | cons frame frames ih =>
    rw [unwind, unwind, endLevel_of_halted hp, endLevel_of_halted hp]
    exact ih ((logs_leave ..).halted hp)

theorem ended_append_of_halted {ts : List Token} (h : (start.run limit ts).halted = true)
    (us : List Token) : ended limit (ts ++ us) = ended limit ts := by
  rw [ended, run_append, run_of_halted h]
  exact unwind_of_halted h ..

/-! ## Halting inside brackets -/

theorem halted_addStray (p : Parser) (t : Token) (kind : Diagnostic.Kind)
    (defect : Option Tree.Defect) : (p.addStray t kind defect).halted = p.halted := by
  obtain ⟨level, hlevel⟩ := addStray_eq p t kind defect
  rw [hlevel]
  rfl

theorem halted_endLevel (p : Parser) (opening : Option Token) (last : Nat) :
    (p.endLevel opening last).halted = p.halted := by
  unfold endLevel
  split_ifs
  · rfl
  · cases opening <;> dsimp only <;> split_ifs <;> rfl

/-- The parser has halted at a token inside some brackets, and all it has reported since
    then is that one of them is a call of an unknown function or stands where an operator
    is due. -/
structure HaltedWithin (limit : Nat) (t : Token) (around : List Token) (p : Parser) : Prop where
  halted : p.halted = true
  frames : ∀ f ∈ p.frames, f.opening ∈ around
  diagnostics : ∃ before after,
    p.diagnostics.toList = before ++ .exceeds limit t :: after ∧
    ∀ d ∈ after, ∃ o ∈ around,
      d = .atToken .unknownFunction o ∨ d = .atToken .operatorExpected o

theorem haltedWithin_halt (hf : ∀ f ∈ p.frames, f.opening ∈ around) :
    (p.halt limit t).HaltedWithin limit t around :=
  ⟨rfl, hf, p.diagnostics.toList, [], by simp [halt, report], by simp⟩

section Halt

variable (hf : ∀ f ∈ p.frames, f.opening ∈ around) (hp : p.halted = false)

include hf hp

theorem haltedWithin_checkHeight (h : (p.checkHeight limit t).halted = true) :
    (p.checkHeight limit t).HaltedWithin limit t around := by
  unfold checkHeight at h ⊢
  split_ifs at h ⊢
  · exact haltedWithin_halt hf
  · rw [hp] at h
    cases h

theorem haltedWithin_addOperand (h : (p.addOperand limit t x).halted = true) :
    (p.addOperand limit t x).HaltedWithin limit t around := by
  unfold addOperand at h ⊢
  split_ifs at h ⊢
  · exact haltedWithin_checkHeight (by exact hf) (by exact hp) h
  · exact absurd (hp.symm.trans h) Bool.false_ne_true

theorem haltedWithin_addOperator {op : Operator}
    (h : (p.addOperator limit t op).halted = true) :
    (p.addOperator limit t op).HaltedWithin limit t around := by
  unfold addOperator at h ⊢
  split_ifs at h ⊢
  · exact absurd (hp.symm.trans h) Bool.false_ne_true
  · exact haltedWithin_checkHeight (by exact hf) (by exact hp) h

theorem haltedWithin_enter (h : (p.enter limit t).halted = true) :
    (p.enter limit t).HaltedWithin limit t around := by
  unfold enter at h ⊢
  split_ifs at h ⊢
  · exact haltedWithin_halt hf
  · exact absurd (hp.symm.trans h) Bool.false_ne_true

theorem haltedWithin_attach {opening : Token} {inner : Level}
    (h : (p.attach limit opening inner).halted = true) :
    (p.attach limit opening inner).HaltedWithin limit opening around := by
  unfold attach at h ⊢
  cases hk : opening.kind with
  | call f =>
    simp only [hk] at h ⊢
    exact haltedWithin_addOperand hf hp h
  | unknownCall =>
    simp only [hk] at h ⊢
    exact haltedWithin_addOperand (by exact hf) (by exact hp) h
  | finish | literal | name | operator | opening | closing | strayCharacter | strayInNumber
  | strayInName =>
    simp only [hk] at h ⊢
    split_ifs at h ⊢
    · exact absurd (hp.symm.trans h) Bool.false_ne_true
    · exact haltedWithin_addOperand hf hp h

end Halt

/-- A bracket that is too high when it closes is the token at which the parser halts. -/
theorem haltedWithin_leave {frame : Frame} {frames : List Frame} (hp : p.halted = false)
    (h : (p.leave limit frame frames).halted = true) :
    (p.leave limit frame frames).HaltedWithin limit frame.opening (frames.map Frame.opening) :=
  haltedWithin_attach (p := { p with frames := frames, level := frame.outer })
    (fun _ hf => List.mem_map_of_mem hf) hp h

theorem haltedWithin_close (hp : p.halted = false) (h : (p.close limit t).halted = true) :
    ∃ frame frames, p.frames = frame :: frames ∧
      (p.close limit t).HaltedWithin limit frame.opening (frames.map Frame.opening) := by
  unfold close at h ⊢
  cases hf : p.frames with
  | nil =>
    rw [hf] at h
    exact absurd (hp.symm.trans h) Bool.false_ne_true
  | cons frame frames =>
    rw [hf] at h
    refine ⟨frame, frames, rfl, ?_⟩
    dsimp only at h ⊢
    split_ifs at h ⊢
    · exact haltedWithin_leave (by exact hp) h
    · exact haltedWithin_leave hp h

/-- The token at which the parser halts is the one it takes, inside the open brackets, or
    the partner of the one it takes. -/
theorem haltedWithin_step (hp : p.halted = false) (h : (p.step limit t).halted = true) :
    (t.kind ≠ .closing ∧
        (p.step limit t).HaltedWithin limit t (p.frames.map Frame.opening)) ∨
      t.kind = .closing ∧ ∃ frame frames, p.frames = frame :: frames ∧
        (p.step limit t).HaltedWithin limit frame.opening (frames.map Frame.opening) := by
  have hf : ∀ f ∈ p.frames, f.opening ∈ p.frames.map Frame.opening :=
    fun f hf => List.mem_map_of_mem hf
  unfold step at h ⊢
  rw [if_neg (by simp [hp])] at h ⊢
  cases hk : t.kind with
  | literal | name =>
    simp only [hk] at h ⊢
    exact .inl ⟨by simp, haltedWithin_addOperand hf hp h⟩
  | operator op =>
    simp only [hk] at h ⊢
    exact .inl ⟨by simp, haltedWithin_addOperator hf hp h⟩
  | call | unknownCall | opening =>
    simp only [hk] at h ⊢
    exact .inl ⟨by simp, haltedWithin_enter hf hp h⟩
  | closing =>
    simp only [hk] at h ⊢
    exact .inr ⟨trivial, haltedWithin_close hp h⟩
  | strayCharacter | strayInNumber | strayInName =>
    simp only [hk, halted_addStray, hp, Bool.false_eq_true] at h
  | finish =>
    simp only [hk] at h
    exact absurd (hp.symm.trans h) Bool.false_ne_true

/-! ## The end after the halt -/

namespace HaltedWithin

theorem report {o : Token} {d : Diagnostic} (h : p.HaltedWithin limit t around) (ho : o ∈ around)
    (hd : d = .atToken .unknownFunction o ∨ d = .atToken .operatorExpected o) :
    (p.report d).HaltedWithin limit t around := by
  obtain ⟨before, after, hsplit, hafter⟩ := h.diagnostics
  refine ⟨h.halted, h.frames, before, after ++ [d], by simp [Parser.report, hsplit], ?_⟩
  intro e he
  rcases List.mem_append.mp he with he | he
  · exact hafter e he
  · obtain rfl := List.mem_singleton.mp he
    exact ⟨o, ho, hd⟩

theorem addOperand {o : Token} (h : p.HaltedWithin limit t around) (ho : o ∈ around) :
    (p.addOperand limit o x).HaltedWithin limit t around := by
  unfold Parser.addOperand checkHeight
  split_ifs with hl hc
  · simp [h.halted] at hc
  · exact ⟨h.halted, h.frames, h.diagnostics⟩
  · exact h.report ho (.inr rfl)

theorem attach {o : Token} {inner : Level} (h : p.HaltedWithin limit t around) (ho : o ∈ around) :
    (p.attach limit o inner).HaltedWithin limit t around := by
  unfold Parser.attach
  split
  · exact h.addOperand ho
  · exact (h.report ho (.inl rfl)).addOperand ho
  · split_ifs
    · exact h
    · exact h.addOperand ho

theorem leave {frame : Frame} {frames : List Frame} (h : p.HaltedWithin limit t around)
    (hf : p.frames = frame :: frames) :
    (p.leave limit frame frames).HaltedWithin limit t around := by
  have houter : ∀ f ∈ frames, f.opening ∈ around := fun f hmem => h.frames f (by simp [hf, hmem])
  have hopening : frame.opening ∈ around := h.frames frame (by simp [hf])
  exact attach (p := { p with frames := frames, level := frame.outer })
    ⟨h.halted, houter, h.diagnostics⟩ hopening

theorem unwind {frames : List Frame} (h : p.HaltedWithin limit t around) (hf : p.frames = frames) :
    (unwind limit last frames p).HaltedWithin limit t around := by
  induction frames generalizing p with
  | nil => rwa [Parser.unwind, endLevel_of_halted h.halted]
  | cons frame frames ih =>
    rw [Parser.unwind, endLevel_of_halted h.halted]
    exact ih (h.leave hf) (frames_leave ..)

end HaltedWithin

/-- If the parser halts while the open levels are ended, then at one of their brackets. -/
theorem exists_haltedWithin_unwind {frames : List Frame} (hp : p.halted = false)
    (hf : p.frames = frames) (h : (unwind limit last frames p).halted = true) :
    ∃ inner frame outer, frames = inner ++ frame :: outer ∧
      (unwind limit last frames p).HaltedWithin limit frame.opening
        (outer.map Frame.opening) := by
  induction frames generalizing p with
  | nil =>
    rw [unwind, halted_endLevel, hp] at h
    cases h
  | cons frame frames ih =>
    have hend : (p.endLevel (some frame.opening) last).halted = false := by
      rw [halted_endLevel, hp]
    rw [unwind] at h ⊢
    cases hleave : ((p.endLevel (some frame.opening) last).leave limit frame frames).halted with
    | true =>
      exact ⟨[], frame, frames, rfl, (haltedWithin_leave hend hleave).unwind (frames_leave ..)⟩
    | false =>
      obtain ⟨inner, f, outer, hsplit, hwithin⟩ := ih hleave (frames_leave ..) h
      exact ⟨frame :: inner, f, outer, by rw [hsplit, List.cons_append], hwithin⟩

/-! ## Where the parser halts -/

/-- A parser that halts with a token does so at this one or at its partner. The brackets around
    that are still open. -/
theorem exists_haltedWithin_step {ts : List Token} (hgo : (start.run limit ts).halted = false)
    (h : ((start.run limit ts).step limit t).halted = true) :
    ∃ before u, before ++ [u] <+: ts ++ [t] ∧
      (Brackets.ofTokens before).opened ⊆ (Brackets.ofTokens (ts ++ [t])).opened ∧
      ((start.run limit ts).step limit t).HaltedWithin limit u
        (Brackets.ofTokens before).opened := by
  have hopened := opening_frames_run hgo
  rw [Brackets.ofTokens_append_singleton]
  rcases haltedWithin_step hgo h with ⟨hk, hwithin⟩ | ⟨hk, frame, frames, hf, hwithin⟩
  · rw [hopened] at hwithin
    exact ⟨ts, t, List.prefix_refl _, Brackets.opened_subset_step hk, hwithin⟩
  · rw [hf, List.map_cons] at hopened
    have hinnermost : (Brackets.ofTokens ts).opened =
        [] ++ frame.opening :: frames.map Frame.opening := hopened.symm
    obtain ⟨before, hbefore, haround⟩ := Brackets.exists_opened hinnermost
    rw [← haround] at hopened hwithin
    refine ⟨before, frame.opening, hbefore.trans (List.prefix_append _ _), ?_, hwithin⟩
    rw [Brackets.opened_step_closing hk hopened.symm]
    exact List.Subset.refl _

/-- A parser that halts at the end of the tokens does so at a bracket that is still open. -/
theorem exists_haltedWithin_ended {ts : List Token} (hgo : (start.run limit ts).halted = false)
    (h : (ended limit ts).halted = true) :
    ∃ before u, before ++ [u] <+: ts ∧
      (Brackets.ofTokens before).opened ⊆ (Brackets.ofTokens ts).opened ∧
      (ended limit ts).HaltedWithin limit u (Brackets.ofTokens before).opened := by
  have hopened := opening_frames_run hgo
  obtain ⟨inner, frame, outer, hf, hwithin⟩ := exists_haltedWithin_unwind hgo rfl h
  rw [hf, List.map_append, List.map_cons] at hopened
  obtain ⟨before, hbefore, haround⟩ := Brackets.exists_opened hopened.symm
  rw [← haround] at hopened hwithin
  refine ⟨before, frame.opening, hbefore, ?_, hwithin⟩
  rw [← hopened]
  exact fun o ho => List.mem_append_right _ (List.mem_cons_of_mem _ ho)

/-! ## The tokens taken -/

/-- The tokens that were taken when the limit was exceeded: those up to the first one after
    which the parser has halted, or all of them and the marker of the end if it halts
    while the open levels are ended. -/
inductive HaltsAfter (limit : Nat) (ts : List Token) : List Token → Prop
  | token {pre post : List Token} {t : Token} : ts = pre ++ t :: post →
      (start.run limit pre).halted = false → (start.run limit (pre ++ [t])).halted = true →
      HaltsAfter limit ts (pre ++ [t])
  | finish {e : Token} : (start.run limit ts).halted = false → (ended limit ts).halted = true →
      e.isFinish = true → HaltsAfter limit ts (ts ++ [e])

/-- A parser that halts among tokens does so after a first one of them. -/
theorem exists_halting_token {ts : List Token} (h : (start.run limit ts).halted = true) :
    ∃ pre t post, ts = pre ++ t :: post ∧ (start.run limit pre).halted = false ∧
      (start.run limit (pre ++ [t])).halted = true := by
  induction ts using List.reverseRecOn with
  | nil => cases h
  | append_singleton ts t ih =>
    cases hts : (start.run limit ts).halted with
    | false => exact ⟨ts, t, [], rfl, hts, h⟩
    | true =>
      obtain ⟨pre, u, post, hsplit, hgo, hhalt⟩ := ih hts
      exact ⟨pre, u, post ++ [t], by simp [hsplit], hgo, hhalt⟩

theorem exists_haltsAfter {ts : List Token} (h : (ended limit ts).halted = true) {e : Token}
    (he : e.isFinish = true) : ∃ consumed, HaltsAfter limit ts consumed ∧
      consumed <+: ts ++ [e] := by
  cases hrun : (start.run limit ts).halted with
  | false => exact ⟨ts ++ [e], .finish hrun h he, List.prefix_refl _⟩
  | true =>
    obtain ⟨pre, t, post, hsplit, hgo, hhalt⟩ := exists_halting_token hrun
    exact ⟨pre ++ [t], .token hsplit hgo hhalt, post ++ [e], by simp [hsplit]⟩

/-- The brackets around the token at which the parser halts were open before it, and still are
    after the tokens taken. -/
theorem HaltsAfter.exists_haltedWithin {ts consumed : List Token}
    (h : HaltsAfter limit ts consumed) :
    ∃ before t, before ++ [t] <+: ts ∧ before ++ [t] <+: consumed ∧
      (Brackets.ofTokens before).opened ⊆ (Brackets.ofTokens consumed).opened ∧
      (ended limit ts).HaltedWithin limit t (Brackets.ofTokens before).opened := by
  cases h with
  | @token pre post t hsplit hgo hhalt =>
    have htaken : pre ++ [t] <+: ts := ⟨post, by simp [hsplit]⟩
    have hended : ended limit ts = ended limit (pre ++ [t]) := by
      rw [hsplit, ← ended_append_of_halted hhalt post, List.append_assoc, List.singleton_append]
    have hrun : start.run limit (pre ++ [t]) = (start.run limit pre).step limit t := by
      rw [run_append, run_cons, run_nil]
    rw [hrun] at hhalt
    obtain ⟨before, u, hbefore, hopened, hwithin⟩ := exists_haltedWithin_step hgo hhalt
    rw [hended, ended, hrun]
    exact ⟨before, u, hbefore.trans htaken, hbefore, hopened, hwithin.unwind rfl⟩
  | @finish e hgo hhalt he =>
    obtain ⟨before, u, hbefore, hopened, hwithin⟩ := exists_haltedWithin_ended hgo hhalt
    have hk : e.kind ≠ .closing := by
      rintro hk
      simp [Token.isFinish, hk] at he
    refine ⟨before, u, hbefore, hbefore.trans (List.prefix_append _ _), ?_, hwithin⟩
    rw [Brackets.ofTokens_append_singleton]
    exact List.Subset.trans hopened (Brackets.opened_subset_step hk)

/-- What follows the tokens taken makes no difference. -/
theorem HaltsAfter.parse_append {ts consumed : List Token} (h : HaltsAfter limit ts consumed)
    (hts : ∀ t ∈ ts, t.isFinish = false) (rest : List Token) :
    parse limit (consumed ++ rest) = parse limit ts := by
  have hall := Token.upToFinish_eq hts
  cases h with
  | @token pre post t hsplit hgo hhalt =>
    have htaken : ts = pre ++ [t] ++ post := by simp [hsplit]
    have hconsumed : ∀ u ∈ pre ++ [t], u.isFinish = false := fun u hu =>
      hts u (htaken ▸ List.mem_append_left post hu)
    rw [parse_eq_ended, parse_eq_ended, hall, Token.upToFinish_append hconsumed,
      ended_append_of_halted hhalt, htaken, ended_append_of_halted hhalt]
  | @finish e hgo hhalt he =>
    rw [parse_eq_ended, parse_eq_ended, hall, List.append_assoc, Token.upToFinish_append hts,
      List.singleton_append, Token.upToFinish_cons_of_isFinish he, List.append_nil]

end Parser

/-- The limit is reported at most once. If it is reported, then nothing that follows the
    tokens taken until then makes a difference; these are tokens of the list, or all of them
    and the marker of its end. After the report at a token there are only reports of calls of
    unknown functions and of operators that are due, at brackets that were open before that
    token and still are. -/
theorem parse_exceeds_once (limit : Nat) (tokens : List Token) :
    Diagnostic.count (· = .tooDeep) (parse limit tokens).diagnostics ≤ 1 ∧
    ∀ d ∈ (parse limit tokens).diagnostics, d.kind = .tooDeep → ∀ e : Token, e.isFinish = true →
      ∃ consumed,
        Parser.HaltsAfter limit (Token.upToFinish tokens) consumed ∧
        consumed <+: Token.upToFinish tokens ++ [e] ∧
        (∀ rest, parse limit (consumed ++ rest) = parse limit tokens) ∧
        ∃ pre t before after,
          pre ++ [t] <+: Token.upToFinish tokens ∧ pre ++ [t] <+: consumed ∧
          (parse limit tokens).diagnostics = before ++ .exceeds limit t :: after ∧
          ∀ later ∈ after, ∃ o ∈ (Brackets.ofTokens pre).opened,
            o ∈ (Brackets.ofTokens consumed).opened ∧
            (later = .atToken .unknownFunction o ∨ later = .atToken .operatorExpected o) := by
  set ts := Token.upToFinish tokens with hts
  have hfinish : ∀ t ∈ ts, t.isFinish = false := fun t ht => Token.isFinish_of_mem_upToFinish ht
  have hparse : parse limit tokens = parse limit ts := by
    rw [parse_eq_ended, parse_eq_ended, Token.upToFinish_eq hfinish]
  have honce : Diagnostic.count (· = .tooDeep) (parse limit tokens).diagnostics =
      if (Parser.ended limit ts).halted then 1 else 0 := Parser.haltsOnce_ended limit ts
  refine ⟨by rw [honce]; split_ifs <;> omega, fun d hd hdeep e he => ?_⟩
  have hhalted : (Parser.ended limit ts).halted = true := by
    by_contra hgo
    rw [if_neg hgo, Diagnostic.count, List.countP_eq_zero] at honce
    exact honce d hd (by simpa using hdeep)
  obtain ⟨consumed, htaken, hconsumed⟩ := Parser.exists_haltsAfter hhalted he
  obtain ⟨pre, t, hpre, hpre', hsub, hwithin⟩ := htaken.exists_haltedWithin
  obtain ⟨before, after, hsplit, hafter⟩ := hwithin.diagnostics
  refine ⟨consumed, htaken, hconsumed, fun rest => ?_, pre, t, before, after, hpre, hpre', hsplit,
    fun later hlater => ?_⟩
  · rw [hparse]
    exact htaken.parse_append hfinish rest
  · obtain ⟨o, ho, hreport⟩ := hafter later hlater
    exact ⟨o, ho, hsub ho, hreport⟩

/-- Three brackets, the outermost one of them an unknown call after an operand, and the
    second one after an operand as well. The limit of two is reported at the third one, and
    the stray character after it is not seen. -/
theorem parse_exceeds_once_nested :
    let call : Token := ⟨.unknownCall, "f(", ⟨1, 3⟩⟩
    let second : Token := ⟨.opening, "", ⟨4, 5⟩⟩
    let third : Token := ⟨.opening, "", ⟨6, 7⟩⟩
    let taken : List Token := [⟨.name, "a", ⟨0, 1⟩⟩, call, ⟨.name, "b", ⟨3, 4⟩⟩, second,
      ⟨.name, "c", ⟨5, 6⟩⟩, third]
    let stray : Token := ⟨.strayCharacter, "$", ⟨7, 8⟩⟩
    let marker : Token := ⟨.finish, "", ⟨8, 8⟩⟩
    (parse 2 (taken ++ [stray])).diagnostics =
        [.exceeds 2 third, .atToken .operatorExpected second, .atToken .unknownFunction call,
          .atToken .operatorExpected call] ∧
      marker.isFinish = true ∧
      ∃ consumed, Parser.HaltsAfter 2 (taken ++ [stray]) consumed ∧
        consumed <+: taken ++ [stray] ++ [marker] ∧
        ∀ rest, parse 2 (consumed ++ rest) = parse 2 (taken ++ [stray]) := by
  intro call second third taken stray marker
  have hdiagnostics : (parse 2 (taken ++ [stray])).diagnostics =
      [.exceeds 2 third, .atToken .operatorExpected second, .atToken .unknownFunction call,
        .atToken .operatorExpected call] := by decide
  have hdeep : .exceeds 2 third ∈ (parse 2 (taken ++ [stray])).diagnostics := by
    rw [hdiagnostics]
    exact List.mem_cons_self
  obtain ⟨consumed, htaken, hconsumed, hrest, -⟩ :=
    (parse_exceeds_once 2 (taken ++ [stray])).2 _ hdeep rfl marker rfl
  exact ⟨hdiagnostics, rfl, consumed, htaken, hconsumed, hrest⟩

/-- A call that is not closed, and too high with its argument. The limit is exceeded when the
    missing bracket was reported, so another bracket after the tokens makes a difference,
    whichever of the tokens come before. -/
theorem exceeds_at_end_of_tokens :
    let tokens : List Token := [⟨.call .sin, "sin(", ⟨0, 4⟩⟩, ⟨.literal .integer, "1", ⟨4, 5⟩⟩]
    (∃ d ∈ (parse 1 tokens).diagnostics, d.kind = .tooDeep) ∧
      ¬ ∃ pre, pre <+: tokens ∧ ∀ rest, parse 1 (pre ++ rest) = parse 1 tokens := by
  intro tokens
  refine ⟨by decide, ?_⟩
  rintro ⟨pre, ⟨post, hsplit⟩, hrest⟩
  have hclosed := hrest (post ++ [⟨.closing, "", ⟨5, 6⟩⟩])
  rw [← List.append_assoc, hsplit] at hclosed
  exact absurd hclosed (by decide)

end Reckoner
