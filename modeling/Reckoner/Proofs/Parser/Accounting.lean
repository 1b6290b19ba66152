import Reckoner.Proofs.Parser.Halting
import Reckoner.Proofs.Session
import Mathlib.Data.List.Induction

/-!
# Diagnostics account for tokens

Whatever the levels make of their contents, the parser opens and closes them as ordinary
matching of brackets does. So its diagnostics tell which brackets have no partner, which
calls are unknown and which characters are stray, as long as the limit is not exceeded.

* `Brackets`: the brackets of a token list that have no partner;
* `Outline`: what brackets and strays alone determine of a parse. Every step of the parser
  is a step of its outline (`Parser.outline_step`), and so is its end
  (`Parser.notices_ended`);
* `Outline.Accounts`: what an outline says of the tokens it was made of;
* `diagnostics_account`: both together, and that an expression with such a token or bracket
  has no value.
-/

namespace Reckoner

/-! ## Matching brackets -/

/-- The brackets without a partner in a token list. -/
structure Brackets where
  /-- the opening ones, the innermost first -/
  opened : List Token
  /-- the closing ones, in order -/
  stray : List Token
deriving DecidableEq, Repr

namespace Brackets

/-- A closing bracket is the partner of the innermost opening one that has none. Calls open
    a bracket. -/
def step (b : Brackets) (t : Token) : Brackets :=
  if t.kind.opensLevel then { b with opened := t :: b.opened }
  else if t.kind = .closing then
    match b.opened with
    | [] => { b with stray := b.stray ++ [t] }
    | _ :: opened => { b with opened := opened }
  else b

/-- The brackets of a token list. -/
def ofTokens (ts : List Token) : Brackets := ts.foldl step ⟨[], []⟩

theorem ofTokens_append_singleton (ts : List Token) (t : Token) :
    ofTokens (ts ++ [t]) = (ofTokens ts).step t := by
  simp [ofTokens]

end Brackets

/-! ## Notices -/

/-- The causes that lie in one token alone, or in a bracket without a partner. -/
def Diagnostic.Kind.isNotice : Diagnostic.Kind → Bool
  | unknownFunction | strayClosing | unclosed | strayCharacter | strayInNumber | strayInName =>
    true
  | operandExpected | operatorExpected | tooDeep => false

/-- The causes that are stray characters. -/
def Diagnostic.Kind.isStray : Diagnostic.Kind → Bool
  | strayCharacter | strayInNumber | strayInName => true
  | _ => false

/-- The places where a cause was reported, in order. -/
def Diagnostic.spans (kind : Diagnostic.Kind) (ds : List Diagnostic) : List Span :=
  (ds.filter (·.kind = kind)).map Diagnostic.span

/-- A cause with its place. -/
structure Notice where
  kind : Diagnostic.Kind
  span : Span
deriving DecidableEq, Repr

namespace Notice

/-- The notices among diagnostics. -/
def ofDiagnostics (ds : List Diagnostic) : List Notice :=
  (ds.filter (·.kind.isNotice)).map fun d => ⟨d.kind, d.span⟩

/-- The stray characters among diagnostics. -/
def strays (ds : List Diagnostic) : List Notice :=
  (ds.filter (·.kind.isStray)).map fun d => ⟨d.kind, d.span⟩

/-- The places of a cause. -/
def spans (kind : Diagnostic.Kind) (ns : List Notice) : List Span :=
  (ns.filter (·.kind = kind)).map Notice.span

/-- The notice of a token that is stray. -/
def ofStray? (t : Token) : Option Notice :=
  (Diagnostic.Kind.ofStray? t.kind).map (⟨·, t.span⟩)

/-- The notice that a closed call gives, if it is unknown. -/
def ofCall (t : Token) : List Notice :=
  if t.kind = .unknownCall then [⟨.unknownFunction, t.span⟩] else []

theorem spans_ofDiagnostics {kind : Diagnostic.Kind} (hk : kind.isNotice = true)
    (ds : List Diagnostic) : spans kind (ofDiagnostics ds) = Diagnostic.spans kind ds := by
  have hkind (d : Diagnostic) : (decide (d.kind = kind) && d.kind.isNotice) =
      decide (d.kind = kind) := by
    by_cases h : d.kind = kind <;> simp [h, hk]
  simp [spans, ofDiagnostics, Diagnostic.spans, List.filter_map, Function.comp_def, hkind]

theorem filter_ofDiagnostics (ds : List Diagnostic) :
    (ofDiagnostics ds).filter (·.kind.isStray) = strays ds := by
  have hkind (d : Diagnostic) : (d.kind.isStray && d.kind.isNotice) = d.kind.isStray := by
    cases d.kind <;> rfl
  simp [ofDiagnostics, strays, List.filter_map, Function.comp_def, hkind]

@[simp] theorem spans_nil (kind : Diagnostic.Kind) : spans kind [] = [] := rfl

@[simp] theorem spans_cons (kind : Diagnostic.Kind) (n : Notice) (ns : List Notice) :
    spans kind (n :: ns) = if n.kind = kind then n.span :: spans kind ns else spans kind ns := by
  simp only [spans, List.filter_cons, decide_eq_true_eq]
  split_ifs <;> rfl

@[simp] theorem spans_append (kind : Diagnostic.Kind) (ns ms : List Notice) :
    spans kind (ns ++ ms) = spans kind ns ++ spans kind ms := by
  simp [spans]

end Notice

/-- What brackets and strays alone determine of a parse. -/
structure Outline where
  /-- the brackets that are open, the innermost first -/
  opened : List Token
  notices : List Notice
deriving DecidableEq, Repr

namespace Outline

/-- Nothing was read. -/
def start : Outline := ⟨[], []⟩

/-- Takes one token. A call is known to be unknown when it is closed. -/
def step (o : Outline) (t : Token) : Outline :=
  if t.kind.opensLevel then { o with opened := t :: o.opened }
  else if t.kind = .closing then
    match o.opened with
    | [] => { o with notices := o.notices ++ [⟨.strayClosing, t.span⟩] }
    | opening :: opened => ⟨opened, o.notices ++ Notice.ofCall opening⟩
  else { o with notices := o.notices ++ (Notice.ofStray? t).toList }

/-- The outline of a token list. -/
def ofTokens (ts : List Token) : Outline := ts.foldl step start

theorem ofTokens_append_singleton (ts : List Token) (t : Token) :
    ofTokens (ts ++ [t]) = (ofTokens ts).step t := by
  simp [ofTokens]

/-- The notices of open brackets at the end of the tokens. -/
def unclosed (opened : List Token) : List Notice :=
  opened.flatMap fun t => ⟨.unclosed, t.span⟩ :: Notice.ofCall t

theorem unclosed_cons (t : Token) (opened : List Token) :
    unclosed (t :: opened) = ⟨.unclosed, t.span⟩ :: (Notice.ofCall t ++ unclosed opened) := rfl

end Outline

/-! ## The outline of a parse -/

namespace Parser

variable {limit : Nat} {p : Parser} {t : Token} {d : Diagnostic}

/-- The notices so far. -/
def notices (p : Parser) : List Notice := Notice.ofDiagnostics p.diagnostics.toList

/-- The open brackets and the notices. -/
def outline (p : Parser) : Outline := ⟨p.frames.map Frame.opening, p.notices⟩

theorem notices_report (hd : d.kind.isNotice = true) :
    (p.report d).notices = p.notices ++ [⟨d.kind, d.span⟩] := by
  simp [notices, report, Notice.ofDiagnostics, hd]

theorem notices_report_of_not (hd : d.kind.isNotice = false) :
    (p.report d).notices = p.notices := by
  simp [notices, report, Notice.ofDiagnostics, hd]

theorem notices_checkHeight (limit : Nat) (p : Parser) (t : Token) :
    (p.checkHeight limit t).notices = p.notices := by
  unfold checkHeight
  split_ifs
  · exact notices_report_of_not rfl
  · rfl

theorem notices_addOperand (limit : Nat) (p : Parser) (t : Token) (x : Sized) :
    (p.addOperand limit t x).notices = p.notices := by
  unfold addOperand
  split_ifs
  · exact notices_checkHeight limit { p with level := p.level.addOperand x } t
  · exact notices_report_of_not rfl

theorem notices_addOperator (limit : Nat) (p : Parser) (t : Token) (op : Operator) :
    (p.addOperator limit t op).notices = p.notices := by
  unfold addOperator
  split_ifs
  · exact notices_report_of_not rfl
  · exact notices_checkHeight limit { p with level := p.level.addOperator op } t

theorem notices_addStray {kind : Diagnostic.Kind} (hk : kind.isNotice = true) (p : Parser)
    (t : Token) (defect : Option Tree.Defect) :
    (p.addStray t kind defect).notices = p.notices ++ [⟨kind, t.span⟩] := by
  obtain ⟨l, hl⟩ := addStray_eq p t kind defect
  rw [hl]
  exact notices_report (d := .atToken kind t) hk

theorem notices_attach (limit : Nat) (p : Parser) (opening : Token) (inner : Level) :
    (p.attach limit opening inner).notices = p.notices ++ Notice.ofCall opening := by
  unfold attach Notice.ofCall
  split
  · rename_i f hf
    rw [notices_addOperand, if_neg (by simp [hf]), List.append_nil]
  · rename_i hunknown
    rw [notices_addOperand, notices_report rfl, if_pos hunknown]
    rfl
  · rename_i hunknown
    rw [if_neg hunknown, List.append_nil]
    split_ifs
    · rfl
    · exact notices_addOperand ..

theorem notices_leave (limit : Nat) (p : Parser) (frame : Frame) (frames : List Frame) :
    (p.leave limit frame frames).notices = p.notices ++ Notice.ofCall frame.opening :=
  notices_attach limit { p with frames := frames, level := frame.outer } _ _

/-- A bracket that closes is the partner of the innermost one that is open. -/
theorem outline_close (ht : t.kind = .closing) : (p.close limit t).outline = p.outline.step t := by
  have hopens : ¬ t.kind.opensLevel = true := by simp [ht, Token.Kind.opensLevel]
  unfold close outline Outline.step
  rw [if_neg hopens, if_pos ht]
  cases hf : p.frames with
  | nil =>
    dsimp only [List.map_nil]
    rw [notices_report rfl, frames_report, hf]
    rfl
  | cons frame frames =>
    dsimp only [List.map_cons]
    rw [notices_leave, frames_leave]
    split_ifs
    · rw [notices_report_of_not rfl]
      rfl
    · rfl

theorem outline_enter (ht : t.kind.opensLevel = true) (h : (p.enter limit t).halted = false) :
    (p.enter limit t).outline = p.outline.step t := by
  unfold enter at h ⊢
  rw [Outline.step, if_pos ht]
  split_ifs at h ⊢
  · simp [halt] at h
  · rfl

/-- No other token opens or closes a bracket, and it gives notice of itself if it is stray. -/
theorem outline_eq {q : Parser} (hopens : t.kind.opensLevel = false) (hcloses : t.kind ≠ .closing)
    (hf : q.frames = p.frames) (hn : q.notices = p.notices ++ (Notice.ofStray? t).toList) :
    q.outline = p.outline.step t := by
  rw [Outline.step, if_neg (by simp [hopens]), if_neg hcloses, outline, outline, hf, hn]

theorem outline_step (h : (p.step limit t).halted = false) :
    (p.step limit t).outline = p.outline.step t := by
  have hplain (hk : Diagnostic.Kind.ofStray? t.kind = none) {q : Parser}
      (hn : q.notices = p.notices) : q.notices = p.notices ++ (Notice.ofStray? t).toList := by
    simp [hn, Notice.ofStray?, hk]
  have hstray {kind : Diagnostic.Kind} (hk : Diagnostic.Kind.ofStray? t.kind = some kind)
      (hkind : kind.isNotice = true) (defect : Option Tree.Defect) :
      (p.addStray t kind defect).notices = p.notices ++ (Notice.ofStray? t).toList := by
    simp [notices_addStray hkind, Notice.ofStray?, hk]
  unfold step at h ⊢
  split_ifs at h ⊢ with hp
  · exact absurd h (by simp [hp])
  · cases hk : t.kind with
    | literal format =>
      exact outline_eq (by rw [hk]; rfl) (by simp [hk]) (frames_addOperand ..)
        (hplain (by rw [hk]; rfl) (notices_addOperand ..))
    | name =>
      exact outline_eq (by rw [hk]; rfl) (by simp [hk]) (frames_addOperand ..)
        (hplain (by rw [hk]; rfl) (notices_addOperand ..))
    | operator op =>
      exact outline_eq (by rw [hk]; rfl) (by simp [hk]) (frames_addOperator ..)
        (hplain (by rw [hk]; rfl) (notices_addOperator ..))
    | opening | call f | unknownCall =>
      rw [hk] at h
      exact outline_enter (by rw [hk]; rfl) h
    | closing => exact outline_close hk
    | strayCharacter | strayInNumber | strayInName =>
      exact outline_eq (by rw [hk]; rfl) (by simp [hk]) (frames_addStray ..)
        (hstray (by rw [hk]; rfl) rfl _)
    | finish =>
      exact outline_eq (by rw [hk]; rfl) (by simp [hk]) rfl (hplain (by rw [hk]; rfl) rfl)

theorem outline_run {ts : List Token} (h : (start.run limit ts).halted = false) :
    (start.run limit ts).outline = .ofTokens ts := by
  induction ts using List.reverseRecOn with
  | nil => rfl
  | append_singleton ts t ih =>
    rw [run_append, run_cons, run_nil] at h ⊢
    rw [outline_step h, ih (halted_of_step h), Outline.ofTokens_append_singleton]

theorem notices_endLevel (hp : p.halted = false) (opening : Option Token) (last : Nat) :
    (p.endLevel opening last).notices =
      p.notices ++ (opening.map fun t => ⟨.unclosed, t.span⟩).toList := by
  have hdue (p : Parser) : (p.report (.unexpectedEnd (.emptyAt last))).notices = p.notices :=
    notices_report_of_not rfl
  unfold endLevel
  rw [if_neg (by simp [hp])]
  cases opening with
  | none =>
    dsimp only
    split_ifs
    · rw [hdue]
      simp
    · simp
  | some t =>
    dsimp only
    split_ifs
    · rw [hdue, notices_report rfl]
      rfl
    · rw [notices_report rfl]
      rfl

/-- Where the tokens end without a halt, every open bracket gives notice of itself. -/
theorem notices_unwind {last : Nat} {frames : List Frame} (hp : p.HaltsAloud)
    (h : ∀ d ∈ (unwind limit last frames p).diagnostics.toList, d.kind ≠ .tooDeep) :
    (unwind limit last frames p).notices =
      p.notices ++ Outline.unclosed (frames.map Frame.opening) := by
  have hrunning := hp.halted_eq_false (extends_unwind limit last frames p) h
  induction frames generalizing p with
  | nil => simp [unwind, notices_endLevel hrunning, Outline.unclosed]
  | cons frame frames ih =>
    have hleft : ((p.endLevel (some frame.opening) last).leave limit frame frames).HaltsAloud :=
      ((logs_endLevel ..).trans (logs_leave ..)).haltsAloud hp
    rw [unwind] at h ⊢
    rw [ih hleft h (hleft.halted_eq_false (extends_unwind ..) h), notices_leave,
      notices_endLevel hrunning]
    simp [Outline.unclosed]

/-- The notices of a parse that never halted. -/
theorem notices_ended {ts : List Token}
    (h : ∀ d ∈ (ended limit ts).diagnostics.toList, d.kind ≠ .tooDeep) :
    (ended limit ts).notices =
      (Outline.ofTokens ts).notices ++ Outline.unclosed (Outline.ofTokens ts).opened := by
  have hrun := haltsAloud_run limit ts
  rw [ended, notices_unwind hrun h, ← outline_run (hrun.halted_eq_false (extends_unwind ..) h)]
  rfl

end Parser

/-! ## What an outline says of its tokens -/

namespace Notice

/-- The places of the unknown calls. -/
def unknownSpans (ts : List Token) : List Span := (ts.filter (·.kind = .unknownCall)).map Token.span

theorem spans_ofCall (t : Token) : spans .unknownFunction (ofCall t) = unknownSpans [t] := by
  unfold ofCall
  split_ifs with h <;> simp [spans, unknownSpans, h]

theorem spans_ofCall_of_ne {kind : Diagnostic.Kind} (hk : kind ≠ .unknownFunction) (t : Token) :
    spans kind (ofCall t) = [] := by
  unfold ofCall
  split_ifs
  · simp [spans, hk.symm]
  · rfl

theorem unknownSpans_append (ts us : List Token) :
    unknownSpans (ts ++ us) = unknownSpans ts ++ unknownSpans us := by
  simp [unknownSpans]

theorem isStray_of_mem_ofStray? {t : Token} {n : Notice} (h : n ∈ ofStray? t) :
    n.kind.isStray = true := by
  unfold ofStray? at h
  cases hk : t.kind <;> simp_all [Diagnostic.Kind.ofStray?] <;> subst h <;> rfl

theorem spans_ofStray? {kind : Diagnostic.Kind} (hk : kind.isStray = false) (t : Token) :
    spans kind (ofStray? t).toList = [] := by
  cases h : ofStray? t with
  | none => rfl
  | some n =>
    have hn := isStray_of_mem_ofStray? h
    have : n.kind ≠ kind := by rintro rfl; simp [hk] at hn
    simp [spans, this]

theorem filter_ofCall (t : Token) : (ofCall t).filter (·.kind.isStray) = [] := by
  unfold ofCall
  split_ifs <;> rfl

theorem filter_ofStray? (t : Token) :
    (ofStray? t).toList.filter (·.kind.isStray) = (ofStray? t).toList := by
  rw [List.filter_eq_self]
  exact fun n hn => isStray_of_mem_ofStray? (Option.mem_toList.mp hn)

theorem ofStray?_of_opensLevel {t : Token} (h : t.kind.opensLevel = true) : ofStray? t = none := by
  unfold ofStray?
  cases hk : t.kind <;> simp_all [Token.Kind.opensLevel, Diagnostic.Kind.ofStray?]

end Notice

namespace Outline

open Notice

variable {o : Outline} {ts : List Token} {t : Token}

/-- An outline of tokens has their open brackets, and notices of their other brackets
    without a partner, of their closed unknown calls and of their strays. -/
structure Accounts (ts : List Token) (o : Outline) : Prop where
  opened : o.opened = (Brackets.ofTokens ts).opened
  strayClosing : spans .strayClosing o.notices = (Brackets.ofTokens ts).stray.map Token.span
  unclosed : spans .unclosed o.notices = []
  unknown : (spans .unknownFunction o.notices ++ unknownSpans o.opened).Perm (unknownSpans ts)
  strays : o.notices.filter (·.kind.isStray) = ts.filterMap ofStray?

theorem Accounts.opening (h : o.Accounts ts) (ht : t.kind.opensLevel = true) :
    (o.step t).Accounts (ts ++ [t]) := by
  have hb : Brackets.ofTokens (ts ++ [t]) =
      ⟨t :: (Brackets.ofTokens ts).opened, (Brackets.ofTokens ts).stray⟩ := by
    rw [Brackets.ofTokens_append_singleton, Brackets.step, if_pos ht]
  rw [step, if_pos ht]
  refine ⟨by rw [hb, h.opened], by rw [hb]; exact h.strayClosing, h.unclosed, ?_, ?_⟩
  · -- the call joins the open ones in front, and the tokens at the end
    show (spans .unknownFunction o.notices ++ unknownSpans ([t] ++ o.opened)).Perm _
    rw [unknownSpans_append, unknownSpans_append]
    have hswap : (unknownSpans [t] ++ unknownSpans o.opened).Perm
        (unknownSpans o.opened ++ unknownSpans [t]) := List.perm_append_comm
    refine (hswap.append_left _).trans ?_
    rw [← List.append_assoc]
    exact h.unknown.append_right _
  · rw [List.filterMap_append, h.strays]
    simp [ofStray?_of_opensLevel ht]

theorem Accounts.closing (h : o.Accounts ts) (ht : t.kind = .closing) :
    (o.step t).Accounts (ts ++ [t]) := by
  have hopens : ¬ t.kind.opensLevel = true := by simp [ht, Token.Kind.opensLevel]
  have hstray : ofStray? t = none := by simp [ofStray?, ht, Diagnostic.Kind.ofStray?]
  have hunknown : unknownSpans (ts ++ [t]) = unknownSpans ts := by
    simp [unknownSpans, ht]
  have hb : Brackets.ofTokens (ts ++ [t]) = (Brackets.ofTokens ts).step t :=
    Brackets.ofTokens_append_singleton ts t
  rw [Brackets.step, if_neg hopens, if_pos ht] at hb
  rw [step, if_neg hopens, if_pos ht]
  cases ho : o.opened with
  | nil =>
    rw [← h.opened, ho] at hb
    dsimp only at hb ⊢
    refine ⟨by rw [hb], ?_, ?_, ?_, ?_⟩
    · simp [h.strayClosing, hb]
    · simp [h.unclosed]
    · rw [hunknown]
      simpa [ho] using h.unknown
    · rw [List.filter_append, h.strays, List.filterMap_append]
      simp [hstray, Diagnostic.Kind.isStray]
  | cons opening opened =>
    rw [← h.opened, ho] at hb
    dsimp only at hb ⊢
    refine ⟨by rw [hb], ?_, ?_, ?_, ?_⟩
    · rw [spans_append, spans_ofCall_of_ne (by simp), List.append_nil, h.strayClosing, hb]
    · rw [spans_append, spans_ofCall_of_ne (by simp), h.unclosed, List.append_nil]
    · have hopened : unknownSpans o.opened = unknownSpans [opening] ++ unknownSpans opened := by
        rw [ho, ← unknownSpans_append, List.singleton_append]
      rw [hunknown, spans_append, spans_ofCall, List.append_assoc, ← hopened]
      exact h.unknown
    · rw [List.filter_append, filter_ofCall, List.append_nil, h.strays, List.filterMap_append]
      simp [hstray]

/-- Any other token gives notice of itself at most. -/
theorem Accounts.other (h : o.Accounts ts) (hopens : ¬ t.kind.opensLevel = true)
    (hcloses : t.kind ≠ .closing) : (o.step t).Accounts (ts ++ [t]) := by
  have hb : Brackets.ofTokens (ts ++ [t]) = Brackets.ofTokens ts := by
    rw [Brackets.ofTokens_append_singleton, Brackets.step, if_neg hopens, if_neg hcloses]
  have hunknown : unknownSpans (ts ++ [t]) = unknownSpans ts := by
    have : t.kind ≠ .unknownCall := by
      intro hk
      simp [hk, Token.Kind.opensLevel] at hopens
    simp [unknownSpans, this]
  rw [step, if_neg hopens, if_neg hcloses]
  refine ⟨by rw [hb, h.opened], ?_, ?_, ?_, ?_⟩
  · rw [spans_append, spans_ofStray? rfl, List.append_nil, h.strayClosing, hb]
  · rw [spans_append, spans_ofStray? rfl, List.append_nil, h.unclosed]
  · rw [spans_append, spans_ofStray? rfl, List.append_nil, hunknown]
    exact h.unknown
  · rw [List.filter_append, filter_ofStray?, h.strays, List.filterMap_append]
    cases ht : ofStray? t <;> simp [ht]

theorem Accounts.step (h : o.Accounts ts) (t : Token) : (o.step t).Accounts (ts ++ [t]) := by
  by_cases hopens : t.kind.opensLevel = true
  · exact h.opening hopens
  · by_cases hcloses : t.kind = .closing
    · exact h.closing hcloses
    · exact h.other hopens hcloses

theorem accounts_ofTokens (ts : List Token) : (ofTokens ts).Accounts ts := by
  induction ts using List.reverseRecOn with
  | nil => exact ⟨rfl, rfl, rfl, .refl _, rfl⟩
  | append_singleton ts t ih =>
    rw [ofTokens_append_singleton]
    exact ih.step t

/-! ### Open brackets at the end -/

theorem spans_unclosed (opened : List Token) :
    spans .unclosed (unclosed opened) = opened.map Token.span := by
  induction opened with
  | nil => rfl
  | cons t opened ih => simp [unclosed_cons, spans_ofCall_of_ne, ih]

theorem spans_unknownFunction_unclosed (opened : List Token) :
    spans .unknownFunction (unclosed opened) = unknownSpans opened := by
  induction opened with
  | nil => rfl
  | cons t opened ih =>
    rw [← List.singleton_append (x := t), unknownSpans_append, ← ih, List.singleton_append,
      unclosed_cons]
    simp [spans_ofCall]

theorem spans_strayClosing_unclosed (opened : List Token) :
    spans .strayClosing (unclosed opened) = [] := by
  induction opened with
  | nil => rfl
  | cons t opened ih => simp [unclosed_cons, spans_ofCall_of_ne, ih]

theorem filter_unclosed (opened : List Token) :
    (unclosed opened).filter (·.kind.isStray) = [] := by
  induction opened with
  | nil => rfl
  | cons t opened ih =>
    rw [unclosed_cons, List.filter_cons_of_neg (by simp [Diagnostic.Kind.isStray]),
      List.filter_append, filter_ofCall, ih, List.nil_append]

end Outline

/-- The levels that are open are those of the brackets without a partner. -/
theorem Parser.opening_frames_run {limit : Nat} {ts : List Token}
    (h : (start.run limit ts).halted = false) :
    (start.run limit ts).frames.map Frame.opening = (Brackets.ofTokens ts).opened := by
  rw [← (Outline.accounts_ofTokens ts).opened, ← outline_run h]
  rfl

/-! ## The account -/

/-- The diagnostics of these causes name exactly the brackets without a partner, the unknown
    calls and the stray characters of the tokens. -/
structure Diagnostic.Account (ts : List Token) (ds : List Diagnostic) : Prop where
  strayClosing : spans .strayClosing ds = (Brackets.ofTokens ts).stray.map Token.span
  unclosed : spans .unclosed ds = (Brackets.ofTokens ts).opened.map Token.span
  unknownFunction : (spans .unknownFunction ds).Perm (Notice.unknownSpans ts)
  strays : Notice.strays ds = ts.filterMap Notice.ofStray?

theorem account_of_parse {limit : Nat} {tokens : List Token}
    (h : ∀ d ∈ (parse limit tokens).diagnostics, d.kind ≠ .tooDeep) :
    Diagnostic.Account (Token.upToFinish tokens) (parse limit tokens).diagnostics := by
  set ts := Token.upToFinish tokens
  have hnotices : Notice.ofDiagnostics (parse limit tokens).diagnostics =
      (Outline.ofTokens ts).notices ++ Outline.unclosed (Outline.ofTokens ts).opened :=
    Parser.notices_ended h
  have hts := Outline.accounts_ofTokens ts
  constructor
  · rw [← Notice.spans_ofDiagnostics rfl, hnotices, Notice.spans_append, hts.strayClosing,
      Outline.spans_strayClosing_unclosed, List.append_nil]
  · rw [← Notice.spans_ofDiagnostics rfl, hnotices, Notice.spans_append, hts.unclosed,
      Outline.spans_unclosed, hts.opened, List.nil_append]
  · rw [← Notice.spans_ofDiagnostics rfl, hnotices, Notice.spans_append,
      Outline.spans_unknownFunction_unclosed]
    exact hts.unknown
  · rw [← Notice.filter_ofDiagnostics, hnotices, List.filter_append, hts.strays,
      Outline.filter_unclosed, List.append_nil]

/-- A stray character, or a bracket without a partner. -/
def Token.Malformed (ts : List Token) : Prop :=
  (∃ t ∈ ts, t.kind.isStray = true) ∨
    (Brackets.ofTokens ts).opened ≠ [] ∨ (Brackets.ofTokens ts).stray ≠ []

theorem Notice.isSome_ofStray? {t : Token} (h : t.kind.isStray = true) :
    (ofStray? t).isSome = true := by
  unfold ofStray?
  cases hk : t.kind <;> simp_all [Token.Kind.isStray, Diagnostic.Kind.ofStray?]

/-- Tokens like that are never parsed without a report: either the account has them, or the
    limit was exceeded. -/
theorem diagnostics_ne_nil_of_malformed {limit : Nat} {tokens : List Token}
    (h : Token.Malformed (Token.upToFinish tokens)) : (parse limit tokens).diagnostics ≠ [] := by
  intro hnone
  have haccount : Diagnostic.Account (Token.upToFinish tokens) (parse limit tokens).diagnostics :=
    account_of_parse (by simp [hnone])
  rw [hnone] at haccount
  rcases h with ⟨t, ht, hstray⟩ | hopened | hclosing
  · obtain ⟨n, hn⟩ := Option.isSome_iff_exists.mp (Notice.isSome_ofStray? hstray)
    have hmem : n ∈ Notice.strays [] := by
      rw [haccount.strays]
      exact List.mem_filterMap.mpr ⟨t, ht, hn⟩
    exact absurd hmem (by simp [Notice.strays])
  · exact hopened (List.map_eq_nil_iff.mp haccount.unclosed.symm)
  · exact hclosing (List.map_eq_nil_iff.mp haccount.strayClosing.symm)

/-- A session has no value for a malformed expression. -/
theorem Session.result_ne_ok {s : Session} (hs : s.IsFaithful)
    (h : Token.Malformed (tokenize s.reading.caret s.expression)) (v : Float) :
    s.result.1 ≠ .ok v := by
  have hd : s.parsed.diagnostics ≠ [] :=
    diagnostics_ne_nil_of_malformed (by rw [upToFinish_tokenize]; exact h)
  rw [(result_of_isFaithful hs).1, outcome, if_neg (by simpa using hd)]
  simp

/-- The diagnostics account for the tokens. Without a report that the limit was exceeded
    they name exactly the closing brackets without a partner, the opening ones without a
    partner from the inside out, the unknown calls, and the stray characters. With or
    without such a report an expression with a stray character or a bracket without a
    partner has no value, whatever the session was called for before. -/
theorem diagnostics_account (limit : Nat) (tokens : List Token) :
    ((∀ d ∈ (parse limit tokens).diagnostics, d.kind ≠ .tooDeep) →
      Diagnostic.Account (Token.upToFinish tokens) (parse limit tokens).diagnostics) ∧
    (∀ expression v, Token.Malformed (tokenize .power expression) → interpret expression ≠ .ok v) ∧
    ∀ r expression history v,
      let s := (Session.new r expression).after history
      Token.Malformed (tokenize s.reading.caret s.expression) → s.result.1 ≠ .ok v := by
  have hfaithful (r : Reading) (expression : String) : (Session.new r expression).IsFaithful :=
    Session.isFaithful_of_none rfl
  refine ⟨account_of_parse, fun expression v h => ?_, fun r expression history v h => ?_⟩
  · exact Session.result_ne_ok (hfaithful .default expression) h v
  · exact Session.result_ne_ok (Session.isFaithful_after (hfaithful r expression) history) h v

/-- A closing bracket too many, then two that are never closed around a stray character. -/
theorem diagnostics_account_unbalanced :
    let tokens : List Token := [⟨.closing, "", ⟨0, 1⟩⟩, ⟨.unknownCall, "f(", ⟨1, 3⟩⟩,
      ⟨.opening, "", ⟨3, 4⟩⟩, ⟨.strayCharacter, "$", ⟨4, 5⟩⟩]
    (∀ d ∈ (parse 2 tokens).diagnostics, d.kind ≠ .tooDeep) ∧
      Diagnostic.Account tokens (parse 2 tokens).diagnostics ∧
      Diagnostic.spans .unclosed (parse 2 tokens).diagnostics = [⟨3, 4⟩, ⟨1, 3⟩] := by
  have hshallow : ∀ d ∈ (parse 2 [⟨.closing, "", ⟨0, 1⟩⟩, ⟨.unknownCall, "f(", ⟨1, 3⟩⟩,
      ⟨.opening, "", ⟨3, 4⟩⟩, ⟨.strayCharacter, "$", ⟨4, 5⟩⟩]).diagnostics, d.kind ≠ .tooDeep := by
    decide
  exact ⟨hshallow, (diagnostics_account 2 _).1 hshallow, by decide⟩

end Reckoner
