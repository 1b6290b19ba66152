import Reckoner.Proofs.Session
import Reckoner.Proofs.Folding
import Reckoner.CommandLine

/-!
# Folding and streaming as settings

Two sessions for one expression are called for the same things, and folding and streaming
are switched where each of them likes. What they keep may differ, since a tree may be folded
in one of them only. They still answer the same, except that an expression without a value
may fail in two ways: folding finds errors in constant parts before any variable is met.

* `Session.requests`: the calls of a history other than settings;
* `Session.Agree`: results that differ at most in such an error;
* `Session.Alike`: the relation between the two sessions. One call keeps it
  (`Session.Alike.perform`), a setting on one side too (`Session.Alike.setting`);
* `settings_transparent`: all answers of two histories, and what the command line prints.
-/

namespace Reckoner

namespace Session

/-! ## Histories up to settings -/

/-- Whether a call switches folding or streaming. -/
def Call.isSetting : Call → Bool
  | .enableFolding | .setStreaming _ => true
  | _ => false

/-- The calls of a history other than settings, each with the session that it is made on. -/
def requests (s : Session) : List Call → List (Session × Call)
  | [] => []
  | c :: history =>
    let later := (s.perform c).2.requests history
    if c.isSetting then later else (s, c) :: later

theorem requests_of_isSetting (s : Session) {c : Call} (hc : c.isSetting = true)
    (history : List Call) : s.requests (c :: history) = (s.perform c).2.requests history :=
  if_pos hc

/-- Histories that differ only in their settings. -/
inductive SameRequests : List Call → List Call → Prop
  | nil : SameRequests [] []
  | left {c : Call} {h h' : List Call} :
    c.isSetting = true → SameRequests h h' → SameRequests (c :: h) h'
  | right {c : Call} {h h' : List Call} :
    c.isSetting = true → SameRequests h h' → SameRequests h (c :: h')
  | both (c : Call) {h h' : List Call} : SameRequests h h' → SameRequests (c :: h) (c :: h')

theorem sameRequests_of_filter {h h' : List Call}
    (hcalls : h.filter (!·.isSetting) = h'.filter (!·.isSetting)) : SameRequests h h' := by
  induction h generalizing h' with
  | nil =>
    induction h' with
    | nil => exact .nil
    | cons c h' ih =>
      cases hc : c.isSetting with
      | true => exact .right hc (ih (by simpa [hc] using hcalls))
      | false => simp [hc] at hcalls
  | cons c h ih =>
    cases hc : c.isSetting with
    | true => exact .left hc (ih (by simpa [hc] using hcalls))
    | false =>
      -- the other history has settings up to the same call
      induction h' with
      | nil => simp [hc] at hcalls
      | cons c' h' ih' =>
        cases hc' : c'.isSetting with
        | true => exact .right hc' (ih' (by simpa [hc'] using hcalls))
        | false =>
          simp only [List.filter_cons, hc, hc', Bool.not_false, if_true, List.cons.injEq] at hcalls
          obtain ⟨rfl, hcalls⟩ := hcalls
          exact .both c (ih hcalls)

/-! ## Results that agree -/

/-- Folding is on, and fails for the expression of the session. -/
def FailsToFold (s : Session) (e : EvalError) : Prop :=
  s.folding = true ∧ s.parsed.tree.fold = .error e

/-- Results of two sessions: the same value, the same diagnostics, or the same error. If one
    of them folds and fails at that, the other one may have met a late error before. -/
inductive Agree (s s' : Session) : Except (List Failure) Float → Except (List Failure) Float → Prop
  | value (x : Float) : Agree s s' (.ok x) (.ok x)
  | parsing {ds : List Diagnostic} : ds ≠ [] →
    Agree s s' (.error (ds.map .parsing)) (.error (ds.map .parsing))
  | evaluation (e : EvalError) : Agree s s' (.error [.evaluation e]) (.error [.evaluation e])
  | left {e e' : EvalError} : s.FailsToFold e → s'.folding = false → e'.IsLate s'.bindings →
    Agree s s' (.error [.evaluation e]) (.error [.evaluation e'])
  | right {e e' : EvalError} : s.folding = false → e.IsLate s.bindings → s'.FailsToFold e' →
    Agree s s' (.error [.evaluation e]) (.error [.evaluation e'])

theorem Agree.symm {s s' : Session} {x y : Except (List Failure) Float} (h : Agree s s' x y) :
    Agree s' s y x := by
  cases h with
  | value x => exact .value x
  | parsing hd => exact .parsing hd
  | evaluation e => exact .evaluation e
  | left hfold hfolding hlate => exact .right hfolding hlate hfold
  | right hfolding hlate hfold => exact .left hfold hfolding hlate

/-- The answers of two sessions to a call. The form that is kept is not compared: it shows
    what folding has done. -/
def AgreeOn (s s' : Session) : Call → Prop
  | .form => True
  | .result => Agree s s' s.result.1 s'.result.1
  | c => (s.perform c).1 = (s'.perform c).1

variable {s s' : Session} {b : Bindings} {p : Parsed} {t : Tree}

/-- Without folding the result is the value of the tree. -/
theorem outcome_unfolded (b : Bindings) (hp : p.diagnostics = []) :
    outcome false b p = (p.tree.evaluate b).mapError fun e => [.evaluation e] := by
  rw [outcome, hp]
  rfl

/-- Folding keeps the value of the form. -/
theorem evaluate_of_foldForm {folding : Bool} {form : Form}
    (h : foldForm folding (.parsed t) = .ok form) : form.evaluate b = t.evaluate b := by
  rcases form_of_foldForm h with rfl | ⟨-, f, hf, rfl⟩
  · rfl
  · exact Tree.evaluate_of_fold b (Tree.fold_of_fold?_ok hf)

/-- Folding makes no difference to the result, unless it fails. -/
theorem outcome_folded (b : Bindings) (hp : p.diagnostics = []) :
    outcome true b p = outcome false b p ∨ ∃ e e', p.tree.fold = .error e ∧
      outcome true b p = .error [.evaluation e] ∧
      outcome false b p = .error [.evaluation e'] ∧ (e' = e ∨ e'.IsLate b) := by
  rw [outcome_unfolded b hp, outcome, hp]
  cases hform : foldForm true (.parsed p.tree) with
  | ok form =>
    left
    rw [← evaluate_of_foldForm hform]
    rfl
  | error e =>
    right
    have hfold := (fold_of_foldForm_error hform).2
    obtain ⟨e', he', hlate⟩ := Tree.evaluate_of_fold_error b hfold
    exact ⟨e, e', hfold, rfl, by rw [he']; rfl, hlate⟩

/-- One result agrees with itself. -/
theorem agree_outcome_self (s s' : Session) (folding : Bool) (b : Bindings) (p : Parsed) :
    Agree s s' (outcome folding b p) (outcome folding b p) := by
  unfold outcome
  split_ifs with hp
  · split
    · exact .evaluation _
    · rename_i form _
      cases form.evaluate b with
      | ok x => exact .value x
      | error e => exact .evaluation e
  · exact .parsing (by simpa using hp)

/-! ## Two sessions -/

/-- What the answers of a session depend on. -/
structure Subject where
  expression : String
  caret : Caret
  bindings : Bindings

/-- The expression with the meaning of the caret, and the bindings. -/
def subject (s : Session) : Subject := ⟨s.expression, s.reading.caret, s.bindings⟩

/-- What a call does to them. -/
def Call.apply : Call → Subject → Subject
  | .setExpression expression, q => { q with expression := expression }
  | .bind name value, q => { q with bindings := q.bindings.insert name value }
  | .unbind name, q => { q with bindings := (q.bindings.remove name).2 }
  | _, q => q

theorem subject_perform (s : Session) (c : Call) : (s.perform c).2.subject = c.apply s.subject := by
  cases c with
  | setExpression | bind | unbind | enableFolding | setStreaming | form => rfl
  | diagnostics | names =>
    show s.load.2.subject = _
    rw [load_snd]
    rfl
  | result =>
    obtain ⟨c, hc⟩ := result_snd s
    show s.result.2.subject = _
    rw [hc]
    rfl

theorem apply_of_isSetting {c : Call} (hc : c.isSetting = true) (q : Subject) : c.apply q = q := by
  cases c with
  | enableFolding | setStreaming => rfl
  | setExpression | bind | unbind | diagnostics | names | form | result => cases hc

/-- Two sessions with the same subject, whatever they keep of it. -/
structure Alike (s s' : Session) : Prop where
  subject : s.subject = s'.subject
  left : s.IsFaithful
  right : s'.IsFaithful

namespace Alike

theorem symm (h : Alike s s') : Alike s' s := ⟨h.subject.symm, h.right, h.left⟩

theorem parsed (h : Alike s s') : s.parsed = s'.parsed := by
  have hexpression : s.expression = s'.expression := congrArg Subject.expression h.subject
  have hcaret : s.reading.caret = s'.reading.caret := congrArg Subject.caret h.subject
  rw [Session.parsed, hexpression, hcaret, ← Session.parsed]

theorem bindings (h : Alike s s') : s.bindings = s'.bindings :=
  congrArg Subject.bindings h.subject

/-- One call on both sides. -/
theorem perform (h : Alike s s') (c : Call) : Alike (s.perform c).2 (s'.perform c).2 :=
  ⟨by rw [subject_perform, subject_perform, h.subject], isFaithful_perform h.left c,
    isFaithful_perform h.right c⟩

/-- A setting on one side. -/
theorem setting (h : Alike s s') {c : Call} (hc : c.isSetting = true) :
    Alike (s.perform c).2 s' :=
  ⟨by rw [subject_perform, apply_of_isSetting hc, h.subject], isFaithful_perform h.left c, h.right⟩

/-- Folding is on in one session only. -/
theorem agree_of_folding (h : Alike s s') (hd : s'.parsed.diagnostics = [])
    (hs : s.folding = true) (hs' : s'.folding = false) : Agree s s' s.result.1 s'.result.1 := by
  rw [(result_of_isFaithful h.left).1, (result_of_isFaithful h.right).1, h.parsed, h.bindings,
    hs, hs']
  rcases outcome_folded s'.bindings hd with heq | ⟨e, e', hfold, hfolded, hunfolded, hlate⟩
  · rw [heq]
    exact agree_outcome_self ..
  · rw [hfolded, hunfolded]
    rcases hlate with rfl | hlate
    · exact .evaluation _
    · exact .left ⟨hs, h.parsed ▸ hfold⟩ hs' hlate

theorem agree (h : Alike s s') : Agree s s' s.result.1 s'.result.1 := by
  by_cases hfolding : s.folding = s'.folding
  · rw [(result_of_isFaithful h.left).1, (result_of_isFaithful h.right).1, h.parsed, h.bindings,
      hfolding]
    exact agree_outcome_self ..
  by_cases hd : s'.parsed.diagnostics = []
  · cases hs : s.folding with
    | true => exact h.agree_of_folding hd hs (by simpa [hs] using hfolding)
    | false =>
      have hs' : s'.folding = true := by simpa [hs] using hfolding
      exact (h.symm.agree_of_folding (h.parsed ▸ hd) hs' hs).symm
  · have hreported (folding : Bool) : outcome folding s'.bindings s'.parsed =
        .error (s'.parsed.diagnostics.map .parsing) := by
      rw [outcome, if_neg (by simpa using hd)]
    rw [(result_of_isFaithful h.left).1, (result_of_isFaithful h.right).1, h.parsed, h.bindings,
      hreported, hreported]
    exact .parsing hd

/-- Alike sessions answer alike. -/
theorem agreeOn (h : Alike s s') (c : Call) : AgreeOn s s' c := by
  cases c with
  | setExpression | bind | enableFolding | setStreaming => rfl
  | unbind name => exact congrArg (fun b => Answer.unbound (b.remove name).1) h.bindings
  | diagnostics =>
    show Answer.diagnostics _ = Answer.diagnostics _
    rw [diagnostics_of_isFaithful h.left, diagnostics_of_isFaithful h.right, h.parsed]
  | names =>
    show Answer.names _ = Answer.names _
    rw [names_of_isFaithful h.left, names_of_isFaithful h.right, h.parsed]
  | form => trivial
  | result => exact h.agree

/-- Histories that differ only in their settings keep sessions alike. -/
theorem after (h : Alike s s') {history history' : List Call}
    (hcalls : SameRequests history history') : Alike (s.after history) (s'.after history') := by
  induction hcalls generalizing s s' with
  | nil => exact h
  | left hc _ ih => exact ih (h.setting hc)
  | right hc _ ih => exact ih (h.symm.setting hc).symm
  | both c _ ih => exact ih (h.perform c)

/-- They answer alike throughout such histories. -/
theorem requests (h : Alike s s') {history history' : List Call}
    (hcalls : SameRequests history history') :
    List.Forall₂ (fun x y => x.2 = y.2 ∧ AgreeOn x.1 y.1 x.2) (s.requests history)
      (s'.requests history') := by
  induction hcalls generalizing s s' with
  | nil => exact .nil
  | left hc _ ih =>
    rw [requests_of_isSetting s hc]
    exact ih (h.setting hc)
  | right hc _ ih =>
    rw [requests_of_isSetting s' hc]
    exact ih (h.symm.setting hc).symm
  | both c _ ih =>
    rw [Session.requests, Session.requests]
    split_ifs
    · exact ih (h.perform c)
    · exact .cons ⟨rfl, h.agreeOn c⟩ (ih (h.perform c))

end Alike

theorem alike_new (expression : String) {r r' : Reading} (hcaret : r.caret = r'.caret) :
    Alike (new r expression) (new r' expression) :=
  ⟨by rw [subject, subject, new, new, hcaret], isFaithful_of_none rfl, isFaithful_of_none rfl⟩

end Session

/-! ## The command line -/

namespace CommandLine

open Session

/-- The history of calls that options describe. -/
def Options.history (o : Options) : List Call :=
  (if o.folding then [.enableFolding] else []) ++ o.bindings.map fun (name, value) => .bind name value

theorem Options.session_eq (o : Options) :
    o.session = (new { Reading.default with caret := o.caret, streaming := o.streaming }
      o.expression).after o.history := by
  rw [after, history, List.foldl_append, List.foldl_map, session]
  split_ifs <;> rfl

/-- Options that differ only in settings describe sessions that are alike. -/
theorem Options.alike_session {o o' : Options} (hexpression : o.expression = o'.expression)
    (hcaret : o.caret = o'.caret) (hbindings : o.bindings = o'.bindings) :
    Alike o.session o'.session := by
  have hrequests (o : Options) : o.history.filter (!·.isSetting) =
      o.bindings.map fun (name, value) => .bind name value := by
    have hsettings : (if o.folding then [Call.enableFolding] else []).filter (!·.isSetting) = [] := by
      split_ifs <;> rfl
    have hbinds : ∀ c ∈ o.bindings.map fun (name, value) => Call.bind name value,
        (!c.isSetting) = true := by
      simp only [List.forall_mem_map]
      exact fun _ _ => rfl
    rw [history, List.filter_append, hsettings, List.filter_eq_self.mpr hbinds, List.nil_append]
  rw [session_eq, session_eq, hexpression]
  exact (alike_new _ hcaret).after
    (sameRequests_of_filter (by rw [hrequests, hrequests, hbindings]))

/-- Results that agree are printed the same, up to what is said about a failure. -/
theorem Options.run_of_agree {o o' : Options}
    (h : Agree o.session o'.session o.session.result.1 o'.session.result.1) :
    o.run.stdout = o'.run.stdout ∧ o.run.exitCode = o'.run.exitCode := by
  rw [run, run]
  generalize o.session.result.1 = x, o'.session.result.1 = y at h
  cases h <;> exact ⟨rfl, rfl⟩

end CommandLine

/-! ## Transparency -/

open Session in
/-- Two histories for one expression that differ only in where folding and streaming are
    switched have the same calls otherwise, and their answers agree: those about diagnostics,
    variables and bindings are equal, and results are too, unless folding fails in one of the
    sessions and a late error is met first in the other. So folding and streaming make no
    difference to what the command line prints as its result, nor to its status. -/
theorem settings_transparent (expression : String) {r r' : Reading} (hcaret : r.caret = r'.caret)
    {history history' : List Call}
    (hcalls : history.filter (!·.isSetting) = history'.filter (!·.isSetting)) :
    List.Forall₂ (fun x y => x.2 = y.2 ∧ AgreeOn x.1 y.1 x.2)
      ((new r expression).requests history) ((new r' expression).requests history') ∧
    ∀ o o' : CommandLine.Options, o.expression = o'.expression → o.caret = o'.caret →
      o.bindings = o'.bindings →
      o.run.stdout = o'.run.stdout ∧ o.run.exitCode = o'.run.exitCode := by
  refine ⟨(alike_new expression hcaret).requests (sameRequests_of_filter hcalls), ?_⟩
  intro o o' hexpression hcaret hbindings
  exact CommandLine.Options.run_of_agree
    (CommandLine.Options.alike_session hexpression hcaret hbindings).agree

open Session in
/-- Evaluation meets the unbound variable, folding the division by zero behind it. The answers
    agree although they are different errors, and the status is the same. -/
theorem settings_transparent_late :
    let expression := "x + 1 / 0"
    let history := [Call.result]
    let history' := [Call.enableFolding, Call.setStreaming true, Call.result]
    history.filter (!·.isSetting) = history'.filter (!·.isSetting) ∧
    List.Forall₂ (fun x y => x.2 = y.2 ∧ AgreeOn x.1 y.1 x.2)
      ((new .default expression).requests history)
      ((new .default expression).requests history') ∧
    (CommandLine.Options.mk expression false false .power [] 0).run.exitCode =
      (CommandLine.Options.mk expression true true .power [] 0).run.exitCode := by
  intro expression history history'
  have hcaret : Reading.default.caret = Reading.default.caret := rfl
  have hcalls : history.filter (!·.isSetting) = history'.filter (!·.isSetting) := rfl
  obtain ⟨hanswers, hrun⟩ := settings_transparent expression hcaret hcalls
  exact ⟨hcalls, hanswers, (hrun (.mk expression false false .power [] 0)
    (.mk expression true true .power [] 0) rfl rfl rfl).2⟩

end Reckoner
