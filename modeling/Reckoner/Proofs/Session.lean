import Reckoner.Session
import Reckoner.Proofs.Folding
import Reckoner.Proofs.Token.Streaming

/-!
# The cache of a session

A session keeps what it has parsed until the expression is replaced. Whatever was called
before, it keeps only what parsing the expression now would give, with the tree folded or
not, so that no answer tells whether anything was kept.

* `Session.IsFaithful`: the invariant of the cache;
* `Session.isFaithful_perform`: every call preserves it;
* `Session.result_of_isFaithful`: under the invariant the result depends on the expression,
  the meaning of the caret, the bindings and on whether folding is on;
* `Session.cache_unobservable`: all of it, after any history of calls.
-/

namespace Reckoner

namespace Session

/-! ## Histories of calls -/

/-- What a session may be called for. -/
inductive Call
  | setExpression (expression : String)
  | bind (name : String) (value : Float)
  | unbind (name : String)
  | enableFolding
  | setStreaming (streaming : Bool)
  | diagnostics
  | names
  | form
  | result

/-- What a session answers. -/
inductive Answer
  | done
  /-- the value that a variable had -/
  | unbound (old : Option Float)
  | diagnostics (ds : List Diagnostic)
  | names (names : List String)
  | form (form : Option Form)
  | result (r : Except (List Failure) Float)

/-- The answer to a call, with the session after it. -/
def perform (s : Session) : Call → Answer × Session
  | .setExpression expression => (.done, s.setExpression expression)
  | .bind name value => (.done, s.bind name value)
  | .unbind name => (.unbound (s.unbind name).1, (s.unbind name).2)
  | .enableFolding => (.done, s.enableFolding)
  | .setStreaming streaming => (.done, s.setStreaming streaming)
  | .diagnostics => (.diagnostics s.diagnostics.1, s.diagnostics.2)
  | .names => (.names s.names.1, s.names.2)
  | .form => (.form s.form?, s)
  | .result => (.result s.result.1, s.result.2)

/-- The session after a history of calls. -/
def after (s : Session) (history : List Call) : Session :=
  history.foldl (fun s c => (s.perform c).2) s

/-- Whether a call replaces the expression. -/
def Call.replacesExpression : Call → Bool
  | .setExpression _ => true
  | _ => false

/-- Whether a call changes bindings. -/
def Call.changesBindings : Call → Bool
  | .bind .. | .unbind _ => true
  | _ => false

/-- A session for the same expression under the same meaning of the caret, with the same
    bindings and folding, in which nothing is parsed yet. -/
def fresh (s : Session) (streaming : Bool) (capacity : Nat) : Session :=
  { new ⟨s.reading.caret, streaming, capacity⟩ s.expression with
    folding := s.folding, bindings := s.bindings }

/-! ## The invariant -/

/-- What the expression is parsed to. -/
def parsed (s : Session) : Parsed := Reckoner.parse depthLimit (tokenize s.reading.caret s.expression)

/-- A cache describes the expression of a session: it has the diagnostics and the distinct
    variables, and the tree, which may be folded only if folding is on and there are no
    diagnostics. -/
structure Cache.Describes (c : Cache) (s : Session) : Prop where
  diagnostics : c.diagnostics = s.parsed.diagnostics
  names : c.names = s.parsed.tree.names.eraseDups
  distinct : c.names.Nodup
  form : c.form = .parsed s.parsed.tree ∨ (s.folding = true ∧ s.parsed.diagnostics = [] ∧
    ∃ f, s.parsed.tree.fold? = .ok (some f) ∧ c.form = .folded f)

/-- What is kept, if anything is, describes the current expression. -/
def IsFaithful (s : Session) : Prop := ∀ c, s.cache = some c → c.Describes s

theorem nodup_eraseDups (names : List String) : names.eraseDups.Nodup := by
  match names with
  | [] => simp
  | name :: names =>
    have ih := nodup_eraseDups (names.filter fun other => !other == name)
    rw [List.eraseDups_cons, List.nodup_cons]
    exact ⟨by simp [List.mem_eraseDups], ih⟩
termination_by names.length
decreasing_by
  have := List.length_filter_le (fun other => !other == name) names
  simp only [List.length_cons]
  omega

variable {s s' : Session} {c : Cache}

theorem Cache.describes_ofParsed (s : Session) : (Cache.ofParsed s.parsed).Describes s :=
  ⟨rfl, rfl, nodup_eraseDups _, .inl rfl⟩

/-- Only the expression and the meaning of the caret matter, and folding may be switched
    on later. -/
theorem Cache.Describes.congr (h : c.Describes s) (hp : s'.parsed = s.parsed)
    (hf : s.folding = true → s'.folding = true) : c.Describes s' := by
  refine ⟨by rw [hp, h.diagnostics], by rw [hp, h.names], h.distinct, ?_⟩
  rw [hp]
  exact h.form.imp_right fun ⟨hs, hd⟩ => ⟨hf hs, hd⟩

theorem isFaithful_of_none (h : s.cache = none) : s.IsFaithful := by
  intro c hc
  rw [h] at hc
  cases hc

theorem IsFaithful.congr (h : s.IsFaithful) (hc : s'.cache = s.cache) (hp : s'.parsed = s.parsed)
    (hf : s.folding = true → s'.folding = true) : s'.IsFaithful :=
  fun c hs => (h c (hc ▸ hs)).congr hp hf

theorem Cache.Describes.isFaithful (h : c.Describes s) :
    { s with cache := some c }.IsFaithful := by
  intro c' hc
  obtain rfl := Option.some.inj hc
  exact h.congr rfl id

/-! ## Loading -/

/-- Loading keeps what it answers. -/
theorem load_snd (s : Session) : s.load.2 = { s with cache := some s.load.1 } := by
  obtain ⟨expression, reading, folding, bindings, cache⟩ := s
  cases cache <;> rfl

/-- Loading answers a description of the expression, whether it was kept or not. -/
theorem describes_load (h : s.IsFaithful) : s.load.1.Describes s := by
  unfold load
  split
  · rename_i c hc
    exact h c hc
  · rw [Reading.parse_eq]
    exact Cache.describes_ofParsed s

/-! ## Results -/

/-- The result of a parsed expression. -/
def outcome (folding : Bool) (b : Bindings) (p : Parsed) : Except (List Failure) Float :=
  if p.diagnostics.isEmpty then
    match foldForm folding (.parsed p.tree) with
    | .error e => .error [.evaluation e]
    | .ok form => (form.evaluate b).mapError fun e => [.evaluation e]
  else .error (p.diagnostics.map .parsing)

theorem foldForm_of_fold {t : Tree} {f : Folded} (h : t.fold? = .ok (some f)) :
    foldForm true (.parsed t) = .ok (.folded f) := by
  rw [foldForm, h]
  rfl

/-- What folding gives is the parsed tree, or the folded one. -/
theorem form_of_foldForm {folding : Bool} {t : Tree} {form : Form}
    (h : foldForm folding (.parsed t) = .ok form) :
    form = .parsed t ∨ (folding = true ∧ ∃ f, t.fold? = .ok (some f) ∧ form = .folded f) := by
  cases folding with
  | false => exact .inl (Except.ok.inj h).symm
  | true =>
    cases hf : t.fold? with
    | error e =>
      rw [foldForm, hf] at h
      cases h
    | ok folded =>
      rw [foldForm, hf] at h
      cases folded with
      | none => exact .inl (Except.ok.inj h).symm
      | some f => exact .inr ⟨rfl, f, rfl, (Except.ok.inj h).symm⟩

/-- Folding fails as the tree does. -/
theorem fold_of_foldForm_error {folding : Bool} {t : Tree} {e : EvalError}
    (h : foldForm folding (.parsed t) = .error e) : folding = true ∧ t.fold = .error e := by
  cases folding with
  | false => cases h
  | true =>
    cases hf : t.fold? with
    | error e' =>
      rw [foldForm, hf] at h
      obtain rfl := Except.error.inj h
      exact ⟨rfl, Tree.fold_of_fold?_error hf⟩
    | ok folded =>
      rw [foldForm, hf] at h
      cases folded <;> cases h

/-- Folding a kept form again is folding the parsed tree. -/
theorem Cache.Describes.foldForm_eq (h : c.Describes s) :
    foldForm s.folding c.form = foldForm s.folding (.parsed s.parsed.tree) := by
  rcases h.form with hform | ⟨hfolding, -, f, hf, hform⟩
  · rw [hform]
  · rw [hform, hfolding, foldForm_of_fold hf]
    rfl

theorem Cache.Describes.fold (h : c.Describes s) (hd : s.parsed.diagnostics = []) {form : Form}
    (hform : foldForm s.folding c.form = .ok form) : { c with form := form }.Describes s := by
  refine ⟨h.diagnostics, h.names, h.distinct, ?_⟩
  rw [h.foldForm_eq] at hform
  exact (form_of_foldForm hform).imp_right fun ⟨hfolding, hf⟩ => ⟨hfolding, hd, hf⟩

/-- A result changes nothing but the cache. -/
theorem result_snd (s : Session) : ∃ c, s.result.2 = { s with cache := some c } := by
  unfold result
  dsimp only
  rw [load_snd]
  split_ifs
  · split
    · exact ⟨_, rfl⟩
    · exact ⟨_, rfl⟩
  · exact ⟨_, rfl⟩

/-- The result is that of the parsed expression, and what is kept with it describes the
    expression. -/
theorem result_of_isFaithful (h : s.IsFaithful) :
    s.result.1 = outcome s.folding s.bindings s.parsed ∧ s.result.2.IsFaithful := by
  have hc := describes_load h
  unfold result outcome
  dsimp only
  rw [load_snd, ← hc.diagnostics]
  split_ifs with hd
  · rw [List.isEmpty_iff, hc.diagnostics] at hd
    rw [← hc.foldForm_eq]
    cases hform : foldForm s.folding s.load.1.form with
    | error e => exact ⟨rfl, hc.isFaithful⟩
    | ok form => exact ⟨rfl, (hc.fold hd hform).isFaithful⟩
  · exact ⟨rfl, hc.isFaithful⟩

/-! ## Every call -/

/-- Every call preserves the invariant. -/
theorem isFaithful_perform (h : s.IsFaithful) (c : Call) : (s.perform c).2.IsFaithful := by
  cases c with
  | setExpression expression => exact isFaithful_of_none rfl
  | bind name value => exact h.congr rfl rfl id
  | unbind name => exact h.congr rfl rfl id
  | enableFolding => exact h.congr rfl rfl fun _ => rfl
  | setStreaming streaming => exact h.congr rfl rfl id
  | diagnostics | names =>
    show s.load.2.IsFaithful
    rw [load_snd]
    exact (describes_load h).isFaithful
  | form => exact h
  | result => exact (result_of_isFaithful h).2

theorem isFaithful_after (h : s.IsFaithful) (history : List Call) :
    (s.after history).IsFaithful := by
  induction history generalizing s with
  | nil => exact h
  | cons c history ih => exact ih (isFaithful_perform h c)

/-! ## What a call leaves alone -/

/-- What is kept is not loaded anew. -/
theorem load_of_cache (h : s.cache = some c) : s.load = (c, s) := by
  rw [load, h]

/-- A folded form is folded no further. -/
theorem foldForm_folded (folding : Bool) (f : Folded) :
    foldForm folding (.folded f) = .ok (.folded f) := by
  cases folding <;> rfl

/-- Only another expression takes the place of a folded form. -/
theorem form?_perform {f : Folded} (h : s.form? = some (.folded f)) {call : Call}
    (hcall : call.replacesExpression = false) : (s.perform call).2.form? = some (.folded f) := by
  obtain ⟨c, hc, hform⟩ := Option.map_eq_some_iff.mp h
  have hload := load_of_cache hc
  cases call with
  | setExpression expression => cases hcall
  | bind | unbind | enableFolding | setStreaming | form => exact h
  | diagnostics | names =>
    show s.load.2.form? = _
    rw [hload, h]
  | result =>
    show s.result.2.form? = _
    unfold result
    rw [hload]
    dsimp only
    split_ifs
    · rw [hform, foldForm_folded]
      rfl
    · exact h

theorem form?_after {f : Folded} (h : s.form? = some (.folded f)) {later : List Call}
    (hlater : ∀ call ∈ later, call.replacesExpression = false) :
    (s.after later).form? = some (.folded f) := by
  induction later generalizing s with
  | nil => exact h
  | cons call later ih =>
    have hcall := hlater call List.mem_cons_self
    exact ih (form?_perform h hcall) fun other ho => hlater other (List.mem_cons_of_mem _ ho)

theorem bindings_perform (s : Session) {call : Call} (hcall : call.changesBindings = false) :
    (s.perform call).2.bindings = s.bindings := by
  cases call with
  | bind | unbind => cases hcall
  | setExpression | enableFolding | setStreaming | form => rfl
  | diagnostics | names =>
    show s.load.2.bindings = _
    rw [load_snd]
  | result =>
    obtain ⟨c, hc⟩ := result_snd s
    show s.result.2.bindings = _
    rw [hc]

/-! ## Answers -/

theorem isFaithful_fresh (s : Session) (streaming : Bool) (capacity : Nat) :
    (s.fresh streaming capacity).IsFaithful := isFaithful_of_none rfl

theorem parsed_fresh (s : Session) (streaming : Bool) (capacity : Nat) :
    (s.fresh streaming capacity).parsed = s.parsed := rfl

theorem diagnostics_of_isFaithful (h : s.IsFaithful) :
    s.diagnostics.1 = s.parsed.diagnostics := (describes_load h).diagnostics

theorem names_of_isFaithful (h : s.IsFaithful) :
    s.names.1 = s.parsed.tree.names.eraseDups := (describes_load h).names

/-- After any history of calls the cache describes the current expression, and no answer
    tells that there is one: diagnostics, variables and results are those of a fresh
    session, streamed or not. A folded form stays until the expression is replaced, and
    bindings change only where they are asked to. -/
theorem cache_unobservable (r : Reading) (expression : String) (history : List Call) :
    ((new r expression).after history).IsFaithful ∧
    (∀ streaming capacity,
      let s := (new r expression).after history
      let fresh := s.fresh streaming capacity
      s.diagnostics.1 = fresh.diagnostics.1 ∧ s.names.1 = fresh.names.1 ∧
        s.result.1 = fresh.result.1) ∧
    (∀ f later, ((new r expression).after history).form? = some (.folded f) →
      (∀ call ∈ later, call.replacesExpression = false) →
      ((new r expression).after (history ++ later)).form? = some (.folded f)) ∧
    (∀ call, call.changesBindings = false →
      ((new r expression).after (history ++ [call])).bindings =
        ((new r expression).after history).bindings) := by
  have h : ((new r expression).after history).IsFaithful :=
    isFaithful_after (isFaithful_of_none rfl) history
  refine ⟨h, fun streaming capacity => ?_, fun f later hform hlater => ?_, fun call hcall => ?_⟩
  · have hfresh := isFaithful_fresh ((new r expression).after history) streaming capacity
    refine ⟨?_, ?_, ?_⟩
    · rw [diagnostics_of_isFaithful h, diagnostics_of_isFaithful hfresh, parsed_fresh]
    · rw [names_of_isFaithful h, names_of_isFaithful hfresh, parsed_fresh]
    · rw [(result_of_isFaithful h).1, (result_of_isFaithful hfresh).1, parsed_fresh]
      rfl
  · rw [after, List.foldl_append]
    exact form?_after hform hlater
  · rw [after, List.foldl_append]
    exact bindings_perform _ hcall

end Session

end Reckoner
