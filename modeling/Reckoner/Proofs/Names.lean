import Reckoner.Proofs.Parser.Recognition
import Reckoner.Proofs.Settings
import Reckoner.Proofs.Folding.Shape

/-!
# What results depend on

The variables of a session are those of its tokens, and a result depends on nothing else
that is bound. They are looked up in their order, so that the first one without a value is
the one that an evaluation reports.

* `Grammar.Derives.names_eq`, `Grammar.Derives.isTrim`: a derived tree has the variables of
  its tokens, and nothing hangs in it that evaluation does not visit;
* `Tree.evaluate_congr`: bindings that agree on the variables give the same value or error;
* `Tree.find?_names_of_unbound`: the variable that an evaluation reports;
* `Session.result_governed_by_names`: both for the results of a session, with folding and
  without, whatever it was called for before.
-/

namespace Reckoner

/-- The names among tokens, repetitions kept. -/
def Token.names (ts : List Token) : List String := (ts.filter (·.kind = .name)).map Token.text

/-! ## Variables of tokens -/

namespace Token

@[simp] theorem names_nil : names [] = [] := rfl

@[simp] theorem names_append (ts us : List Token) : names (ts ++ us) = names ts ++ names us := by
  simp [names]

theorem names_cons_of_ne {t : Token} (ht : t.kind ≠ .name) (ts : List Token) :
    names (t :: ts) = names ts := by
  simp [names, ht]

end Token

namespace Grammar

/-- A token that is an operand has its text as its variable, or has none. -/
theorem names_ofToken? {t : Token} {x : Tree} (h : Tree.ofToken? t = some x) :
    x.names = Token.names [t] ∧ x.IsTrim := by
  obtain ⟨kind, text, span⟩ := t
  cases kind with
  | literal | name =>
    obtain rfl := Option.some.inj h
    exact ⟨rfl, rfl, rfl⟩
  | _ => cases h

/-- A bracket around tokens adds no variable. -/
theorem names_bracket {o c : Token} (ho : o.kind ≠ .name) (hc : c.kind = .closing)
    (ts : List Token) : Token.names (o :: ts ++ [c]) = Token.names ts := by
  rw [List.cons_append, Token.names_cons_of_ne ho, Token.names_append,
    Token.names_cons_of_ne (by simp [hc]), Token.names_nil, List.append_nil]

namespace Derives

variable {c : Category} {n : Nat} {ts : List Token} {x : Tree}

/-- The variables of a derived tree are those of its tokens, in the same order. -/
theorem names_eq (h : Derives c n ts x) : x.names = Token.names ts := by
  induction h with
  | operand hx => exact (names_ofToken? hx).1
  | group ho _ hc ih => rw [names_bracket (by simp [ho]) hc, ih]
  | call ho _ hc ih =>
    rw [names_bracket (by simp [ho]) hc, ← ih]
    simp [Tree.call, Tree.names]
  | atom _ ih | term _ ih => exact ih
  | tight _ ht _ _ ihx ihy | loose _ ht _ _ ihx ihy =>
    rw [Token.names_append, Token.names_cons_of_ne (by simp [ht]), ← ihx, ← ihy]
    rfl

theorem isTrim (h : Derives c n ts x) : x.IsTrim := by
  induction h with
  | operand hx => exact (names_ofToken? hx).2
  | group _ _ _ ih | atom _ ih | term _ ih => exact ih
  | call _ _ _ ih => exact ⟨ih, rfl⟩
  | tight _ _ _ _ ihx ihy | loose _ _ _ _ ihx ihy => exact ⟨ihx, ihy⟩

end Derives

end Grammar

/-- A parse without a report has the variables of its tokens, in a trim tree. -/
theorem names_of_parse {limit : Nat} {tokens : List Token}
    (h : (parse limit tokens).diagnostics = []) :
    (parse limit tokens).tree.names = Token.names (Token.upToFinish tokens) ∧
      (parse limit tokens).tree.IsTrim := by
  rcases derives_of_parse h with hnil | ⟨n, x, hd, hn, hx⟩
  · rw [parse_nil hnil, hnil]
    exact ⟨rfl, trivial⟩
  · rw [parse_of_derives hd hn hx]
    exact ⟨hd.names_eq, hd.isTrim⟩

/-! ## Lookups -/

theorem Bindings.evaluate_eq_unbound {b : Bindings} {name x : String}
    (h : b.evaluate name = .error (.unbound x)) : x = name ∧ b.contains name = false := by
  rw [contains_eq_isSome_get?]
  unfold evaluate at h
  split at h
  · cases h
  · rename_i hname
    simp only [Except.error.injEq, EvalError.unbound.injEq] at h
    exact ⟨h.symm, by rw [hname]; rfl⟩

theorem Bindings.contains_of_evaluate {b : Bindings} {name : String} {v : Float}
    (h : b.evaluate name = .ok v) : b.contains name = true := by
  rw [contains_eq_isSome_get?]
  unfold evaluate at h
  split at h
  · rename_i y hname
    rw [hname]
    rfl
  · cases h

theorem Literal.evaluate_ne_unbound (f : Literal.Format) (text x : String) :
    Literal.evaluate f text ≠ .error (.unbound x) := by
  unfold Literal.evaluate
  split <;> simp

theorem Operator.evaluate_ne_unbound (op : Operator) (y z : Float) (x : String) :
    op.evaluate y z ≠ .error (.unbound x) := by
  intro h
  cases Operator.eq_of_evaluate_error h

namespace Tree

variable {b b' : Bindings} {t : Tree} {x : String}

theorem demand_ne_unbound (t : Tree) {e : EvalError} (he : ∀ x, e ≠ .unbound x) (x : String) :
    t.demand e ≠ .error (.unbound x) := by
  cases t with
  | absent => exact fun h => he x (Except.error.inj h)
  | node => exact fun h => nomatch h

/-- An evaluation looks up no more than the variables of the tree. -/
theorem evaluate_congr (h : ∀ x ∈ t.names, b.get? x = b'.get? x) :
    t.evaluate b = t.evaluate b' := by
  induction t with
  | absent => rfl
  | node kind text left right ihl ihr =>
    cases kind with
    | literal | invalid | error => rfl
    | name =>
      have hname : b.get? text = b'.get? text := h text (List.mem_singleton_self _)
      rw [evaluate, evaluate, Bindings.evaluate, Bindings.evaluate, hname]
    | operator op =>
      have hl := ihl fun x hx => h x (List.mem_append_left _ hx)
      have hr := ihr fun x hx => h x (List.mem_append_right _ hx)
      rw [evaluate, evaluate, hl, hr]
    | function f =>
      have ha := ihl fun x hx => h x (List.mem_append_left _ hx)
      rw [evaluate, evaluate, ha]

/-- An evaluation that gives a value has found all variables. -/
theorem contains_of_evaluate (ht : t.IsTrim) {v : Float} (h : t.evaluate b = .ok v) :
    ∀ x ∈ t.names, b.contains x = true := by
  induction t generalizing v with
  | absent => exact List.forall_mem_nil _
  | node kind text left right ihl ihr =>
    cases kind with
    | literal | invalid | error => exact List.forall_mem_nil _
    | name => exact List.forall_mem_singleton.mpr (Bindings.contains_of_evaluate h)
    | operator op =>
      rw [evaluate] at h
      obtain ⟨_, -, h⟩ := Except.bind_eq_ok.mp h
      obtain ⟨_, -, h⟩ := Except.bind_eq_ok.mp h
      obtain ⟨y, hy, h⟩ := Except.bind_eq_ok.mp h
      obtain ⟨z, hz, -⟩ := Except.bind_eq_ok.mp h
      exact List.forall_mem_append.mpr ⟨ihl ht.1 hy, ihr ht.2 hz⟩
    | function f =>
      obtain ⟨htrim, rfl⟩ := ht
      rw [evaluate] at h
      obtain ⟨_, -, h⟩ := Except.bind_eq_ok.mp h
      obtain ⟨y, hy, -⟩ := Except.bind_eq_ok.mp h
      exact List.forall_mem_append.mpr ⟨ihl htrim hy, List.forall_mem_nil _⟩

/-- The variable that an evaluation reports is the first one that is not bound. -/
theorem find?_names_of_unbound (ht : t.IsTrim) (h : t.evaluate b = .error (.unbound x)) :
    t.names.find? (fun name => !b.contains name) = some x := by
  induction t with
  | absent => cases h
  | node kind text left right ihl ihr =>
    cases kind with
    | literal f => exact absurd h (Literal.evaluate_ne_unbound f text x)
    | name =>
      obtain ⟨rfl, hname⟩ := Bindings.evaluate_eq_unbound h
      simp [names, hname]
    | operator op =>
      rw [evaluate] at h
      rcases Except.bind_eq_error.mp h with h | ⟨_, -, h⟩
      · exact absurd h (demand_ne_unbound left (by simp) x)
      rcases Except.bind_eq_error.mp h with h | ⟨_, -, h⟩
      · exact absurd h (demand_ne_unbound right (by simp) x)
      rw [names, List.find?_append]
      rcases Except.bind_eq_error.mp h with hl | ⟨y, hy, h⟩
      · rw [ihl ht.1 hl, Option.some_or]
      -- the left operand has a value, so all of its variables are bound
      have hnone : left.names.find? (fun name => !b.contains name) = none := by
        simpa using contains_of_evaluate ht.1 hy
      rw [hnone, Option.none_or]
      rcases Except.bind_eq_error.mp h with hr | ⟨z, -, h⟩
      · exact ihr ht.2 hr
      · exact absurd h (op.evaluate_ne_unbound y z x)
    | function f =>
      rw [evaluate] at h
      rcases Except.bind_eq_error.mp h with h | ⟨_, -, h⟩
      · exact absurd h (demand_ne_unbound left (by simp) x)
      rcases Except.bind_eq_error.mp h with ha | ⟨y, -, h⟩
      · rw [names, List.find?_append, ihl ht.1 ha, Option.some_or]
      · cases h
    | invalid | error => cases h

/-- Folding looks nothing up. -/
theorem fold_ne_unbound (t : Tree) (x : String) : t.fold ≠ .error (.unbound x) := by
  intro h
  induction t with
  | absent => cases h
  | node kind text left right ihl ihr =>
    cases kind with
    | literal f => exact Literal.evaluate_ne_unbound f text x (Except.map_eq_error.mp h)
    | name | invalid | error => cases h
    | operator op =>
      rw [fold] at h
      rcases Except.bind_eq_error.mp h with h | ⟨_, -, h⟩
      · exact demand_ne_unbound left (by simp) x h
      rcases Except.bind_eq_error.mp h with h | ⟨_, -, h⟩
      · exact demand_ne_unbound right (by simp) x h
      rcases Except.bind_eq_error.mp h with h | ⟨l, -, h⟩
      · exact ihl h
      rcases Except.bind_eq_error.mp h with h | ⟨r, -, h⟩
      · exact ihr h
      unfold Folded.ofOperator at h
      split at h
      · exact op.evaluate_ne_unbound _ _ x (Except.map_eq_error.mp h)
      · cases h
    | function f =>
      rw [fold] at h
      rcases Except.bind_eq_error.mp h with h | ⟨_, -, h⟩
      · exact demand_ne_unbound left (by simp) x h
      rcases Except.bind_eq_error.mp h with h | ⟨y, -, h⟩
      · exact ihl h
      · cases h

end Tree

/-! ## Results -/

namespace Session

variable {folding : Bool} {b b' : Bindings} {p : Parsed} {s : Session}

/-- Bindings that agree on the variables of the tree give the same result. -/
theorem outcome_congr (h : ∀ x ∈ p.tree.names, b.get? x = b'.get? x) :
    outcome folding b p = outcome folding b' p := by
  have hvalue := Tree.evaluate_congr h
  unfold outcome
  split_ifs
  · cases hform : foldForm folding (.parsed p.tree) with
    | error e => rfl
    | ok form =>
      show (form.evaluate b).mapError _ = (form.evaluate b').mapError _
      rw [evaluate_of_foldForm hform, evaluate_of_foldForm hform, hvalue]
  · rfl

/-- A variable that is reported as unbound was looked up in the tree. -/
theorem evaluate_of_outcome {failures : List Failure} {x : String} (hp : p.diagnostics = [])
    (h : outcome folding b p = .error failures) (hx : .evaluation (.unbound x) ∈ failures) :
    p.tree.evaluate b = .error (.unbound x) := by
  rw [outcome, hp] at h
  cases hform : foldForm folding (.parsed p.tree) with
  | error e =>
    simp only [hform, List.isEmpty_nil, if_true, Except.error.injEq] at h
    rw [← h, List.mem_singleton, Failure.evaluation.injEq] at hx
    exact absurd (hx ▸ (fold_of_foldForm_error hform).2) (p.tree.fold_ne_unbound x)
  | ok form =>
    simp only [hform, List.isEmpty_nil, if_true] at h
    rw [← evaluate_of_foldForm hform]
    cases hvalue : form.evaluate b with
    | ok v =>
      rw [hvalue] at h
      cases h
    | error e =>
      rw [hvalue] at h
      obtain rfl := Except.error.inj h
      rw [List.mem_singleton, Failure.evaluation.injEq] at hx
      rw [hx]

/-- The first of some names with a property is the first one among them without
    repetitions. -/
theorem find?_eraseDups (names : List String) (P : String → Bool) :
    names.eraseDups.find? P = names.find? P := by
  match names with
  | [] => rfl
  | name :: names =>
    rw [List.eraseDups_cons, List.find?_cons, List.find?_cons,
      find?_eraseDups (names.filter fun other => !other == name), List.find?_filter]
    cases hname : P name with
    | true => rfl
    | false =>
      have hfilter : (fun other => decide ((!other == name) = true ∧ P other = true)) = P := by
        funext other
        by_cases hother : other = name <;> simp [hother, hname]
      rw [hfilter]
termination_by names.length
decreasing_by
  have := List.length_filter_le (fun other => !other == name) names
  simp only [List.length_cons]
  omega

/-- After any history of calls, with any bindings, folding and streaming, if the parser
    reported nothing: the variables are those of the tokens, each where it first occurs.
    Bindings that agree on them give the same result, and a result reports as unbound only
    the first of them that is not bound, hence none if all are. -/
theorem result_governed_by_names (r : Reading) (expression : String) (folding : Bool)
    (b : Bindings) (history : List Call) :
    let s := ({ new r expression with folding := folding, bindings := b } : Session).after history
    (s.reading.parse s.expression).diagnostics = [] →
      s.names.1 = (Token.names (tokenize s.reading.caret s.expression)).eraseDups ∧
      (∀ b b', (∀ x ∈ s.names.1, b.get? x = b'.get? x) →
        { s with bindings := b }.result.1 = { s with bindings := b' }.result.1) ∧
      (∀ failures x, s.result.1 = .error failures → .evaluation (.unbound x) ∈ failures →
        s.names.1.find? (fun name => !s.bindings.contains name) = some x) ∧
      ((∀ name ∈ s.names.1, s.bindings.contains name = true) →
        ∀ failures x, s.result.1 = .error failures → .evaluation (.unbound x) ∉ failures) := by
  intro s hp
  have hs : s.IsFaithful := isFaithful_after (isFaithful_of_none rfl) history
  rw [Reading.parse_eq] at hp
  obtain ⟨hnames, htrim⟩ := names_of_parse hp
  rw [upToFinish_tokenize] at hnames
  have hlist : s.names.1 = s.parsed.tree.names.eraseDups := names_of_isFaithful hs
  have hfirst : ∀ failures x, s.result.1 = .error failures → .evaluation (.unbound x) ∈ failures →
      s.names.1.find? (fun name => !s.bindings.contains name) = some x := by
    intro failures x hresult hx
    rw [(result_of_isFaithful hs).1] at hresult
    rw [hlist, find?_eraseDups]
    exact Tree.find?_names_of_unbound htrim (evaluate_of_outcome hp hresult hx)
  refine ⟨?_, fun b b' h => ?_, hfirst, fun hall failures x hresult hx => ?_⟩
  · rw [hlist, parsed, hnames]
  · rw [hlist] at h
    have hb (b : Bindings) : { s with bindings := b }.IsFaithful := hs.congr rfl rfl id
    rw [(result_of_isFaithful (hb b)).1, (result_of_isFaithful (hb b')).1]
    exact outcome_congr fun x hx => h x (List.mem_eraseDups.mpr hx)
  · have hfound := List.find?_some (hfirst failures x hresult hx)
    have hmem := List.mem_of_find?_eq_some (hfirst failures x hresult hx)
    simp [hall x hmem] at hfound

/-- With folding, and only one of two variables bound. -/
theorem result_governed_by_names_difference :
    let s := (new .default "b - a * b").after [.enableFolding, .bind "b" 2.5]
    (s.reading.parse s.expression).diagnostics = [] ∧ s.names.1 = ["b", "a"] ∧
      ∀ failures x, s.result.1 = .error failures → .evaluation (.unbound x) ∈ failures →
        x = "a" := by
  intro s
  have hp : (s.reading.parse s.expression).diagnostics = [] := by decide +kernel
  obtain ⟨hnames, -, hfirst, -⟩ := result_governed_by_names .default "b - a * b" false ∅
    [.enableFolding, .bind "b" 2.5] hp
  have hlist : s.names.1 = ["b", "a"] := hnames.trans (by decide +kernel)
  refine ⟨hp, hlist, fun failures x hresult hx => ?_⟩
  have hfound : s.names.1.find? (fun name => !s.bindings.contains name) = some x :=
    hfirst failures x hresult hx
  have hb : s.bindings.contains "b" = true := by
    rw [Bindings.contains_eq_isSome_get?]
    show (((∅ : Bindings).insert "b" 2.5).get? "b").isSome = true
    rw [Bindings.get?_insert]
    rfl
  rw [hlist, List.find?_cons, hb] at hfound
  exact (List.mem_singleton.mp (List.mem_of_find?_eq_some hfound))

end Session

end Reckoner
