import Reckoner.Proofs.Literal
import Reckoner.Proofs.RoundTrip
import Reckoner.Proofs.Folding
import Reckoner.Proofs.Parser.Accounting
import Reckoner.Proofs.Token.Language

/-!
# How expressions fail

An expression that is read without a report has a complete tree: the lexer spells its
literals and names, and the parser leaves no operand out. So the only errors left to
evaluation are those of the values, and of literals that denote no number.

* `Grammar.Derives.isComplete`: derivations of spelled tokens have complete trees, so that
  sources without a report have them (`isComplete_of_parse`);
* `EvalError.IsOrdinary`: the errors that complete trees have, in evaluation
  (`Tree.IsComplete.isOrdinary_of_evaluate`) and in folding
  (`Tree.IsComplete.isOrdinary_of_fold`);
* `result_fails_ordinarily`: the results of a session, whatever it was called for before.
-/

namespace Reckoner

open Grammar

/-! ## Sources without a report -/

namespace Grammar

variable {caret : Caret} {t : Token}

/-- A token that is an operand has a complete leaf. -/
theorem isComplete_ofToken? (ht : (Item.ofToken t).IsSpelled caret) {x : Tree}
    (hx : Tree.ofToken? t = some x) : x.IsComplete caret := by
  obtain ⟨kind, text, span⟩ := t
  cases kind with
  | literal f =>
    obtain rfl := Option.some.inj hx
    exact .literal ht.1 ht.2
  | name =>
    obtain rfl := Option.some.inj hx
    exact .name ht.1 ht.2
  | _ => cases hx

theorem caret_of_operator {op : Operator} (ht : (Item.ofToken t).IsSpelled caret)
    (hk : t.kind = .operator op) : op = .xor → caret = .xor := by
  obtain ⟨kind, text, span⟩ := t
  obtain rfl : kind = .operator op := hk
  exact ht.2

/-- A derivation of spelled tokens has a complete tree. -/
theorem Derives.isComplete {c : Category} {n : Nat} {ts : List Token} {x : Tree}
    (h : Derives c n ts x) (hts : ∀ t ∈ ts, (Item.ofToken t).IsSpelled caret) :
    x.IsComplete caret := by
  induction h with
  | operand hx => exact isComplete_ofToken? (hts _ (by simp)) hx
  | group _ _ _ ih => exact ih fun t ht => hts t (by simp [ht])
  | call _ _ _ ih => exact .call (ih fun t ht => hts t (by simp [ht]))
  | atom _ ih | term _ ih => exact ih hts
  | tight _ ht _ _ ihx ihy | loose _ ht _ _ ihx ihy =>
    exact .binary (caret_of_operator (hts _ (by simp)) ht) (ihx fun t ht => hts t (by simp [ht]))
      (ihy fun t ht => hts t (by simp [ht]))

end Grammar

/-- A source without a report has no tree at all, or a complete one. -/
theorem isComplete_of_parse {limit : Nat} {caret : Caret} {source : String}
    (h : (parse limit (tokenize caret source)).diagnostics = []) :
    (parse limit (tokenize caret source)).tree = .absent ∨
      (parse limit (tokenize caret source)).tree.IsComplete caret := by
  have hstray : ∀ t ∈ tokenize caret source, t.kind.isStray = false := by
    intro t ht
    by_contra hk
    rw [Bool.not_eq_false] at hk
    refine diagnostics_ne_nil_of_malformed (.inl ⟨t, ?_, hk⟩) h
    rwa [upToFinish_tokenize]
  have hspelled := ((Lexer.ofString caret source).admits_tokens hstray).admissible.spelled
  rcases derives_of_parse h with hnil | ⟨n, x, hd, hn, hx⟩
  · left
    rw [parse_nil hnil]
  · right
    rw [parse_of_derives hd hn hx]
    rw [upToFinish_tokenize] at hd
    exact hd.isComplete fun t ht => hspelled _ (List.mem_map_of_mem ht)

/-! ## Errors of complete trees -/

/-- The errors that do not lie in the shape of an expression. -/
def EvalError.IsOrdinary : EvalError → Prop
  | unbound _ | divisionByZero => True
  | badLiteral format _ => format = .hexadecimal ∨ format = .binary ∨ format = .power
  | missingLeft | missingRight | invalidNode _ => False

theorem EvalError.IsLate.isOrdinary {b : Bindings} {e : EvalError} (h : e.IsLate b) :
    e.IsOrdinary := by
  rcases h with rfl | ⟨name, rfl, -⟩ <;> trivial

/-- Integers and decimals that are spelled as such are not at fault. -/
theorem Literal.isOrdinary_of_evaluate {f : Literal.Format} {text : String} {e : EvalError}
    (hs : Literal.Spells f text.toList) (h : Literal.evaluate f text = .error e) :
    e.IsOrdinary := by
  unfold Literal.evaluate at h
  split at h
  · cases h
  · rename_i hnone
    obtain rfl := Except.error.inj h
    have hno : ¬ (f = .integer ∨ f = .decimal) := by
      intro hf
      have := Literal.isSome_value?_of_spells hf hs
      simp [hnone] at this
    cases f <;> simp_all [EvalError.IsOrdinary]

namespace Tree

variable {caret : Caret} {t : Tree} {e : EvalError}

theorem IsComplete.ne_absent (h : t.IsComplete caret) : t ≠ .absent := by
  cases h <;> exact Tree.noConfusion

theorem fold_binary {x y : Tree} (op : Operator) (hx : x ≠ .absent) (hy : y ≠ .absent) :
    (binary op x y).fold =
      (do let l ← x.fold; let r ← y.fold; Folded.ofOperator op l r) := by
  rw [binary, fold, demand_eq_ok hx, demand_eq_ok hy]
  rfl

theorem fold_call {x : Tree} (f : Function) (hx : x ≠ .absent) :
    (call f x).fold = (do let y ← x.fold; return Folded.ofFunction f y) := by
  rw [call, fold, demand_eq_ok hx]
  rfl

/-- Folding a complete tree fails only in its literals, and where it divides by zero. -/
theorem IsComplete.isOrdinary_of_fold (ht : t.IsComplete caret) (h : t.fold = .error e) :
    e.IsOrdinary := by
  induction ht generalizing e with
  | literal hs _ => exact Literal.isOrdinary_of_evaluate hs (Except.map_eq_error.mp h)
  | name => cases h
  | @binary op x y _ hx hy ihx ihy =>
    rw [fold_binary op hx.ne_absent hy.ne_absent] at h
    rcases Except.bind_eq_error.mp h with hl | ⟨l, -, h⟩
    · exact ihx hl
    rcases Except.bind_eq_error.mp h with hr | ⟨r, -, h⟩
    · exact ihy hr
    -- both operands are folded, so what fails is the operator
    unfold Folded.ofOperator at h
    split at h
    · rw [Operator.eq_of_evaluate_error (Except.map_eq_error.mp h)]
      trivial
    · cases h
  | @call f x hx ih =>
    rw [fold_call f hx.ne_absent] at h
    rcases Except.bind_eq_error.mp h with ha | ⟨y, -, h⟩
    · exact ih ha
    · cases h

/-- So does evaluation, except that it may not find a variable. -/
theorem IsComplete.isOrdinary_of_evaluate (ht : t.IsComplete caret) {b : Bindings}
    (h : t.evaluate b = .error e) : e.IsOrdinary := by
  cases hf : t.fold with
  | ok o =>
    rw [← evaluate_of_fold b hf] at h
    exact (Folded.isLate_of_evaluate_error h).isOrdinary
  | error e' =>
    obtain ⟨e'', h', hlate⟩ := evaluate_of_fold_error b hf
    obtain rfl : e'' = e := Except.error.inj (h'.symm.trans h)
    rcases hlate with rfl | hlate
    · exact ht.isOrdinary_of_fold hf
    · exact hlate.isOrdinary

end Tree

/-! ## Results -/

/-- A tree that is absent or complete has ordinary errors only. -/
theorem isOrdinary_of_error {caret : Caret} {t : Tree} (ht : t = .absent ∨ t.IsComplete caret) :
    (∀ b e, t.evaluate b = .error e → e.IsOrdinary) ∧ ∀ e, t.fold = .error e → e.IsOrdinary := by
  rcases ht with rfl | ht
  · constructor <;> intros <;> contradiction
  · exact ⟨fun b e h => ht.isOrdinary_of_evaluate h, fun e h => ht.isOrdinary_of_fold h⟩

namespace Session

/-- The form that is kept of such a tree fails once, with an ordinary error. -/
theorem isOrdinary_of_outcome {folding : Bool} {b : Bindings} {p : Parsed} {caret : Caret}
    (hp : p.diagnostics = []) (ht : p.tree = .absent ∨ p.tree.IsComplete caret)
    {failures : List Failure} (h : outcome folding b p = .error failures) :
    ∃ e, failures = [.evaluation e] ∧ e.IsOrdinary := by
  obtain ⟨hevaluate, hfold⟩ := isOrdinary_of_error ht
  rw [outcome, hp] at h
  cases hform : foldForm folding (.parsed p.tree) with
  | error e =>
    simp only [hform, List.isEmpty_nil, if_true] at h
    exact ⟨e, (Except.error.inj h).symm, hfold e (fold_of_foldForm_error hform).2⟩
  | ok form =>
    simp only [hform, List.isEmpty_nil, if_true] at h
    cases hvalue : form.evaluate b with
    | ok v =>
      rw [hvalue] at h
      cases h
    | error e =>
      rw [hvalue] at h
      refine ⟨e, (Except.error.inj h).symm, ?_⟩
      rcases form_of_foldForm hform with rfl | ⟨-, f, -, rfl⟩
      · exact hevaluate b e hvalue
      · exact (Folded.isLate_of_evaluate_error hvalue).isOrdinary

/-- After any history of calls, with any bindings, folding and streaming: there is a value
    only if the parser reported nothing, and what it reported is the result, all of it and
    in order. Otherwise the result fails with one error, which is ordinary; neither
    evaluation nor folding has another one. -/
theorem result_fails_ordinarily (r : Reading) (expression : String) (folding : Bool)
    (b : Bindings) (history : List Call) :
    let s := ({ new r expression with folding := folding, bindings := b } : Session).after history
    let p := s.reading.parse s.expression
    (∀ v, s.result.1 = .ok v → p.diagnostics = []) ∧
    (p.diagnostics ≠ [] → s.result.1 = .error (p.diagnostics.map .parsing)) ∧
    (p.diagnostics = [] → ∀ failures, s.result.1 = .error failures →
      ∃ e, failures = [.evaluation e] ∧ e.IsOrdinary) ∧
    (p.diagnostics = [] → (∀ b e, p.tree.evaluate b = .error e → e.IsOrdinary) ∧
      ∀ e, p.tree.fold = .error e → e.IsOrdinary) := by
  intro s p
  have hs : s.IsFaithful := isFaithful_after (isFaithful_of_none rfl) history
  have hp : p = s.parsed := Reading.parse_eq s.reading s.expression
  have hresult : s.result.1 = outcome s.folding s.bindings p := by
    rw [(result_of_isFaithful hs).1, hp]
  have hreported (h : p.diagnostics ≠ []) :
      s.result.1 = .error (p.diagnostics.map .parsing) := by
    rw [hresult, outcome, if_neg (by simpa using h)]
  have htree (h : p.diagnostics = []) : p.tree = .absent ∨ p.tree.IsComplete s.reading.caret := by
    rw [hp] at h ⊢
    exact isComplete_of_parse h
  refine ⟨fun v hv => ?_, hreported, fun h failures hf => ?_, fun h => ?_⟩
  · by_contra h
    rw [hreported h] at hv
    cases hv
  · exact isOrdinary_of_outcome h (htree h) (hresult.symm.trans hf)
  · exact isOrdinary_of_error (htree h)

end Session

end Reckoner
