import Reckoner.Folding
import Mathlib.Tactic.Common

/-!
# Folding and evaluation

Folding computes in advance, and evaluation computes late. Both go through the tree from
left to right, but folding leaves variables out, so that an error behind a variable is
found earlier than evaluation would find it.

* `Tree.evaluate_of_fold`: a folded expression has the value, or the error, of the tree;
* `EvalError.IsLate`: the errors that only evaluation can meet first;
* `Tree.evaluate_of_fold_error`: where folding fails evaluation fails, with the same error
  or a late one;
* `Tree.fold_eq_of_hasNames`: without variables folding is evaluation;
* `fold_preserves_evaluation`: all of it.
-/

namespace Reckoner

/-! ## Sequences of computations -/

theorem Except.bind_eq_ok {α β ε : Type} {x : Except ε α} {f : α → Except ε β} {z : β} :
    x >>= f = .ok z ↔ ∃ y, x = .ok y ∧ f y = .ok z := by
  cases x with
  | ok y => simp [bind, Except.bind]
  | error e => simp [bind, Except.bind]

theorem Except.bind_eq_error {α β ε : Type} {x : Except ε α} {f : α → Except ε β} {e : ε} :
    x >>= f = .error e ↔ x = .error e ∨ ∃ y, x = .ok y ∧ f y = .error e := by
  cases x with
  | ok y => simp [bind, Except.bind]
  | error e => simp [bind, Except.bind]

theorem Except.map_eq_ok {α β ε : Type} {x : Except ε α} {f : α → β} {z : β} :
    x.map f = .ok z ↔ ∃ y, x = .ok y ∧ f y = z := by
  cases x <;> simp [Except.map]

theorem Except.map_eq_error {α β ε : Type} {x : Except ε α} {f : α → β} {e : ε} :
    x.map f = .error e ↔ x = .error e := by
  cases x <;> simp [Except.map]

/-! ## Values of folded expressions -/

namespace Folded

theorem evaluate_ofOperator {op : Operator} {l r o : Folded} (b : Bindings)
    (h : ofOperator op l r = .ok o) :
    o.evaluate b = (do let x ← l.evaluate b; let y ← r.evaluate b; op.evaluate x y) := by
  unfold ofOperator at h
  split at h
  · obtain ⟨z, hz, rfl⟩ := Except.map_eq_ok.mp h
    exact hz.symm
  · obtain rfl := Except.ok.inj h
    rfl

theorem evaluate_ofFunction (f : Function) (x : Folded) (b : Bindings) :
    (ofFunction f x).evaluate b = (do let y ← x.evaluate b; return f.apply y) := by
  cases x <;> rfl

end Folded

namespace Tree

/-- A folded expression has the value of the tree, or its error. -/
theorem evaluate_of_fold (b : Bindings) {t : Tree} {o : Folded} (h : t.fold = .ok o) :
    o.evaluate b = t.evaluate b := by
  induction t generalizing o with
  | absent =>
    obtain rfl := Except.ok.inj h
    rfl
  | node kind text left right ihl ihr =>
    cases kind with
    | literal format =>
      obtain ⟨v, hv, rfl⟩ := Except.map_eq_ok.mp h
      exact hv.symm
    | name =>
      obtain rfl := Except.ok.inj h
      rfl
    | operator op =>
      rw [fold] at h
      obtain ⟨_, hl, h⟩ := Except.bind_eq_ok.mp h
      obtain ⟨_, hr, h⟩ := Except.bind_eq_ok.mp h
      obtain ⟨l, hfl, h⟩ := Except.bind_eq_ok.mp h
      obtain ⟨r, hfr, h⟩ := Except.bind_eq_ok.mp h
      rw [evaluate, hl, hr, Folded.evaluate_ofOperator b h, ihl hfl, ihr hfr]
      rfl
    | function f =>
      rw [fold] at h
      obtain ⟨_, ha, h⟩ := Except.bind_eq_ok.mp h
      obtain ⟨x, hfx, h⟩ := Except.bind_eq_ok.mp h
      obtain rfl := Except.ok.inj h
      rw [evaluate, ha, Folded.evaluate_ofFunction, ihl hfx]
      rfl
    | invalid | error => simp [fold] at h

end Tree

/-! ## Errors -/

/-- The errors that come from the values of variables. -/
def EvalError.IsLate (b : Bindings) (e : EvalError) : Prop :=
  e = .divisionByZero ∨ ∃ name, e = .unbound name ∧ b.get? name = none

theorem Operator.eq_of_evaluate_error {op : Operator} {x y : Float} {e : EvalError}
    (h : op.evaluate x y = .error e) : e = .divisionByZero := by
  unfold Operator.evaluate at h
  split at h
  · cases h
  · exact (Except.error.inj h).symm

theorem Bindings.isLate_of_evaluate_error {b : Bindings} {name : String} {e : EvalError}
    (h : b.evaluate name = .error e) : e.IsLate b := by
  unfold Bindings.evaluate at h
  split at h
  · cases h
  · rename_i hname
    exact .inr ⟨name, (Except.error.inj h).symm, hname⟩

/-- All other errors are found by folding. -/
theorem Folded.isLate_of_evaluate_error {b : Bindings} {f : Folded} {e : EvalError}
    (h : f.evaluate b = .error e) : e.IsLate b := by
  induction f with
  | value x => cases h
  | name text => exact Bindings.isLate_of_evaluate_error h
  | operator op left right ihl ihr =>
    rcases Except.bind_eq_error.mp h with hl | ⟨x, -, h⟩
    · exact ihl hl
    rcases Except.bind_eq_error.mp h with hr | ⟨y, -, h⟩
    · exact ihr hr
    · exact .inl (Operator.eq_of_evaluate_error h)
  | function f argument ih =>
    rcases Except.bind_eq_error.mp h with ha | ⟨x, -, h⟩
    · exact ih ha
    · cases h

namespace Folded

theorem evaluate_of_ofOperator_error {op : Operator} {l r : Folded} {e : EvalError}
    (b : Bindings) (h : ofOperator op l r = .error e) :
    (do let x ← l.evaluate b; let y ← r.evaluate b; op.evaluate x y) = .error e := by
  unfold ofOperator at h
  split at h
  · exact Except.map_eq_error.mp h
  · cases h

end Folded

namespace Tree

/-- Where folding fails evaluation fails too: with the same error, or with a late one that
    it meets first. -/
theorem evaluate_of_fold_error (b : Bindings) {t : Tree} {e : EvalError}
    (h : t.fold = .error e) : ∃ e', t.evaluate b = .error e' ∧ (e' = e ∨ e'.IsLate b) := by
  induction t generalizing e with
  | absent => cases h
  | node kind text left right ihl ihr =>
    cases kind with
    | literal format => exact ⟨e, Except.map_eq_error.mp h, .inl rfl⟩
    | name => cases h
    | operator op =>
      rw [fold] at h
      rw [evaluate]
      rcases Except.bind_eq_error.mp h with hl | ⟨_, hl, h⟩
      · exact ⟨e, by rw [hl]; rfl, .inl rfl⟩
      rcases Except.bind_eq_error.mp h with hr | ⟨_, hr, h⟩
      · exact ⟨e, by rw [hl, hr]; rfl, .inl rfl⟩
      rw [hl, hr]
      rcases Except.bind_eq_error.mp h with hfl | ⟨l, hfl, h⟩
      · obtain ⟨e', he', hlate⟩ := ihl hfl
        exact ⟨e', by rw [he']; rfl, hlate⟩
      -- the left operand is folded, but its variables come before the errors to the right
      cases hx : left.evaluate b with
      | error e' =>
        refine ⟨e', rfl, .inr ?_⟩
        rw [← evaluate_of_fold b hfl] at hx
        exact Folded.isLate_of_evaluate_error hx
      | ok x =>
        rcases Except.bind_eq_error.mp h with hfr | ⟨r, hfr, h⟩
        · obtain ⟨e', he', hlate⟩ := ihr hfr
          exact ⟨e', by rw [he']; rfl, hlate⟩
        · have hop := Folded.evaluate_of_ofOperator_error b h
          rw [evaluate_of_fold b hfl, evaluate_of_fold b hfr, hx] at hop
          exact ⟨e, hop, .inl rfl⟩
    | function f =>
      rw [fold] at h
      rw [evaluate]
      rcases Except.bind_eq_error.mp h with ha | ⟨_, ha, h⟩
      · exact ⟨e, by rw [ha]; rfl, .inl rfl⟩
      rw [ha]
      rcases Except.bind_eq_error.mp h with hfx | ⟨x, -, h⟩
      · obtain ⟨e', he', hlate⟩ := ihl hfx
        exact ⟨e', by rw [he']; rfl, hlate⟩
      · cases h
    | invalid | error =>
      obtain rfl := Except.error.inj h
      exact ⟨_, rfl, .inl rfl⟩

/-! ## Absent expressions -/

theorem demand_eq_ok {t : Tree} (h : t ≠ .absent) (e : EvalError) : t.demand e = .ok () := by
  cases t with
  | absent => exact absurd rfl h
  | node => rfl

theorem ne_absent_of_demand {t : Tree} {e : EvalError} (h : t.demand e = .ok ()) :
    t ≠ .absent := by
  rintro rfl
  cases h

/-- Where there is no expression, nothing is folded. -/
theorem fold_of_fold?_ok {t : Tree} {f : Folded} (h : t.fold? = .ok (some f)) :
    t.fold = .ok f := by
  cases t with
  | absent => cases h
  | node =>
    obtain ⟨f', hf, hsome⟩ := Except.map_eq_ok.mp h
    rw [hf, Option.some.inj hsome]

theorem fold_of_fold?_error {t : Tree} {e : EvalError} (h : t.fold? = .error e) :
    t.fold = .error e := by
  cases t with
  | absent => cases h
  | node => exact Except.map_eq_error.mp h

/-! ## Trees without variables -/

/-- Without variables folding is evaluation. -/
theorem fold_eq_of_hasNames (b : Bindings) {t : Tree} (h : t.hasNames = false) :
    t.fold = (t.evaluate b).map .value := by
  induction t with
  | absent => rfl
  | node kind text left right ihl ihr =>
    simp only [hasNames, Bool.or_eq_false_iff, decide_eq_false_iff_not] at h
    obtain ⟨⟨hkind, hl⟩, hr⟩ := h
    cases kind with
    | literal format => rfl
    | name => exact absurd rfl hkind
    | operator op =>
      rw [fold, evaluate, ihl hl, ihr hr]
      cases left.demand .missingLeft with
      | error e => rfl
      | ok =>
        cases right.demand .missingRight with
        | error e => rfl
        | ok =>
          cases left.evaluate b with
          | error e => rfl
          | ok x => cases right.evaluate b <;> rfl
    | function f =>
      rw [fold, evaluate, ihl hl]
      cases left.demand .missingLeft with
      | error e => rfl
      | ok => cases left.evaluate b <;> rfl
    | invalid | error => rfl

end Tree

/-! ## Meaning -/

/-- Folding keeps the meaning of every tree, of malformed ones too. What folds has the
    value or the error of the tree under all bindings. What does not fold has no value
    under any; evaluation gives the error of the folding, or a division by zero or an
    unbound variable that it meets before. Without variables both agree in all. -/
theorem fold_preserves_evaluation (t : Tree) (b : Bindings) :
    (∀ o, t.fold = .ok o → o.evaluate b = t.evaluate b) ∧
    (∀ e, t.fold = .error e → ∃ e', t.evaluate b = .error e' ∧
      (e' = e ∨ e' = .divisionByZero ∨ ∃ name, e' = .unbound name ∧ b.get? name = none)) ∧
    (t.hasNames = false →
      (∀ v, t.fold = .ok (.value v) ↔ t.evaluate b = .ok v) ∧
      (∀ e, t.fold = .error e ↔ t.evaluate b = .error e)) := by
  refine ⟨fun o h => Tree.evaluate_of_fold b h, fun e h => Tree.evaluate_of_fold_error b h, ?_⟩
  intro h
  rw [Tree.fold_eq_of_hasNames b h]
  constructor
  · intro v
    simp [Except.map_eq_ok]
  · intro e
    exact Except.map_eq_error

end Reckoner
