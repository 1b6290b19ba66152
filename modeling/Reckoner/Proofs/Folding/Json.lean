import Reckoner.Folding.Json
import Reckoner.Proofs.Json.Drift
import Reckoner.Proofs.Tree.Json

/-!
# Folded expressions read back from JSON

A folded expression is written and read back with the same shape, names and operators,
unless too many containers would be open at once. Its values are read back from their
numerals: those with short numerals as they are, and others with a small error.

* `Folded.openings`: how many containers are open at once;
* `Folded.Corresponds`: expressions that differ in their values only;
* `Folded.ofJson?_toJson`: what is read back within the limit, and that nothing is read back
  beyond it;
* `Folded.json_reread`: what becomes of the values;
* `Folded.json_reread_neighbour`: a value that changes.
-/

namespace Reckoner

/-! ## Values -/

namespace Json

/-- The double that is read back for a double, if its numeral can be read back. -/
def reread? (x : Float) : Option Float := (ofFloat x).toFloat?

/-- The numeral of a finite double has few digits. -/
def HasShortNumeral (x : Float) : Prop :=
  ∃ n, Numeral.ofFloat? Numeral.jsonStyle x = some n ∧ n.IsShort

variable {x : Float} {n : Numeral}

theorem isWellFormed_ofFloat (x : Float) : (ofFloat x).IsWellFormed := by
  unfold ofFloat
  split
  · rename_i h
    exact .number (Numeral.isWellFormed_ofFloat? h)
  · exact .null

theorem reread?_eq_value? (h : Numeral.ofFloat? Numeral.jsonStyle x = some n) :
    reread? x = n.value? := by
  rw [reread?, ofFloat, h]
  rfl

/-- What is not finite is written as `null`, and not read back. -/
theorem reread?_of_isFinite (h : x.isFinite = false) : reread? x = none := by
  rw [reread?, ofFloat, Numeral.ofFloat?_eq_none.mpr h]
  rfl

theorem reread?_of_hasShortNumeral (h : HasShortNumeral x) : reread? x = some x := by
  obtain ⟨n, hn, hshort⟩ := h
  rw [reread?_eq_value? hn, Numeral.value?_of_isShort hn hshort]

theorem exists_reread? (h : x.isFinite = true) : ∃ y, reread? x = some y ∧ IsClose x y := by
  cases hn : Numeral.ofFloat? Numeral.jsonStyle x with
  | none => rw [Numeral.ofFloat?_eq_none.mp hn] at h; cases h
  | some n =>
    rw [reread?_eq_value? hn]
    exact Numeral.exists_value? hn

end Json

namespace Folded

/-- How many containers are open at once: one around a value, and two for each other node on
    a path. -/
def openings : Folded → ℕ
  | value _ => 1
  | name _ => 2
  | operator _ left right => 2 + max left.openings right.openings
  | function _ argument => 2 + argument.openings

/-- The computed values from left to right. -/
def values : Folded → List Float
  | value x => [x]
  | name _ => []
  | operator _ left right => left.values ++ right.values
  | function _ argument => argument.values

/-- The expression with other values in place of its own, if there is one for each. -/
def mapValues? (g : Float → Option Float) : Folded → Option Folded
  | value x => (g x).map value
  | name text => some (name text)
  | operator op left right => do return operator op (← left.mapValues? g) (← right.mapValues? g)
  | function f argument => do return function f (← argument.mapValues? g)

/-- One expression is another with other values, each of them related to the one it is in place
    of. -/
inductive Corresponds (R : Float → Float → Prop) : Folded → Folded → Prop
  | value {x y : Float} (h : R x y) : Corresponds R (value x) (value y)
  | name (text : String) : Corresponds R (name text) (name text)
  | operator (op : Operator) {left left' right right' : Folded} (hl : Corresponds R left left')
      (hr : Corresponds R right right') :
      Corresponds R (operator op left right) (operator op left' right')
  | function (f : Function) {argument argument' : Folded} (h : Corresponds R argument argument') :
      Corresponds R (function f argument) (function f argument')

variable {f : Folded} {g : Float → Option Float} {R : Float → Float → Prop}

/-- There is such an expression if there is a related value for each value. -/
theorem exists_mapValues? (h : ∀ x ∈ f.values, ∃ y, g x = some y ∧ R x y) :
    ∃ f', f.mapValues? g = some f' ∧ f.Corresponds R f' := by
  induction f with
  | value x =>
    obtain ⟨y, hy, hR⟩ := h x (List.mem_singleton_self x)
    exact ⟨value y, by rw [mapValues?, hy, Option.map_some], .value hR⟩
  | name text => exact ⟨name text, rfl, .name text⟩
  | operator op left right ihl ihr =>
    simp only [values, List.mem_append, or_imp, forall_and] at h
    obtain ⟨left', hl, hleft⟩ := ihl h.1
    obtain ⟨right', hr, hright⟩ := ihr h.2
    refine ⟨operator op left' right', ?_, .operator op hleft hright⟩
    rw [mapValues?, hl, hr]
    rfl
  | function f argument ih =>
    obtain ⟨argument', ha, hargument⟩ := ih h
    refine ⟨function f argument', ?_, .function f hargument⟩
    rw [mapValues?, ha]
    rfl

/-- The expression stays as it is if and only if its values do. -/
theorem mapValues?_eq_self_iff : f.mapValues? g = some f ↔ ∀ x ∈ f.values, g x = some x := by
  induction f with
  | value x => simp [mapValues?, values]
  | name text => simp [mapValues?, values]
  | operator op left right ihl ihr =>
    simp [mapValues?, values, or_imp, forall_and, ← ihl, ← ihr, Option.bind_eq_some_iff]
  | function f argument ih => simp [mapValues?, values, ← ih, Option.bind_eq_some_iff]

/-- There is no expression if there is no other value for one of its own. -/
theorem mapValues?_eq_none_iff : f.mapValues? g = none ↔ ∃ x ∈ f.values, g x = none := by
  induction f with
  | value x => simp [mapValues?, values]
  | name text => simp [mapValues?, values]
  | operator op left right ihl ihr =>
    simp only [values, List.mem_append, or_and_right, exists_or, ← ihl, ← ihr, mapValues?]
    cases left.mapValues? g <;> cases right.mapValues? g <;> simp
  | function f argument ih =>
    simp only [values, ← ih, mapValues?]
    cases argument.mapValues? g <;> simp

/-! ## What is written -/

theorem isWellFormed_toJson (f : Folded) : f.toJson.IsWellFormed := by
  induction f with
  | value x => exact Tree.isWellFormed_ofVariant _ (Json.isWellFormed_ofFloat x)
  | name text =>
    exact Tree.isWellFormed_ofVariant _
      (Tree.isWellFormed_ofFields (by simpa using Tree.isWellFormed_ofString text))
  | operator op left right ihl ihr =>
    refine Tree.isWellFormed_ofVariant _ (Tree.isWellFormed_ofFields ?_)
    simpa using ⟨Tree.isWellFormed_ofString op.tag, ihl, ihr⟩
  | function f argument ih =>
    refine Tree.isWellFormed_ofVariant _ (Tree.isWellFormed_ofFields ?_)
    simpa using ⟨Tree.isWellFormed_ofString f.tag, ih⟩

/-! ## Reading what is written -/

theorem ofJson?_value (x : Float) (budget : ℕ) :
    ofJson? (budget + 1) (value x).toJson = (Json.reread? x).map value := by
  have hvalue : ofJson? (budget + 1) (value x).toJson =
      ((Json.ofFloat x).toFloat?).bind fun y => some (value y) := by
    cases budget <;> rfl
  rw [hvalue, Json.reread?, Option.map_eq_bind]
  rfl

/-- The expression of an operator, from what its fields say. -/
theorem ofJson?_operator (op : Operator) (left right : Json) (budget : ℕ) :
    ofJson? (budget + 2) (.ofVariant "Operator"
      (.ofFields [("op", .ofString op.tag), ("left", left), ("right", right)])) = (do
        let left ← ofJson? budget left
        let right ← ofJson? budget right
        return operator op left right) := by
  cases op <;> rfl

/-- The expression of a function, from what its fields say. -/
theorem ofJson?_function (f : Function) (argument : Json) (budget : ℕ) :
    ofJson? (budget + 2) (.ofVariant "Function"
      (.ofFields [("function", .ofString f.tag), ("argument", argument)])) =
        (do return function f (← ofJson? budget argument)) := by
  cases f <;> rfl

/-- Within the limit the expression is read back with the values of its numerals, and beyond
    it nothing is. -/
theorem ofJson?_toJson (f : Folded) (budget : ℕ) : ofJson? budget f.toJson =
    if f.openings ≤ budget then f.mapValues? Json.reread? else none := by
  induction f generalizing budget with
  | value x =>
    match budget with
    | 0 => rfl
    | budget + 1 => rw [ofJson?_value, openings, if_pos (Nat.le_add_left 1 budget), mapValues?]
  | name text =>
    match budget with
    | 0 | 1 => rfl
    | budget + 2 =>
      rw [openings, if_pos (Nat.le_add_left 2 budget)]
      rfl
  | operator op left right ihl ihr =>
    match budget with
    | 0 | 1 =>
      rw [if_neg (by rw [openings]; omega)]
      rfl
    | budget + 2 =>
      have hroom : (operator op left right).openings ≤ budget + 2 ↔
          left.openings ≤ budget ∧ right.openings ≤ budget := by
        rw [openings]
        omega
      rw [toJson, ofJson?_operator, ihl, ihr]
      simp only [hroom, mapValues?]
      by_cases hl : left.openings ≤ budget
      · by_cases hr : right.openings ≤ budget <;> simp [hl, hr]
      · simp [hl]
  | function f argument ih =>
    match budget with
    | 0 | 1 =>
      rw [if_neg (by rw [openings]; omega)]
      rfl
    | budget + 2 =>
      have hroom : (function f argument).openings ≤ budget + 2 ↔ argument.openings ≤ budget := by
        rw [openings]
        omega
      rw [toJson, ofJson?_function, ih]
      by_cases ha : argument.openings ≤ budget <;> simp [hroom, ha, mapValues?]

/-! ## Texts -/

theorem ofJsonText?_toJsonText (f : Folded) : ofJsonText? f.toJsonText =
    if f.openings ≤ Json.nestingLimit then f.mapValues? Json.reread? else none := by
  rw [ofJsonText?, toJsonText, Json.read?_pretty f.isWellFormed_toJson]
  exact ofJson?_toJson f Json.nestingLimit

/-- Within the limit an expression is read back with its shape, its names and its operators, and
    with values that are close to its own if those are finite. Values with short numerals are
    read back bit by bit. Nothing is read back beyond the limit, or if a value is not finite. -/
theorem json_reread (f : Folded) :
    (f.openings ≤ 127 → (∀ x ∈ f.values, x.isFinite = true) →
      ∃ f', ofJsonText? f.toJsonText = some f' ∧ f.Corresponds IsClose f') ∧
    (f.openings ≤ 127 → (∀ x ∈ f.values, Json.HasShortNumeral x) →
      ofJsonText? f.toJsonText = some f) ∧
    (128 ≤ f.openings ∨ (∃ x ∈ f.values, x.isFinite = false) →
      ofJsonText? f.toJsonText = none) := by
  have hread : ofJsonText? f.toJsonText =
      if f.openings ≤ 127 then f.mapValues? Json.reread? else none := ofJsonText?_toJsonText f
  rw [hread]
  refine ⟨fun hle hfinite => ?_, fun hle hshort => ?_, fun h => ?_⟩
  · rw [if_pos hle]
    exact exists_mapValues? fun x hx => Json.exists_reread? (hfinite x hx)
  · rw [if_pos hle]
    exact mapValues?_eq_self_iff.mpr fun x hx => Json.reread?_of_hasShortNumeral (hshort x hx)
  · split_ifs with hle
    · obtain ⟨x, hx, hinfinite⟩ := h.resolve_left (by omega)
      exact mapValues?_eq_none_iff.mpr ⟨x, hx, Json.reread?_of_isFinite hinfinite⟩
    · rfl

/-- A difference of a few digits, a value of many, and an infinite value. -/
theorem json_reread_difference :
    (∃ f', ofJsonText? (value 9007199254740991).toJsonText = some f' ∧
      (value 9007199254740991).Corresponds IsClose f') ∧
    ofJsonText? (operator .sub (value 2.5) (name "y")).toJsonText =
      some (operator .sub (value 2.5) (name "y")) ∧
    ofJsonText? (function .sin (value infinity)).toJsonText = none := by
  refine ⟨(json_reread _).1 (by decide) ?_, (json_reread _).2.1 (by decide) ?_,
    (json_reread _).2.2 (.inr ⟨infinity, List.mem_singleton_self _, by decide +kernel⟩)⟩
  · exact List.forall_mem_singleton.mpr (by decide +kernel)
  · exact List.forall_mem_singleton.mpr
      ⟨⟨false, ['2'], some ['5'], none⟩, by decide +kernel, by decide⟩

/-- The greatest odd integer that is a double is read back as its even neighbour. -/
theorem json_reread_neighbour :
    ofJsonText? (value 9007199254740991).toJsonText = some (value 9007199254740990) ∧
      (9007199254740991 : Float) ≠ 9007199254740990 := by
  decide +kernel

end Folded

end Reckoner
