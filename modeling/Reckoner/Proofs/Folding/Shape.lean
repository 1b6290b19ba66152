import Reckoner.Proofs.Folding

/-!
# What folding leaves

Folding computes every part without variables, and only these. What is left has the
variables of the tree, and the operators and functions above them where they were.

* `Tree.IsTrim`: trees in which nothing hangs that folding does not visit;
* `Tree.FoldsTo`: what folding makes of a trim tree, one rule for each node
  (`Tree.foldsTo_of_fold`);
* `Folded.IsReduced`: expressions in which nothing is left to compute;
* `Tree.FoldsTo.exists_part`: a part with variables stays in its place;
* `fold_maximal`: the folded expression, its variables, its places, and the number of
  operators and functions that were computed.
-/

namespace Reckoner

namespace Tree

/-- Literals and variables are leaves, and functions have nothing on the right. -/
def IsTrim : Tree → Prop
  | .absent => True
  | .node (.literal _) _ left right | .node .name _ left right => left = .absent ∧ right = .absent
  | .node (.function _) _ argument right => argument.IsTrim ∧ right = .absent
  | .node (.operator _) _ left right | .node (.invalid _) _ left right
  | .node .error _ left right =>
    left.IsTrim ∧ right.IsTrim

/-- The number of operators and functions. -/
def operations : Tree → Nat
  | .absent => 0
  | .node (.operator _) _ left right | .node (.function _) _ left right =>
    1 + left.operations + right.operations
  | .node _ _ left right => left.operations + right.operations

/-! ## Places -/

/-- The sides of a node. -/
inductive Side
  | left | right
deriving DecidableEq, Repr

/-- The subtree on a side. -/
def child : Tree → Side → Tree
  | .absent, _ => .absent
  | .node _ _ left _, .left => left
  | .node _ _ _ right, .right => right

/-- The subtree at the end of a path, absent if the path leaves the tree. -/
def part (t : Tree) (path : List Side) : Tree := path.foldl child t

theorem hasNames_of_child {t : Tree} (side : Side) (h : (t.child side).hasNames = true) :
    t.hasNames = true := by
  cases t with
  | absent => exact h
  | node kind text left right => cases side <;> simp_all [child, hasNames]

theorem hasNames_of_part {path : List Side} {t : Tree} (h : (t.part path).hasNames = true) :
    t.hasNames = true := by
  induction path generalizing t with
  | nil => exact h
  | cons side path ih => exact hasNames_of_child side (ih h)

end Tree

namespace Folded

/-- The kind of node that the root stands for. A value stands for none. -/
def kind? : Folded → Option Tree.Kind
  | .value _ => none
  | .name _ => some .name
  | .operator op _ _ => some (.operator op)
  | .function f _ => some (.function f)

/-- The operand or argument on a side. -/
def child? : Folded → Tree.Side → Option Folded
  | .operator _ left _, .left => some left
  | .operator _ _ right, .right => some right
  | .function _ argument, .left => some argument
  | _, _ => none

/-- The part at the end of a path. -/
def part? (f : Folded) (path : List Tree.Side) : Option Folded := path.foldlM child? f

/-- No operator has two values for operands, and no function has one for its argument. -/
def IsReduced : Folded → Prop
  | .value _ | .name _ => True
  | .operator _ left right =>
    ¬ (left.isValue = true ∧ right.isValue = true) ∧ left.IsReduced ∧ right.IsReduced
  | .function _ argument => argument.isValue = false ∧ argument.IsReduced

/-- The number of operators and functions. -/
def operations : Folded → Nat
  | .value _ | .name _ => 0
  | .operator _ left right => 1 + left.operations + right.operations
  | .function _ argument => 1 + argument.operations

/-! ## Operators and functions -/

variable {op : Operator} {l r f : Folded}

/-- An operator is computed, or stays over operands of which one is no value. -/
theorem ofOperator_cases (h : ofOperator op l r = .ok f) :
    (∃ x y z, l = .value x ∧ r = .value y ∧ f = .value z) ∨
      (¬ (l.isValue = true ∧ r.isValue = true) ∧ f = .operator op l r) := by
  unfold ofOperator at h
  split at h
  · rename_i x y
    obtain ⟨z, -, rfl⟩ := Except.map_eq_ok.mp h
    exact .inl ⟨x, y, z, rfl, rfl, rfl⟩
  · rename_i hvalues
    refine .inr ⟨fun ⟨hl, hr⟩ => ?_, (Except.ok.inj h).symm⟩
    cases l with
    | value x =>
      cases r with
      | value y => exact hvalues x y rfl rfl
      | name | operator | function => cases hr
    | name | operator | function => cases hl

theorem isValue_of_ofOperator (h : ofOperator op l r = .ok f) :
    f.isValue = (l.isValue && r.isValue) := by
  rcases ofOperator_cases h with ⟨x, y, z, rfl, rfl, rfl⟩ | ⟨hvalues, rfl⟩
  · rfl
  · rw [← Bool.and_eq_true, Bool.not_eq_true] at hvalues
    exact hvalues.symm

/-- A function is computed, or stays over an argument that is no value. -/
theorem ofFunction_cases (fn : Function) (x : Folded) :
    (∃ y z, x = .value y ∧ ofFunction fn x = .value z) ∨
      (x.isValue = false ∧ ofFunction fn x = .function fn x) := by
  cases x with
  | value y => exact .inl ⟨y, _, rfl, rfl⟩
  | name | operator | function => exact .inr ⟨rfl, rfl⟩

theorem isValue_ofFunction (fn : Function) (x : Folded) :
    (ofFunction fn x).isValue = x.isValue := by
  cases x <;> rfl

/-- What is no value was not computed. -/
theorem ofOperator_of_isValue_eq_false (h : ofOperator op l r = .ok f) (hf : f.isValue = false) :
    f = .operator op l r := by
  rcases ofOperator_cases h with ⟨x, y, z, -, -, rfl⟩ | ⟨-, hstays⟩
  · cases hf
  · exact hstays

theorem ofFunction_of_isValue_eq_false {fn : Function} {x : Folded}
    (hf : (ofFunction fn x).isValue = false) : ofFunction fn x = .function fn x := by
  rcases ofFunction_cases fn x with ⟨y, z, -, hz⟩ | ⟨-, hstays⟩
  · rw [hz] at hf
    cases hf
  · exact hstays

end Folded

/-! ## Folding a trim tree -/

namespace Tree

/-- What folding makes of a trim tree. -/
inductive FoldsTo : Tree → Folded → Prop
  | absent : FoldsTo .absent (.value 0.0)
  | literal {format : Literal.Format} {text : String} {x : Float} :
      Literal.evaluate format text = .ok x → FoldsTo (.leaf (.literal format) text) (.value x)
  | name (text : String) : FoldsTo (.leaf .name text) (.name text)
  | operator {op : Operator} {text : String} {left right : Tree} {l r f : Folded} :
      left ≠ .absent → right ≠ .absent → FoldsTo left l → FoldsTo right r →
      Folded.ofOperator op l r = .ok f → FoldsTo (.node (.operator op) text left right) f
  | function {fn : Function} {text : String} {argument : Tree} {x : Folded} :
      argument ≠ .absent → FoldsTo argument x →
      FoldsTo (.node (.function fn) text argument .absent) (Folded.ofFunction fn x)

variable {t : Tree} {f : Folded}

theorem foldsTo_of_fold (ht : t.IsTrim) (h : t.fold = .ok f) : FoldsTo t f := by
  induction t generalizing f with
  | absent =>
    obtain rfl := Except.ok.inj h
    exact .absent
  | node kind text left right ihl ihr =>
    cases kind with
    | literal format =>
      obtain ⟨rfl, rfl⟩ := ht
      obtain ⟨x, hx, rfl⟩ := Except.map_eq_ok.mp h
      exact .literal hx
    | name =>
      obtain ⟨rfl, rfl⟩ := ht
      obtain rfl := Except.ok.inj h
      exact .name text
    | operator op =>
      rw [fold] at h
      obtain ⟨_, hl, h⟩ := Except.bind_eq_ok.mp h
      obtain ⟨_, hr, h⟩ := Except.bind_eq_ok.mp h
      obtain ⟨l, hfl, h⟩ := Except.bind_eq_ok.mp h
      obtain ⟨r, hfr, h⟩ := Except.bind_eq_ok.mp h
      exact .operator (ne_absent_of_demand hl) (ne_absent_of_demand hr) (ihl ht.1 hfl)
        (ihr ht.2 hfr) h
    | function fn =>
      obtain ⟨htrim, rfl⟩ := ht
      rw [fold] at h
      obtain ⟨_, ha, h⟩ := Except.bind_eq_ok.mp h
      obtain ⟨x, hx, h⟩ := Except.bind_eq_ok.mp h
      obtain rfl := Except.ok.inj h
      exact .function (ne_absent_of_demand ha) (ihl htrim hx)
    | invalid | error => cases h

namespace FoldsTo

theorem fold_eq (h : FoldsTo t f) : t.fold = .ok f := by
  induction h with
  | absent | name => rfl
  | literal hx => rw [leaf, fold, hx]; rfl
  | operator hl hr _ _ h ihl ihr => rw [fold, demand_eq_ok hl, demand_eq_ok hr, ihl, ihr]; exact h
  | function ha _ ih => rw [fold, demand_eq_ok ha, ih]; rfl

/-- The expression is computed as a whole exactly if there are no variables. -/
theorem isValue_eq (h : FoldsTo t f) : f.isValue = !t.hasNames := by
  induction h with
  | absent | literal | name => rfl
  | operator _ _ _ _ h ihl ihr =>
    rw [Folded.isValue_of_ofOperator h, ihl, ihr]
    simp [hasNames]
  | function _ _ ih =>
    rw [Folded.isValue_ofFunction, ih]
    simp [hasNames]

/-- Nothing is left to compute. -/
theorem isReduced (h : FoldsTo t f) : f.IsReduced := by
  induction h with
  | absent | literal | name => trivial
  | operator _ _ _ _ h ihl ihr =>
    rcases Folded.ofOperator_cases h with ⟨x, y, z, rfl, rfl, rfl⟩ | ⟨hvalues, rfl⟩
    · trivial
    · exact ⟨hvalues, ihl, ihr⟩
  | @function fn text argument x _ _ ih =>
    rcases Folded.ofFunction_cases fn x with ⟨y, z, -, hz⟩ | ⟨hx, hz⟩
    · rw [hz]
      trivial
    · rw [hz]
      exact ⟨hx, ih⟩

/-- The variables stay, in their order. -/
theorem names_eq (h : FoldsTo t f) : f.names = t.names := by
  induction h with
  | absent | literal | name => rfl
  | operator _ _ _ _ h ihl ihr =>
    rw [names, ← ihl, ← ihr]
    rcases Folded.ofOperator_cases h with ⟨x, y, z, rfl, rfl, rfl⟩ | ⟨-, rfl⟩ <;> rfl
  | @function fn text argument x _ _ ih =>
    rw [names, ← ih, names, List.append_nil]
    rcases Folded.ofFunction_cases fn x with ⟨y, z, rfl, hz⟩ | ⟨-, hz⟩ <;> rw [hz] <;> rfl

/-- What evaluation looks up is all that is there. -/
theorem hasNames_eq_false_iff (h : FoldsTo t f) : t.hasNames = false ↔ t.names = [] := by
  induction h with
  | absent | literal | name => simp [leaf, hasNames, names]
  | operator _ _ _ _ _ ihl ihr => simp [hasNames, names, ihl, ihr]
  | function _ _ ih => simp [hasNames, names, ih]

/-- Each operator and function is computed or stays. -/
theorem foldings_add_operations (h : FoldsTo t f) :
    t.foldings + f.operations = t.operations := by
  induction h with
  | absent | literal | name => rfl
  | @operator op text left right l r f hl hr hfl hfr h ihl ihr =>
    have hfold : (node (.operator op) text left right).fold = .ok f :=
      (FoldsTo.operator hl hr hfl hfr h).fold_eq
    rw [operations, ← ihl, ← ihr, foldings, demand_eq_ok hl, demand_eq_ok hr, hfl.fold_eq]
    simp only [hfold, gaveValue]
    rcases Folded.ofOperator_cases h with ⟨x, y, z, rfl, rfl, rfl⟩ | ⟨-, rfl⟩
    · simp [Folded.isValue, Folded.value?, Folded.operations]
      omega
    · simp [Folded.isValue, Folded.value?, Folded.operations]
      omega
  | @function fn text argument x ha hx ih =>
    have hfold : (node (.function fn) text argument .absent).fold = .ok (.ofFunction fn x) :=
      (FoldsTo.function ha hx).fold_eq
    rw [operations, ← ih, foldings]
    simp only [hfold, gaveValue]
    rcases Folded.ofFunction_cases fn x with ⟨y, z, rfl, hz⟩ | ⟨-, hz⟩
    · simp [hz, Folded.isValue, Folded.value?, Folded.operations, operations]
      omega
    · simp [hz, Folded.isValue, Folded.value?, Folded.operations, operations]
      omega

/-! ### Places -/

/-- Below a variable-free operand there is nothing to look for, and any other one stays. -/
theorem exists_child {side : Side} (h : FoldsTo t f) (hside : (t.child side).hasNames = true) :
    ∃ g, f.child? side = some g ∧ FoldsTo (t.child side) g := by
  have hvalue : f.isValue = false := by rw [h.isValue_eq, hasNames_of_child side hside]; rfl
  cases h with
  | absent => cases hside
  | literal | name => cases side <;> cases hside
  | operator _ _ hl hr h =>
    obtain rfl := Folded.ofOperator_of_isValue_eq_false h hvalue
    cases side with
    | left => exact ⟨_, rfl, hl⟩
    | right => exact ⟨_, rfl, hr⟩
  | @function fn text argument x _ hx =>
    cases side with
    | left =>
      rw [Folded.ofFunction_of_isValue_eq_false hvalue]
      exact ⟨x, rfl, hx⟩
    | right => cases hside

/-- A part with variables stays in its place, and is folded there. -/
theorem exists_part {path : List Side} (h : FoldsTo t f)
    (hpart : (t.part path).hasNames = true) :
    ∃ g, f.part? path = some g ∧ FoldsTo (t.part path) g := by
  induction path generalizing t f with
  | nil => exact ⟨f, rfl, h⟩
  | cons side path ih =>
    obtain ⟨g, hg, hchild⟩ := h.exists_child (hasNames_of_part hpart)
    obtain ⟨k, hk, hfolds⟩ := ih hchild hpart
    exact ⟨k, by rw [Folded.part?, List.foldlM_cons, hg]; exact hk, hfolds⟩

/-- A node with a variable below it stays what it is. -/
theorem kind?_eq {kind : Kind} {text : String} {left right : Tree}
    (h : FoldsTo (.node kind text left right) f)
    (hnames : left.hasNames = true ∨ right.hasNames = true) : f.kind? = some kind := by
  have hall : (node kind text left right).hasNames = true := by
    rcases hnames with hl | hr
    · exact hasNames_of_child .left hl
    · exact hasNames_of_child .right hr
  have hvalue : f.isValue = false := by rw [h.isValue_eq, hall]; rfl
  cases h with
  | literal => cases hvalue
  | name => rfl
  | operator _ _ _ _ h =>
    obtain rfl := Folded.ofOperator_of_isValue_eq_false h hvalue
    rfl
  | function =>
    rw [Folded.ofFunction_of_isValue_eq_false hvalue]
    rfl

end FoldsTo

end Tree

/-- Folding a trim tree, if it does not fail, leaves nothing to compute, and a value exactly
    if the tree has no variables. The variables stay in their order, and each node with a
    variable below it is still there, in its place and of its kind. All other operators and
    functions are computed, each of them once. -/
theorem fold_maximal {t : Tree} {f : Folded} (ht : t.IsTrim) (h : t.fold = .ok f) :
    f.IsReduced ∧ (f.isValue = true ↔ t.hasNames = false) ∧
    (t.hasNames = false ↔ t.names = []) ∧ f.names = t.names ∧
    (∀ path kind text left right, t.part path = .node kind text left right →
      left.hasNames = true ∨ right.hasNames = true →
      ∃ g, f.part? path = some g ∧ g.kind? = some kind) ∧
    t.foldings + f.operations = t.operations := by
  have hfolds := Tree.foldsTo_of_fold ht h
  refine ⟨hfolds.isReduced, ?_, hfolds.hasNames_eq_false_iff, hfolds.names_eq, ?_,
    hfolds.foldings_add_operations⟩
  · rw [hfolds.isValue_eq]
    simp
  · intro path kind text left right hpart hnames
    have hall : (t.part path).hasNames = true := by
      rw [hpart]
      rcases hnames with hl | hr
      · exact Tree.hasNames_of_child .left hl
      · exact Tree.hasNames_of_child .right hr
    obtain ⟨g, hg, hfolded⟩ := hfolds.exists_part hall
    exact ⟨g, hg, Tree.FoldsTo.kind?_eq (hpart ▸ hfolded) hnames⟩

/-- A sum of a call that stays and a difference that is computed with the call inside it. -/
theorem fold_maximal_sum :
    let t : Tree := .binary .add (.call .cos (.leaf .name "a"))
      (.binary .sub (.leaf (.literal .integer) "5") (.call .sqrt (.leaf (.literal .integer) "9")))
    let f : Folded := .operator .add (.function .cos (.name "a")) (.value 2)
    t.IsTrim ∧ t.fold = .ok f ∧ f.IsReduced ∧
      (∃ g, f.part? [.left] = some g ∧ g.kind? = some (.function .cos)) ∧ t.foldings + 2 = 4 := by
  intro t f
  have ht : t.IsTrim := ⟨⟨⟨rfl, rfl⟩, rfl⟩, ⟨rfl, rfl⟩, ⟨rfl, rfl⟩, rfl⟩
  have hf : t.fold = .ok f := by decide +kernel
  obtain ⟨hreduced, -, -, -, hplaces, hcount⟩ := fold_maximal ht hf
  exact ⟨ht, hf, hreduced, hplaces [.left] _ _ _ _ rfl (.inl rfl), hcount⟩

end Reckoner
