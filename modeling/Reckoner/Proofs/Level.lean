import Reckoner.Proofs.Grammar

/-!
# Bracket levels and the grammar

A level holds the tree of what it has read in the shape in which the next operator can
still reach into it.

* `Level.height_le_addOperand`, `Level.height_le_addOperator`: the height of a level
  never falls;
* `Level.IsExact`: the heights that a level keeps are those of the trees beside them, which
  every operand (`Level.IsExact.addOperand`) and every operator (`Level.IsExact.addOperator`)
  preserves;
* `Level.Reads`: what a level says of the tokens that were read into it, which every
  operand (`Level.Reads.addOperand`) and every operator (`Level.Reads.addOperator`) keeps;
* `Level.Agrees`: levels that no operator can tell apart. Reading the parts of a term or
  an expression one after the other agrees with reading it as one operand
  (`Level.agrees_tight`, `Level.addOperator_loose`).
-/

namespace Reckoner

open Grammar

/-- The height that counts for a tree is its own. -/
def Sized.IsExact (x : Sized) : Prop := x.height = x.tree.height

/-- An operator that waits for its right operand is a node above the left one. -/
theorem Sized.IsExact.pending {x : Sized} (h : x.IsExact) (op : Operator) :
    (pending op x).IsExact := by
  show 1 + x.height = 1 + max x.tree.height 0
  rw [Nat.max_zero, h]

namespace Level

/-! ## Heights -/

theorem height_le_addOperator (l : Level) (op : Operator) : l.height ≤ (l.addOperator op).height := by
  cases l with
  | empty | pending | nested => exact Nat.le_refl _
  | single x => simp [addOperator, height, whole, Sized.pending]
  | joined left top right =>
    simp only [addOperator]
    split_ifs <;> simp only [height, whole, Sized.pending, Sized.binary] <;> omega

theorem height_le_addOperand {l : Level} (h : l.expectsOperand = true) (x : Sized) :
    l.height ≤ (l.addOperand x).height := by
  cases l with
  | empty => exact Nat.zero_le _
  | single | joined => simp [expectsOperand] at h
  | pending | nested =>
    simp only [addOperand, height, whole, Sized.pending, Sized.binary]
    omega

/-- A level is at least as high as the operand read last. -/
theorem height_operand_le {l : Level} (h : l.expectsOperand = true) (x : Sized) :
    x.height ≤ (l.addOperand x).height := by
  cases l with
  | empty => exact Nat.le_refl _
  | single | joined => simp [expectsOperand] at h
  | pending | nested =>
    simp only [addOperand, height, whole, Sized.binary]
    omega

theorem isEmpty_eq_false {l : Level} (h : l.expectsOperand = false) : l.isEmpty = false := by
  cases l with
  | empty => simp [expectsOperand] at h
  | single | joined | pending | nested => rfl

theorem isEmpty_addOperand (l : Level) (x : Sized) : (l.addOperand x).isEmpty = false := by
  cases l <;> rfl

theorem isEmpty_addOperator (l : Level) (op : Operator) :
    (l.addOperator op).isEmpty = l.isEmpty := by
  cases l with
  | joined left top right =>
    simp only [addOperator]
    split_ifs <;> rfl
  | empty | single | pending | nested => rfl

/-! ## Exact heights -/

/-- Every height that a level keeps is that of the tree beside it. -/
def IsExact : Level → Prop
  | empty => True
  | single x => x.IsExact
  | pending left _ => left.IsExact
  | joined left _ right => left.IsExact ∧ right.IsExact
  | nested left _ inner _ => left.IsExact ∧ inner.IsExact

theorem IsExact.whole {l : Level} (h : l.IsExact) : l.whole.IsExact := by
  cases l with
  | empty => rfl
  | single x => exact h
  | pending left op => exact Sized.IsExact.pending h op
  | joined left op right => exact Sized.height_binary h.1 h.2
  | nested left op inner innerOp => exact Sized.height_binary h.1 (h.2.pending innerOp)

/-- An operand goes to the operator that waits for it, be that the top or one below. -/
theorem IsExact.addOperand {l : Level} {x : Sized} (h : l.IsExact) (hx : x.IsExact) :
    (l.addOperand x).IsExact := by
  cases l with
  | empty => exact hx
  | single | joined => exact h
  | pending left op => exact ⟨h, hx⟩
  | nested left op inner innerOp => exact ⟨h.1, Sized.height_binary h.2 hx⟩

/-- An operator takes the last operand only, or all that was read. -/
theorem IsExact.addOperator {l : Level} (h : l.IsExact) (op : Operator) :
    (l.addOperator op).IsExact := by
  cases l with
  | empty | single | pending | nested => exact h
  | joined left top right =>
    simp only [Level.addOperator]
    split_ifs
    · exact h
    · exact Sized.height_binary h.1 h.2

/-! ## What a level has read -/

/-- The tokens `ts` are those of a level, with brackets nested at most `n` deep. Both
    operators of a nested level have their strengths: the outer one is loose, the inner
    one tight. -/
def Reads (n : Nat) (ts : List Token) : Level → Prop
  | empty => ts = []
  | single x => Denotes .atom n ts x
  | pending left op =>
    ∃ us t, ts = us ++ [t] ∧ t.kind = .operator op ∧ Denotes (leftOf op) n us left
  | joined left op right =>
    ∃ us t vs, ts = us ++ t :: vs ∧ t.kind = .operator op ∧
      Denotes (leftOf op) n us left ∧ Denotes (rightOf op) n vs right
  | nested left op inner innerOp =>
    ∃ us t vs t', ts = us ++ t :: vs ++ [t'] ∧ t.kind = .operator op ∧
      t'.kind = .operator innerOp ∧ op.isTight = false ∧ innerOp.isTight = true ∧
      Denotes (leftOf op) n us left ∧ Denotes .term n vs inner

variable {l m : Level} {n : Nat} {ts us : List Token} {x y : Sized} {op : Operator} {t : Token}

theorem Reads.addOperand (h : l.Reads n ts) (hl : l.expectsOperand = true)
    (hx : Denotes .atom n us x) : (l.addOperand x).Reads n (ts ++ us) := by
  cases l with
  | empty =>
    obtain rfl : ts = [] := h
    exact hx
  | single | joined => simp [expectsOperand] at hl
  | pending left op =>
    obtain ⟨vs, t, rfl, ht, hleft⟩ := h
    exact ⟨vs, t, us, by simp, ht, hleft, hx.rightOf⟩
  | nested left op inner innerOp =>
    obtain ⟨vs, t, ws, t', rfl, ht, ht', hop, hin, hleft, hinner⟩ := h
    refine ⟨vs, t, ws ++ t' :: us, by simp, ht, hleft, ?_⟩
    -- the inner operator and its operands are a term, which is what a loose operator takes
    have hterm : leftOf innerOp = .term := by simp [leftOf, hin]
    have hright : rightOf op = .term := by simp [rightOf, hop]
    rw [hright, ← hterm]
    exact Denotes.binary (by rw [hterm]; exact hinner) ht' hx.rightOf

theorem Reads.addOperator (h : l.Reads n ts) (hl : l.expectsOperand = false)
    (ht : t.kind = .operator op) : (l.addOperator op).Reads n (ts ++ [t]) := by
  cases l with
  | empty | pending | nested => simp [expectsOperand] at hl
  | single x => exact ⟨ts, t, rfl, ht, Denotes.leftOf h⟩
  | joined left top right =>
    obtain ⟨us, u, vs, rfl, hu, hleft, hright⟩ := h
    simp only [Level.addOperator]
    split_ifs with hlt
    · obtain ⟨htop, hop⟩ := Operator.precedence_lt_iff.mp hlt
      have hterm : rightOf top = .term := by simp [rightOf, htop]
      exact ⟨us, u, vs, t, by simp, hu, ht, htop, hop, hleft, hterm ▸ hright⟩
    · refine ⟨us ++ u :: vs, t, rfl, ht, ?_⟩
      have hwhole := Denotes.binary hleft hu hright
      -- the operator before binds no less tightly
      rw [Operator.precedence_lt_iff] at hlt
      by_cases hop : op.isTight = true
      · have htop : top.isTight = true := by simpa [hop] using hlt
        have : leftOf top = leftOf op := by simp [leftOf, hop, htop]
        exact this ▸ hwhole
      · have : leftOf op = .expression := by simp [leftOf, hop]
        exact this ▸ hwhole.expression

theorem Reads.whole (h : l.Reads n ts) (hl : l.expectsOperand = false) :
    Denotes .expression n ts l.whole := by
  cases l with
  | empty | pending | nested => simp [expectsOperand] at hl
  | single x => exact (show Denotes (leftOf .add) n ts x from h.leftOf).expression
  | joined left op right =>
    obtain ⟨us, t, vs, rfl, ht, hleft, hright⟩ := h
    exact (Denotes.binary hleft ht hright).expression

/-! ## Levels that agree -/

/-- Both levels are complete, have the same tree and height, and do the same with every
    operator. -/
structure Agrees (l m : Level) : Prop where
  complete : l.expectsOperand = false
  complete' : m.expectsOperand = false
  whole : l.whole = m.whole
  addOperator : ∀ op, l.addOperator op = m.addOperator op

theorem Agrees.addOperand (l : Level) (x : Sized) : (l.addOperand x).Agrees (l.addOperand x) :=
  ⟨by simp, by simp, rfl, fun _ => rfl⟩

theorem Agrees.trans {k : Level} (h : l.Agrees m) (h' : m.Agrees k) : l.Agrees k :=
  ⟨h.complete, h'.complete', h.whole.trans h'.whole,
    fun op => (h.addOperator op).trans (h'.addOperator op)⟩

/-- After a complete level a loose operator takes all of it. -/
theorem addOperator_loose (hl : l.expectsOperand = false) (hop : op.isTight = false) :
    l.addOperator op = pending l.whole op := by
  cases l with
  | empty | pending | nested => simp [expectsOperand] at hl
  | single x => rfl
  | joined left top right =>
    have : ¬ top.precedence < op.precedence := by simp [Operator.precedence_lt_iff, hop]
    simp [Level.addOperator, this, Level.whole]

/-- A level at which a term may begin: nothing was read, or a loose operator last. -/
def BeginsTerm : Level → Prop
  | empty => True
  | pending _ op => op.isTight = false
  | _ => False

theorem BeginsTerm.expectsOperand (h : l.BeginsTerm) : l.expectsOperand = true := by
  cases l <;> first | rfl | exact h.elim

/-- Where a term begins, its two last parts with their operator agree with the whole. -/
theorem agrees_tight (hl : l.BeginsTerm) (hop : op.isTight = true) (x y : Sized) :
    (((l.addOperand x).addOperator op).addOperand y).Agrees (l.addOperand (.binary op x y)) := by
  cases l with
  | empty =>
    refine ⟨rfl, rfl, rfl, fun op' => ?_⟩
    have : ¬ op.precedence < op'.precedence := by simp [Operator.precedence_lt_iff, hop]
    simp [Level.addOperand, Level.addOperator, this]
  | pending left top =>
    have : top.precedence < op.precedence := Operator.precedence_lt_iff.mpr ⟨hl, hop⟩
    simp only [Level.addOperand, Level.addOperator, this, if_true]
    exact Agrees.addOperand (.pending left top) _
  | single | joined | nested => exact hl.elim

end Level

end Reckoner
