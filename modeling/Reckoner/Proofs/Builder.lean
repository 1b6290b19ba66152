import Reckoner.Tree.Builder
import Reckoner.Proofs.Level

/-!
# Builders and levels

A builder changes one tree and keeps four heights beside it, each of which is out of date
while the top has no part that it belongs to. A level tells these parts apart by its cases.

* `Builder.Represents`: what a builder holds in each case of a level. Every operand
  (`Builder.Represents.pushOperand`) and every operator (`Builder.Represents.pushOperator`)
  that is due preserves this;
* `Builder.represents_run`: after the same calls in turn a builder holds the level. So the two
  have the same tree and the same height, and expect the same;
* `Builder.height_finish_run`: if the operands are given with their own heights, the height
  that a builder keeps is that of its tree after every call.
-/

namespace Reckoner

namespace Builder

variable {b : Builder} {l : Level}

/-! ## What a builder holds -/

/-- The builder holds the level. The heights that a case leaves open are out of date. -/
inductive Represents : Builder → Level → Prop
  | empty (group : Bool) (left right inner : Nat) :
      Represents ⟨.absent, none, group, 0, left, right, inner⟩ .empty
  /-- no operator reaches into the operand: it is a group, or no operator itself -/
  | single (x : Sized) (group : Bool) (left right inner : Nat) : x.tree ≠ .absent →
      (x.tree.isOperator = true → group = true) →
      Represents ⟨x.tree, none, group, x.height, left, right, inner⟩ (.single x)
  | pending (left : Sized) (op : Operator) (inner : Nat) :
      Represents ⟨.binary op left.tree .absent, some .top, false, 1 + max left.height 0,
        left.height, 0, inner⟩ (.pending left op)
  | joined (left : Sized) (op : Operator) (right : Sized) (inner : Nat) :
      Represents ⟨.binary op left.tree right.tree, none, false, 1 + max left.height right.height,
        left.height, right.height, inner⟩ (.joined left op right)
  | nested (left : Sized) (op : Operator) (inner : Sized) (innerOp : Operator) :
      Represents ⟨.binary op left.tree (.binary innerOp inner.tree .absent), some .topRight, false,
        1 + max left.height (1 + inner.height), left.height, 1 + inner.height, inner.height⟩
        (.nested left op inner innerOp)

namespace Represents

theorem finish_eq (h : b.Represents l) : b.finish = l.tree := by cases h <;> rfl

theorem height_eq (h : b.Represents l) : b.height = l.height := by
  cases h with
  | empty | single | joined | nested => rfl
  | pending left op inner => exact congrArg (1 + ·) (Nat.max_zero left.height)

theorem isEmpty_eq (h : b.Represents l) : b.isEmpty = l.isEmpty := by
  cases h with
  | empty | pending | joined | nested => rfl
  | single x group left right inner hx => exact decide_eq_false hx

theorem expectsOperand_eq (h : b.Represents l) : b.expectsOperand = l.expectsOperand := by
  cases h with
  | empty | pending | joined | nested => rfl
  | single x group left right inner hx =>
    simp [Builder.expectsOperand, Builder.isEmpty, Level.expectsOperand, hx]

/-- An operand fills the slot, and the heights on the way down to it are set. -/
theorem pushOperand (h : b.Represents l) {x : Tree} {height : Nat} {group : Bool}
    (hx : x ≠ .absent) (hgroup : x.isOperator = true → group = true) :
    (b.pushOperand x height group).Represents (l.addOperand ⟨x, height⟩) := by
  cases h with
  | empty _ left right inner => exact .single ⟨x, height⟩ group left right inner hx hgroup
  | single y group left right inner hy hunit =>
    simp only [Builder.pushOperand, Builder.isEmpty, hy]
    exact .single y group left right inner hy hunit
  | pending left op inner => exact .joined left op ⟨x, height⟩ inner
  | joined left op right inner => exact .joined left op right inner
  | nested left op inner innerOp =>
    exact .joined left op (.binary innerOp inner ⟨x, height⟩) inner.height

/-- An operator is rotated to the right of a looser one at the top. Otherwise it takes the whole,
    and the height of the whole becomes that of its left operand. -/
theorem pushOperator (h : b.Represents l) (hl : l.expectsOperand = false) (op : Operator) :
    (b.pushOperator op).Represents (l.addOperator op) := by
  cases h with
  | empty | pending | nested => simp [Level.expectsOperand] at hl
  | single x group left right inner hx hunit =>
    have hrotates : rotates ⟨x.tree, none, group, x.height, left, right, inner⟩ op = false := by
      cases hoperator : x.tree.isOperator with
      | true => simp [rotates, hunit hoperator]
      | false => simp [rotates, Tree.precedence?_eq_none hoperator]
    rw [Builder.pushOperator, if_neg (by simp [Builder.isEmpty, hx]), if_neg (by simp [hrotates])]
    exact .pending x op inner
  | joined left top right inner =>
    by_cases hlt : top.precedence < op.precedence
    · rw [Builder.pushOperator, if_neg (by simp [Builder.isEmpty, Tree.binary]),
        if_pos (by simp [rotates, hlt]), Level.addOperator, if_pos hlt]
      exact .nested left top right op
    · rw [Builder.pushOperator, if_neg (by simp [Builder.isEmpty, Tree.binary]),
        if_neg (by simp [rotates, hlt]), Level.addOperator, if_neg hlt]
      exact .pending (.binary top left right) op inner

end Represents

/-! ## Calls in turn -/

/-- A step of a builder with what it is given. -/
inductive Call
  /-- an operand with the height that counts for it, and whether it is a group -/
  | operand (x : Tree) (height : Nat) (group : Bool)
  | operator (op : Operator)

/-- Whether an operand is pushed. -/
def Call.isOperand : Call → Bool
  | operand .. => true
  | operator _ => false

/-- An operand is no absent tree, and it is a group if an operator is at its root. -/
def Call.IsProper : Call → Prop
  | operand x _ group => x ≠ .absent ∧ (x.isOperator = true → group = true)
  | operator _ => True

/-- The height that counts for an operand is its own. -/
def Call.IsExact : Call → Prop
  | operand x height _ => height = x.height
  | operator _ => True

/-- Operands and operators come in turn. The flag says whether an operand comes first. -/
def InTurn : Bool → List Call → Prop
  | _, [] => True
  | due, call :: calls => call.isOperand = due ∧ InTurn (!due) calls

/-- The builder after a call. -/
def perform (b : Builder) : Call → Builder
  | .operand x height group => b.pushOperand x height group
  | .operator op => b.pushOperator op

/-- The builder after some calls. -/
def run (b : Builder) (calls : List Call) : Builder := calls.foldl perform b

end Builder

namespace Level

open Builder

variable {l : Level} {call : Call}

/-- The level after the same call. -/
def perform (l : Level) : Call → Level
  | .operand x height _ => l.addOperand ⟨x, height⟩
  | .operator op => l.addOperator op

/-- The level after some calls. -/
def run (l : Level) (calls : List Call) : Level := calls.foldl perform l

theorem expectsOperand_perform (h : l.expectsOperand = call.isOperand) :
    (l.perform call).expectsOperand = !l.expectsOperand := by
  rw [h]
  cases call with
  | operand x height group => exact expectsOperand_addOperand l ⟨x, height⟩
  | operator op => exact expectsOperand_addOperator op h

theorem isEmpty_perform (h : l.expectsOperand = call.isOperand) :
    (l.perform call).isEmpty = false := by
  cases call with
  | operand x height group => exact isEmpty_addOperand l ⟨x, height⟩
  | operator op => exact (isEmpty_addOperator l op).trans (isEmpty_eq_false h)

theorem height_le_perform (h : l.expectsOperand = call.isOperand) :
    l.height ≤ (l.perform call).height := by
  cases call with
  | operand x height group => exact height_le_addOperand h ⟨x, height⟩
  | operator op => exact height_le_addOperator l op

theorem IsExact.perform (h : l.IsExact) (hcall : call.IsExact) : (l.perform call).IsExact := by
  cases call with
  | operand x height group => exact h.addOperand hcall
  | operator op => exact h.addOperator op

theorem IsExact.run (h : l.IsExact) {calls : List Call} (hcalls : ∀ call ∈ calls, call.IsExact) :
    (l.run calls).IsExact := by
  induction calls generalizing l with
  | nil => exact h
  | cons call calls ih =>
    obtain ⟨hcall, hcalls⟩ := List.forall_mem_cons.mp hcalls
    exact ih (h.perform hcall) hcalls

end Level

namespace Builder

variable {b : Builder} {l : Level} {calls us vs : List Call} {call : Call}

theorem Represents.perform (h : b.Represents l) (hdue : l.expectsOperand = call.isOperand)
    (hcall : call.IsProper) : (b.perform call).Represents (l.perform call) := by
  cases call with
  | operand x height group => exact h.pushOperand hcall.1 hcall.2
  | operator op => exact h.pushOperator hdue op

/-- After the first ones of some calls in turn the builder still holds the level, and the other
    calls are in turn. -/
theorem Represents.run (h : b.Represents l) (hturns : InTurn l.expectsOperand (us ++ vs))
    (hproper : ∀ call ∈ us, call.IsProper) :
    (b.run us).Represents (l.run us) ∧ InTurn (l.run us).expectsOperand vs := by
  induction us generalizing b l with
  | nil => exact ⟨h, hturns⟩
  | cons call us ih =>
    obtain ⟨hcall, hproper⟩ := List.forall_mem_cons.mp hproper
    obtain ⟨hdue, hturns⟩ := hturns
    have hdue' := Level.expectsOperand_perform hdue.symm
    exact ih (h.perform hdue.symm hcall) (hdue' ▸ hturns) hproper

theorem represents_new : new.Represents .empty := .empty false 0 0 0

/-- A new builder that is called in turn holds the level that reads the same. -/
theorem represents_run (hturns : InTurn true calls) (hproper : ∀ call ∈ calls, call.IsProper) :
    (new.run calls).Represents (Level.empty.run calls) := by
  rw [← List.append_nil calls] at hturns
  exact (represents_new.run hturns hproper).1

/-- Let a new builder be called in turn, an operand first. The operands come with their own
    heights, and as groups if an operator is at their root. Then each call is what the builder
    expects. After it there is a tree, and the height that the builder keeps is that of the
    tree, in which an operator may still lack its right operand. It is no less than before. -/
theorem height_finish_run (hturns : InTurn true calls) (hproper : ∀ call ∈ calls, call.IsProper)
    (hexact : ∀ call ∈ calls, call.IsExact) : ∀ us call, us ++ [call] <+: calls →
      let before := new.run us
      let after := before.perform call
      before.expectsOperand = call.isOperand ∧ after.finish ≠ .absent ∧
        after.height = after.finish.height ∧ before.height ≤ after.height := by
  rintro us call ⟨vs, rfl⟩ before after
  simp only [List.append_assoc, List.forall_mem_append, List.singleton_append,
    List.forall_mem_cons] at hturns hproper hexact
  obtain ⟨hus, hcall, -⟩ := hproper
  obtain ⟨hus', hcall', -⟩ := hexact
  obtain ⟨hbefore, hdue, -⟩ := represents_new.run hturns hus
  have hafter := hbefore.perform hdue.symm hcall
  have hlevel : ((Level.empty.run us).perform call).IsExact :=
    (Level.IsExact.run (l := .empty) trivial hus').perform hcall'
  refine ⟨hbefore.expectsOperand_eq.trans hdue.symm, ?_, ?_, ?_⟩
  · exact of_decide_eq_false (hafter.isEmpty_eq.trans (Level.isEmpty_perform hdue.symm))
  · rw [hafter.height_eq, hafter.finish_eq]
    exact hlevel.whole
  · rw [hbefore.height_eq, hafter.height_eq]
    exact Level.height_le_perform hdue.symm

/-- The product is not rotated into the sum, which is a group, and the quotient at the end is
    rotated into the difference. -/
theorem height_finish_run_rotated :
    let leaf (name : String) : Call := .operand (.leaf .name name) 1 false
    let group : Call := .operand (.binary .add (.leaf .name "a") (.leaf .name "b")) 2 true
    let calls := [group, .operator .mul, leaf "c", .operator .sub, leaf "d"]
    InTurn true (calls ++ [.operator .div]) ∧
      (∀ call ∈ calls ++ [.operator .div], call.IsProper) ∧
      (∀ call ∈ calls ++ [.operator .div], call.IsExact) ∧
      (new.run calls).expectsOperand = false ∧
      ((new.run calls).perform (.operator .div)).finish ≠ .absent ∧
      ((new.run calls).perform (.operator .div)).height = 4 := by
  intro leaf group calls
  have hturns : InTurn true (calls ++ [.operator .div]) := ⟨rfl, rfl, rfl, rfl, rfl, rfl, trivial⟩
  have hproper : ∀ call ∈ calls ++ [.operator .div], call.IsProper := by
    simp only [calls, List.cons_append, List.nil_append, List.forall_mem_cons]
    have hleaf (name : String) : (leaf name).IsProper :=
      ⟨by simp [Tree.leaf], by simp [Tree.leaf, Tree.isOperator]⟩
    exact ⟨⟨by simp [Tree.binary], fun _ => rfl⟩, trivial, hleaf "c", trivial, hleaf "d", trivial,
      List.forall_mem_nil _⟩
  have hexact : ∀ call ∈ calls ++ [.operator .div], call.IsExact := by
    simp only [calls, List.cons_append, List.nil_append, List.forall_mem_cons]
    exact ⟨rfl, trivial, rfl, trivial, rfl, trivial, List.forall_mem_nil _⟩
  obtain ⟨hdue, htree, hheight, -⟩ :=
    height_finish_run hturns hproper hexact calls (.operator .div) (List.prefix_refl _)
  exact ⟨hturns, hproper, hexact, hdue, htree, hheight.trans (by decide)⟩

/-- If the sum is no group, the product is rotated into it, though the builder was not told the
    heights of its two sides. The height that it keeps is too small then. -/
example : let sum := Tree.binary .add (.leaf .name "a") (.leaf .name "b")
    let b := (new.pushOperand sum 2 false).pushOperator .mul
    b.height = 2 ∧ b.finish.height = 3 := by decide

end Builder

end Reckoner
