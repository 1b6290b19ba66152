import Reckoner.Tree

/-!
# Bracket levels

A `Level` is the part of an expression between two brackets, as far as it has been
read. Operands and operators come in turn. An operator takes all that was read before
it as its left operand, unless it binds tighter than the operator before it: then it
takes the last operand only. So operators of one strength group to the left.

* `Level.tree` is the tree of what was read, with a subtree absent where an operand is
  still due;
* `Level.height` is what the depth limit counts, kept up to date from the heights that
  the operands were given.

A `Builder` keeps the same in one tree that it changes in place (`Builder.represents_run`).
-/

namespace Reckoner

/-- A tree with the height that counts for it. -/
structure Sized where
  tree : Tree
  height : Nat
deriving DecidableEq, Repr, Inhabited

namespace Sized

/-- A leaf, of height one. -/
def leaf (kind : Tree.Kind) (text : String) : Sized := ⟨.leaf kind text, 1⟩

/-- An operator with its operands. -/
def binary (op : Operator) (left right : Sized) : Sized :=
  ⟨.binary op left.tree right.tree, 1 + max left.height right.height⟩

/-- An operator whose right operand is still due. -/
def pending (op : Operator) (left : Sized) : Sized :=
  ⟨.binary op left.tree .absent, 1 + left.height⟩

end Sized

/-- What was read of a bracket level. -/
inductive Level
  /-- nothing -/
  | empty
  /-- one operand, which is a unit: no operator reaches into it -/
  | single (operand : Sized)
  /-- an operator that waits for its right operand -/
  | pending (left : Sized) (op : Operator)
  /-- an operator with both operands -/
  | joined (left : Sized) (op : Operator) (right : Sized)
  /-- as `joined`, but the right operand is an operator that waits for its own -/
  | nested (left : Sized) (op : Operator) (inner : Sized) (innerOp : Operator)
deriving DecidableEq, Repr, Inhabited

namespace Level

/-- What was read, as one operand. -/
def whole : Level → Sized
  | empty => ⟨.absent, 0⟩
  | single x => x
  | pending left op => .pending op left
  | joined left op right => .binary op left right
  | nested left op inner innerOp => .binary op left (.pending innerOp inner)

/-- The tree of what was read. -/
def tree (l : Level) : Tree := l.whole.tree

/-- The height that counts for what was read. -/
def height (l : Level) : Nat := l.whole.height

/-- Whether nothing was read. -/
def isEmpty : Level → Bool
  | empty => true
  | _ => false

/-- Whether an operand is due. Otherwise an operator is. -/
def expectsOperand : Level → Bool
  | empty | pending .. | nested .. => true
  | single _ | joined .. => false

/-- Reads an operand. Where none is due nothing changes. -/
def addOperand (l : Level) (x : Sized) : Level :=
  match l with
  | empty => single x
  | pending left op => joined left op x
  | nested left op inner innerOp => joined left op (.binary innerOp inner x)
  | single _ | joined .. => l

/-- Reads an operator. Where none is due nothing changes. -/
def addOperator (l : Level) (op : Operator) : Level :=
  match l with
  | single x => pending x op
  | joined left topOp right =>
    if topOp.precedence < op.precedence then nested left topOp right op
    else pending (.binary topOp left right) op
  | empty | pending .. | nested .. => l

@[simp] theorem expectsOperand_addOperand (l : Level) (x : Sized) :
    (l.addOperand x).expectsOperand = false := by
  cases l <;> rfl

theorem expectsOperand_addOperator {l : Level} (op : Operator) (h : l.expectsOperand = false) :
    (l.addOperator op).expectsOperand = true := by
  cases l with
  | single x => rfl
  | joined left topOp right => simp only [addOperator]; split <;> rfl
  | empty | pending | nested => simp [expectsOperand] at h

end Level

end Reckoner
