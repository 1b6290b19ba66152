import Reckoner.Tree

/-!
# Builders

A builder makes the tree of one bracket level while its operands and operators come in. It
holds the tree itself and remembers the slot on the right of it that the next operand fills.
An operator that binds tighter than the one at the top is rotated into the right subtree,
unless the top came from brackets. Any other operator becomes the new top.

A builder never measures a tree. The heights of the operands are given to it, and of the tree
it keeps the heights of those parts that a later step puts together anew.

* `Builder.pushOperand`, `Builder.pushOperator`: the two steps, which come in turn;
* `Builder.finish`: the tree, in which an operator may still lack its right operand.
-/

namespace Reckoner

namespace Tree

/-- The tree with its right subtree changed. -/
def mapRight (f : Tree → Tree) : Tree → Tree
  | .absent => .absent
  | .node kind text left right => .node kind text left (f right)

@[simp] theorem precedence?_binary (op : Operator) (left right : Tree) :
    (binary op left right).precedence? = some op.precedence := rfl

theorem precedence?_eq_none {x : Tree} (h : x.isOperator = false) : x.precedence? = none := by
  unfold isOperator at h
  unfold precedence?
  split <;> simp_all

end Tree

/-- A place that waits for an operand. -/
inductive Builder.Slot
  /-- on the right of the top -/
  | top
  /-- on the right of the right subtree of the top, after a rotation -/
  | topRight
deriving DecidableEq, Repr, Inhabited

/-- A builder between two steps. -/
structure Builder where
  /-- the tree, absent before the first operand -/
  top : Tree
  /-- the slot that waits for an operand, if one does -/
  slot : Option Builder.Slot
  /-- whether the top is an operand from brackets, into which no operator is rotated -/
  topIsGroup : Bool
  /-- the height of the whole tree -/
  height : Nat
  /-- the height of the left subtree while the top is an operator -/
  leftHeight : Nat
  /-- the height of the right subtree, zero while the slot of the top waits -/
  rightHeight : Nat
  /-- the height of the left subtree of the right one, after a rotation -/
  innerLeftHeight : Nat
deriving DecidableEq, Repr, Inhabited

namespace Builder

/-- The builder before the first step. -/
def new : Builder := ⟨.absent, none, false, 0, 0, 0, 0⟩

/-- Whether there is no tree yet. -/
def isEmpty (b : Builder) : Bool := b.top = .absent

/-- Whether an operand is due. Otherwise an operator is. -/
def expectsOperand (b : Builder) : Bool := b.isEmpty || b.slot.isSome

/-- The height of the whole, from those of both sides of the top. -/
def measured (b : Builder) : Builder := { b with height := 1 + max b.leftHeight b.rightHeight }

/-- Attaches an operand of the given height. Without a slot for it nothing changes. -/
def pushOperand (b : Builder) (operand : Tree) (height : Nat) (group : Bool) : Builder :=
  if b.isEmpty then { b with top := operand, topIsGroup := group, height := height }
  else
    match b.slot with
    | none => b
    | some .top =>
      measured { b with
        top := b.top.mapRight fun _ => operand
        slot := none
        rightHeight := height }
    | some .topRight =>
      measured { b with
        top := b.top.mapRight (Tree.mapRight fun _ => operand)
        slot := none
        rightHeight := 1 + max b.innerLeftHeight height }

/-- Whether an operator takes the right subtree of the top only. -/
def rotates (b : Builder) (op : Operator) : Bool :=
  !b.topIsGroup && b.top.precedence?.any (· < op.precedence)

/-- Inserts an operator after a complete operand. -/
def pushOperator (b : Builder) (op : Operator) : Builder :=
  if b.isEmpty then b
  else if b.rotates op then
    measured { b with
      top := b.top.mapRight fun right => .binary op right .absent
      slot := some .topRight
      innerLeftHeight := b.rightHeight
      rightHeight := 1 + b.rightHeight }
  else
    measured { b with
      top := .binary op b.top .absent
      slot := some .top
      topIsGroup := false
      leftHeight := b.height
      rightHeight := 0 }

/-- The tree that was built. -/
def finish (b : Builder) : Tree := b.top

end Builder

end Reckoner
