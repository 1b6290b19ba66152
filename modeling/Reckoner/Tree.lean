import Reckoner.Token

/-!
# Expression trees

A tree is absent or a node with two subtrees. An operator has its operands on both
sides, a function has its argument on the left, and all other nodes are leaves.
Nothing enforces that shape: a tree may lack an operand, because the source did, and
a tree that was read from a file may have subtrees anywhere.

* `Tree.render` writes a tree as a fully bracketed expression;
* `Tree.names` lists the variables that an evaluation looks up, in its order;
* `Tree.size` and `Tree.height` measure it.
-/

namespace Reckoner

/-- What a malformed leaf was meant to be. -/
inductive Tree.Defect
  | number | name | operator | function
deriving DecidableEq, Repr, Inhabited

/-- What a node is. -/
inductive Tree.Kind
  | literal (format : Literal.Format)
  /-- a variable -/
  | name
  | operator (op : Operator)
  | function (f : Function)
  | invalid (defect : Tree.Defect)
  /-- a placeholder without meaning -/
  | error
deriving DecidableEq, Repr, Inhabited

/-- An expression. -/
inductive Tree
  /-- no expression at all -/
  | absent
  /-- a node with its text: the source text of a leaf, the symbol of an operator or
      the name of a function -/
  | node (kind : Tree.Kind) (text : String) (left right : Tree)
deriving DecidableEq, Repr, Inhabited

namespace Tree

/-! ## Building trees -/

/-- A node without subtrees. -/
def leaf (kind : Kind) (text : String) : Tree := .node kind text .absent .absent

/-- An operator with its operands. -/
def binary (op : Operator) (left right : Tree) : Tree :=
  .node (.operator op) op.symbol left right

/-- A function with its argument. -/
def call (f : Function) (argument : Tree) : Tree := .node (.function f) f.name argument .absent

/-- The leaf that a token denotes, if it denotes one. -/
def ofToken? (t : Token) : Option Tree :=
  match t.kind with
  | .literal format => some (leaf (.literal format) t.text)
  | .name => some (leaf .name t.text)
  | _ => none

/-! ## Properties of the root -/

/-- Whether the root is an operator. -/
def isOperator : Tree → Bool
  | .node (.operator _) .. => true
  | _ => false

/-- Whether the root is a function. -/
def isFunction : Tree → Bool
  | .node (.function _) .. => true
  | _ => false

/-- The binding strength of an operator at the root. -/
def precedence? : Tree → Option Nat
  | .node (.operator op) .. => some op.precedence
  | _ => none

/-! ## Properties of the whole -/

/-- Whether a variable occurs anywhere. -/
def hasNames : Tree → Bool
  | .absent => false
  | .node kind _ left right => kind = .name || left.hasNames || right.hasNames

/-- The number of nodes. -/
def size : Tree → Nat
  | .absent => 0
  | .node _ _ left right => 1 + left.size + right.size

/-- The number of nodes on the longest way from the root to a leaf. -/
def height : Tree → Nat
  | .absent => 0
  | .node _ _ left right => 1 + max left.height right.height

/-- The variables below operators and functions from left to right, repetitions kept.
    What hangs below any other node is no part of the expression. -/
def names : Tree → List String
  | .absent => []
  | .node .name text _ _ => [text]
  | .node (.operator _) _ left right | .node (.function _) _ left right =>
    left.names ++ right.names
  | .node _ _ _ _ => []

/-- The tree as an expression in which every operator has its brackets. A question mark
    stands where a subtree is absent. -/
def render : Tree → String
  | .absent => "?"
  | .node (.operator op) _ left right =>
    "(" ++ left.render ++ " " ++ op.symbol ++ " " ++ right.render ++ ")"
  | .node (.function f) _ argument _ => f.opener ++ argument.render ++ ")"
  | .node (.invalid _) text _ _ | .node .error text _ _ => "<invalid " ++ text ++ ">"
  | .node (.literal _) text _ _ | .node .name text _ _ => text

end Tree

end Reckoner
