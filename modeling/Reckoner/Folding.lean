import Reckoner.Evaluation
import Reckoner.Numeral

/-!
# Constant folding

Folding computes beforehand what does not depend on variables: every subtree without
variables becomes one value, and the rest keeps its shape. An error in a part without
variables is an error of the folding as a whole.

* `Tree.fold` folds an expression, and `Tree.foldings` counts the operators and
  functions that were computed, up to the error if there is one;
* `Folded.evaluate` is the value of what is left, against bindings.
-/

namespace Reckoner

/-- An expression whose constant parts are computed. -/
inductive Folded
  | value (x : Float)
  | name (text : String)
  | operator (op : Operator) (left right : Folded)
  | function (f : Function) (argument : Folded)
deriving DecidableEq, Repr, Inhabited

namespace Folded

/-- The value of an expression that is computed as a whole. -/
def value? : Folded → Option Float
  | .value x => some x
  | _ => none

/-- Whether the expression is computed as a whole. -/
def isValue (f : Folded) : Bool := f.value?.isSome

/-- The expression with brackets around every operator. -/
def render : Folded → String
  | .value x => Numeral.ofResult x
  | .name text => text
  | .operator op left right =>
    "(" ++ left.render ++ " " ++ op.symbol ++ " " ++ right.render ++ ")"
  | .function f argument => f.opener ++ argument.render ++ ")"

/-- The variables from left to right, repetitions kept. -/
def names : Folded → List String
  | .value _ => []
  | .name text => [text]
  | .operator _ left right => left.names ++ right.names
  | .function _ argument => argument.names

/-- The value against bindings. -/
def evaluate (b : Bindings) : Folded → Except EvalError Float
  | .value x => .ok x
  | .name text => b.evaluate text
  | .operator op left right => do
    let x ← left.evaluate b
    let y ← right.evaluate b
    op.evaluate x y
  | .function f argument => do
    let x ← argument.evaluate b
    return f.apply x

/-- An operator, computed if both operands are. -/
def ofOperator (op : Operator) : Folded → Folded → Except EvalError Folded
  | .value x, .value y => (op.evaluate x y).map .value
  | left, right => .ok (.operator op left right)

/-- A function, computed if its argument is. -/
def ofFunction (f : Function) : Folded → Folded
  | .value x => .value (f.apply x)
  | argument => .function f argument

end Folded

namespace Tree

/-- The expression with its constant parts computed. -/
def fold : Tree → Except EvalError Folded
  | .absent => .ok (.value 0.0)
  | .node (.literal format) text _ _ => (Literal.evaluate format text).map .value
  | .node .name text _ _ => .ok (.name text)
  | .node (.operator op) _ left right => do
    left.demand .missingLeft
    right.demand .missingRight
    let l ← left.fold
    let r ← right.fold
    Folded.ofOperator op l r
  | .node (.function f) _ argument _ => do
    argument.demand .missingLeft
    let x ← argument.fold
    return Folded.ofFunction f x
  | .node (.invalid _) text _ _ | .node .error text _ _ => .error (.invalidNode text)

/-- The folded expression, if there is an expression. -/
def fold? : Tree → Except EvalError (Option Folded)
  | .absent => .ok none
  | t => t.fold.map some

/-- Whether folding gave a value. -/
def gaveValue (r : Except EvalError Folded) : Bool :=
  match r with
  | .ok f => f.isValue
  | .error _ => false

/-- How many operators and functions folding computes before it ends or fails. -/
def foldings : Tree → Nat
  | .node (.operator op) text left right =>
    match left.demand .missingLeft, right.demand .missingRight, left.fold with
    | .ok (), .ok (), .ok _ =>
      left.foldings + right.foldings
        + if gaveValue (node (.operator op) text left right).fold then 1 else 0
    | .ok (), .ok (), .error _ => left.foldings
    | _, _, _ => 0
  | .node (.function f) text argument right =>
    argument.foldings
      + if gaveValue (node (.function f) text argument right).fold then 1 else 0
  | _ => 0

end Tree

end Reckoner
