import Reckoner.Tree
import Reckoner.Bindings
import Reckoner.Arithmetic
import Reckoner.Literal.Value

/-!
# Evaluation

The value of an expression against bindings. Left operands come before right ones, and
the first problem ends the evaluation. An absent expression is worth zero; an absent
operand is a problem, found before either operand is evaluated.
-/

namespace Reckoner

/-- Why an expression has no value. -/
inductive EvalError
  | missingLeft
  | missingRight
  /-- a node that stands for nothing, with its text -/
  | invalidNode (text : String)
  /-- a literal whose text does not fit its format -/
  | badLiteral (format : Literal.Format) (text : String)
  /-- a variable without a value -/
  | unbound (name : String)
  | divisionByZero
deriving DecidableEq, Repr, Inhabited

namespace EvalError

/-- What a literal of a format is called when it is wrong. -/
def literalName : Literal.Format → String
  | .integer => "integer"
  | .decimal => "decimal"
  | .binary => "binary number"
  | .hexadecimal => "hexadecimal number"
  | .power => "exponential number"

/-- The wording of an error. -/
def message : EvalError → String
  | missingLeft => "operator or function is missing its left operand"
  | missingRight => "operator is missing its right operand"
  | invalidNode text => "invalid node '" ++ text ++ "' cannot be evaluated"
  | badLiteral format text => "invalid " ++ literalName format ++ " '" ++ text ++ "'"
  | unbound name => "variable '" ++ name ++ "' is not defined"
  | divisionByZero => "division by zero"

end EvalError

/-- The value of a literal, or the error that it is none. -/
def Literal.evaluate (format : Literal.Format) (text : String) : Except EvalError Float :=
  match Literal.value? format text with
  | some x => .ok x
  | none => .error (.badLiteral format text)

/-- The value of an operator, or the error that it has none. -/
def Operator.evaluate (op : Operator) (x y : Float) : Except EvalError Float :=
  match op.apply? x y with
  | some z => .ok z
  | none => .error .divisionByZero

/-- The value of a variable, or the error that it has none. -/
def Bindings.evaluate (b : Bindings) (name : String) : Except EvalError Float :=
  match b.get? name with
  | some x => .ok x
  | none => .error (.unbound name)

namespace Tree

/-- An error if the tree is absent. -/
def demand (t : Tree) (e : EvalError) : Except EvalError Unit :=
  match t with
  | .absent => .error e
  | .node .. => .ok ()

/-- The value of an expression. -/
def evaluate (b : Bindings) : Tree → Except EvalError Float
  | .absent => .ok 0.0
  | .node (.literal format) text _ _ => Literal.evaluate format text
  | .node .name text _ _ => b.evaluate text
  | .node (.operator op) _ left right => do
    left.demand .missingLeft
    right.demand .missingRight
    let x ← left.evaluate b
    let y ← right.evaluate b
    op.evaluate x y
  | .node (.function f) _ argument _ => do
    argument.demand .missingLeft
    let x ← argument.evaluate b
    return f.apply x
  | .node (.invalid _) text _ _ | .node .error text _ _ => .error (.invalidNode text)

end Tree

end Reckoner
