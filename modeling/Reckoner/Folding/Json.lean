import Reckoner.Folding
import Reckoner.Tree.Json
import Reckoner.Json.Number

/-!
# Folded expressions as JSON

Each node is a variant. A computed value is a number, and `null` where it is not finite,
which cannot be read back.
-/

namespace Reckoner.Folded

/-- A folded expression as JSON. -/
def toJson : Folded → Json
  | value x => .ofVariant "Resolved" (.ofFloat x)
  | name text => .ofVariant "Variable" (.ofFields [("name", .ofString text)])
  | operator op left right =>
    .ofVariant "Operator"
      (.ofFields [("op", .ofString op.tag), ("left", left.toJson), ("right", right.toJson)])
  | function f argument =>
    .ofVariant "Function"
      (.ofFields [("function", .ofString f.tag), ("argument", argument.toJson)])

/-- A folded expression as JSON text. -/
def toJsonText (f : Folded) : String := f.toJson.pretty

/-- The folded expression that a value describes, with a number of containers that may be
    opened. A node opens one for the variant, and one for the record inside. -/
def ofJson? : Nat → Json → Option Folded
  | 0, _ => none
  | 1, v => do
    let ("Resolved", x) ← v.variant? | none
    return value (← x.toFloat?)
  | budget + 2, v => do
    match ← v.variant? with
    | ("Resolved", x) => return value (← x.toFloat?)
    | ("Variable", v) =>
      let [text] ← v.record? ["name"] | none
      return name (← (← text).toText?)
    | ("Operator", v) =>
      let [op, left, right] ← v.record? ["op", "left", "right"] | none
      let op ← Operator.ofTag? (← (← op).tag? budget)
      let left ← ofJson? budget (← left)
      let right ← ofJson? budget (← right)
      return operator op left right
    | ("Function", v) =>
      let [f, argument] ← v.record? ["function", "argument"] | none
      let f ← Function.ofTag? (← (← f).tag? budget)
      let argument ← ofJson? budget (← argument)
      return function f argument
    | _ => none

/-- The folded expression that a text describes. -/
def ofJsonText? (text : String) : Option Folded := do
  ofJson? Json.nestingLimit (← Json.read? text)

end Reckoner.Folded
