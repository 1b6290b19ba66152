import Reckoner.Tree
import Reckoner.Json.Shape
import Reckoner.Json.Reader
import Reckoner.Json.Printer

/-!
# Trees as JSON

A node is a record of its kind, its text and its subtrees, which are `null` where they
are absent and may be left out. What has no nodes is no record, so an absent tree can be
written but not read.
-/

namespace Reckoner

/-! ## Names -/

/-- The name of a format. -/
def Literal.Format.tag : Literal.Format → String
  | integer => "Int"
  | decimal => "Dec"
  | binary => "Bin"
  | hexadecimal => "Hex"
  | power => "Exp"

/-- The format with a name. -/
def Literal.Format.ofTag? : String → Option Literal.Format
  | "Int" => some .integer
  | "Dec" => some .decimal
  | "Bin" => some .binary
  | "Hex" => some .hexadecimal
  | "Exp" => some .power
  | _ => none

/-- The name of an operator. -/
def Operator.tag : Operator → String
  | add => "Add"
  | sub => "Sub"
  | mul => "Mult"
  | div => "Div"
  | rem => "Mod"
  | or => "Or"
  | xor => "Xor"
  | and => "And"

/-- The operator with a name. -/
def Operator.ofTag? : String → Option Operator
  | "Add" => some .add
  | "Sub" => some .sub
  | "Mult" => some .mul
  | "Div" => some .div
  | "Mod" => some .rem
  | "Or" => some .or
  | "Xor" => some .xor
  | "And" => some .and
  | _ => none

/-- The name of a function. -/
def Function.tag : Function → String
  | sqrt => "Sqrt"
  | sin => "Sin"
  | cos => "Cos"
  | tan => "Tan"

/-- The function with a name. -/
def Function.ofTag? : String → Option Function
  | "Sqrt" => some .sqrt
  | "Sin" => some .sin
  | "Cos" => some .cos
  | "Tan" => some .tan
  | _ => none

/-- The name of a defect. -/
def Tree.Defect.tag : Tree.Defect → String
  | number => "Number"
  | name => "Variable"
  | operator => "Operator"
  | function => "Function"

/-- The defect with a name. -/
def Tree.Defect.ofTag? : String → Option Tree.Defect
  | "Number" => some .number
  | "Variable" => some .name
  | "Operator" => some .operator
  | "Function" => some .function
  | _ => none

@[simp] theorem Literal.Format.ofTag?_tag (f : Literal.Format) : ofTag? f.tag = some f := by
  cases f <;> rfl

@[simp] theorem Operator.ofTag?_tag (op : Operator) : ofTag? op.tag = some op := by
  cases op <;> rfl

@[simp] theorem Function.ofTag?_tag (f : Function) : ofTag? f.tag = some f := by
  cases f <;> rfl

@[simp] theorem Tree.Defect.ofTag?_tag (d : Tree.Defect) : ofTag? d.tag = some d := by
  cases d <;> rfl

namespace Tree

/-! ## Writing -/

/-- A kind as JSON. -/
def Kind.toJson : Kind → Json
  | literal format => .ofVariant "Literal" (.ofString format.tag)
  | name => .ofString "Variable"
  | operator op => .ofVariant "Operator" (.ofString op.tag)
  | function f => .ofVariant "Function" (.ofString f.tag)
  | invalid defect => .ofVariant "Invalid" (.ofString defect.tag)
  | error => .ofString "Error"

/-- A tree as JSON. -/
def toJson : Tree → Json
  | absent => .null
  | node kind text left right =>
    .ofFields [("kind", kind.toJson), ("text", .ofString text), ("left", left.toJson),
      ("right", right.toJson)]

/-- A tree as JSON text. -/
def toJsonText (t : Tree) : String := t.toJson.pretty

/-! ## Reading -/

/-- The kind that a name and the name of its detail stand for. -/
def Kind.ofTags? (tag detail : String) : Option Kind :=
  match tag with
  | "Literal" => (Literal.Format.ofTag? detail).map literal
  | "Operator" => (Operator.ofTag? detail).map operator
  | "Function" => (Function.ofTag? detail).map function
  | "Invalid" => (Defect.ofTag? detail).map invalid
  | _ => none

/-- The kind without details that a name stands for. -/
def Kind.ofTag? : String → Option Kind
  | "Variable" => some name
  | "Error" => some error
  | _ => none

/-- The kind that a value describes, with a number of containers that may be opened. -/
def Kind.ofJson? (budget : Nat) (v : Json) : Option Kind :=
  match v.tag? budget with
  | some tag => ofTag? tag
  | none =>
    match budget with
    | 0 => none
    | budget + 1 => do
      let (tag, contents) ← v.variant?
      let detail ← contents.tag? budget
      ofTags? tag detail

/-- A subtree, by a reader of nodes. What is missing or `null` is absent. -/
def optional? (node? : Json → Option Tree) : Option Json → Option Tree
  | none | some .null => some .absent
  | some v => node? v

/-- The tree that a value describes, with a number of containers that may be opened. -/
def ofJson? : Nat → Json → Option Tree
  | 0, _ => none
  | budget + 1, v => do
    let [kind, text, left, right] ← v.record? ["kind", "text", "left", "right"] | none
    let kind ← Kind.ofJson? budget (← kind)
    let text ← (← text).toText?
    let left ← optional? (ofJson? budget) left
    let right ← optional? (ofJson? budget) right
    return .node kind text left right

/-- The tree that a text describes. -/
def ofJsonText? (text : String) : Option Tree := do
  ofJson? Json.nestingLimit (← Json.read? text)

end Tree

end Reckoner
