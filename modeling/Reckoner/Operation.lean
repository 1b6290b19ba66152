/-!
# Operations

The binary operators and the one-argument functions of the expression language:
how each is written, and how tightly an operator binds. What they compute is in
`Reckoner.Arithmetic`.
-/

namespace Reckoner

/-- The binary operators. -/
inductive Operator
  | add | sub | mul | div | rem | or | xor | and
deriving DecidableEq, Repr, Inhabited

namespace Operator

/-- The character that stands for the operator. -/
def char : Operator → Char
  | add => '+'
  | sub => '-'
  | mul => '*'
  | div => '/'
  | rem => '%'
  | or => '|'
  | xor => '^'
  | and => '&'

/-- The written form of the operator. -/
def symbol (op : Operator) : String := op.char.toString

/-- The operator that a character stands for, if it stands for one. -/
def ofChar? : Char → Option Operator
  | '+' => some add
  | '-' => some sub
  | '*' => some mul
  | '/' => some div
  | '%' => some rem
  | '|' => some or
  | '^' => some xor
  | '&' => some and
  | _ => none

/-- The binding strength. Multiplication and division bind tighter than all the
    others, the remainder included. -/
def precedence : Operator → Nat
  | mul | div => 1
  | _ => 0

@[simp] theorem ofChar?_char (op : Operator) : ofChar? op.char = some op := by
  cases op <;> rfl

theorem char_eq_of_ofChar? {c : Char} {op : Operator} (h : ofChar? c = some op) :
    c = op.char := by
  unfold ofChar? at h
  split at h <;> simp_all <;> subst h <;> rfl

end Operator

/-- The functions of one argument. -/
inductive Function
  | sqrt | sin | cos | tan
deriving DecidableEq, Repr, Inhabited

namespace Function

/-- The name by which the function is called. -/
def name : Function → String
  | sqrt => "sqrt"
  | sin => "sin"
  | cos => "cos"
  | tan => "tan"

/-- How a call begins in the source: the name with its opening bracket. -/
def opener (f : Function) : String := f.name ++ "("

/-- The function whose call begins with a text, if there is one. -/
def ofOpener? : String → Option Function
  | "sqrt(" => some sqrt
  | "sin(" => some sin
  | "cos(" => some cos
  | "tan(" => some tan
  | _ => none

end Function

end Reckoner
