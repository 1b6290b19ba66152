import Reckoner.Literal
import Reckoner.Decimal
import Reckoner.Double
import Reckoner.Digit

/-!
# Values of literals

`Literal.value?` reads the whole text of a literal. Each format has its grammar, and
any other text has no value, not even with one character too many:

* an integer is digits, a decimal is digits, a point, and perhaps digits;
* base-two and base-sixteen digits follow `0b` and `0x`, one at least, and write a
  number below `2 ^ 64`;
* a power is an integer or decimal, a caret and an integer.

Each may have a minus sign, an exponent too. Values are the nearest doubles, infinity
where digits go beyond them. The sign of a zero is kept.
-/

namespace Reckoner.Literal

/-- A text with and without the minus sign it may begin with. -/
def unsigned : List Char → Bool × List Char
  | '-' :: cs => (true, cs)
  | cs => (false, cs)

/-- Digits and nothing else, one at least. -/
def isDigits (isDigit : Char → Bool) (cs : List Char) : Bool := !cs.isEmpty && cs.all isDigit

/-- The value of digits without a sign. -/
def whole? (cs : List Char) : Option Decimal :=
  if isDigits Char.isDigit cs then some (.ofDigits cs []) else none

/-- The value of digits with a point among or after them. -/
def pointed? (cs : List Char) : Option Decimal :=
  let whole := cs.takeWhile Char.isDigit
  match cs.dropWhile Char.isDigit with
  | '.' :: fraction =>
    if !whole.isEmpty && fraction.all Char.isDigit then some (.ofDigits whole fraction) else none
  | _ => none

/-- The value of an unsigned text under a minus sign that it may begin with. -/
def signed? (value? : List Char → Option Float) (cs : List Char) : Option Float :=
  let (negative, body) := unsigned cs
  (value? body).map (withSign negative)

/-- The value of an integer. -/
def integer? : List Char → Option Float := signed? fun cs => (whole? cs).map Decimal.toFloat

/-- The value of a decimal. -/
def decimal? : List Char → Option Float := signed? fun cs => (pointed? cs).map Decimal.toFloat

/-- The double nearest to a number below `2 ^ 64`. -/
def word? (n : Nat) : Option Float :=
  if n < UInt64.size then some n.toUInt64.toFloat else none

/-- The value of a base-sixteen literal. -/
def hexadecimal? : List Char → Option Float :=
  signed? fun
    | '0' :: 'x' :: cs => if isDigits Digit.isHex cs then word? (Digit.ofHex cs) else none
    | _ => none

/-- The value of a base-two literal. -/
def binary? : List Char → Option Float :=
  signed? fun
    | '0' :: 'b' :: cs =>
      if isDigits Digit.isBinary cs then word? (Nat.ofDigitChars 2 cs 0) else none
    | _ => none

/-- The base and the exponent of a power. -/
def operands? (cs : List Char) : Option (Float × Float) :=
  match cs.dropWhile (· ≠ '^') with
  | _ :: exponent => do
    let base := cs.takeWhile (· ≠ '^')
    let x ← (integer? base).or (decimal? base)
    let y ← integer? exponent
    return (x, y)
  | [] => none

/-- The value of a power. -/
def power? (cs : List Char) : Option Float := (operands? cs).map fun (x, y) => x.pow y

/-- The value of a text in a format, if it is a text of that format. -/
def value? (format : Format) (text : String) : Option Float :=
  match format with
  | .integer => integer? text.toList
  | .decimal => decimal? text.toList
  | .binary => binary? text.toList
  | .hexadecimal => hexadecimal? text.toList
  | .power => power? text.toList

end Reckoner.Literal
