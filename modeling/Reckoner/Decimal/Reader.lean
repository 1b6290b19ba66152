import Reckoner.Decimal
import Reckoner.Double

/-!
# Reading doubles

`Decimal.readFloat?` reads a number as a person may type it: a sign of either kind, then
digits with a point before, among or after them and perhaps an exponent, or the name of
infinity or of what is no number, in any case of letters. The double is the one nearest
to the number.
-/

namespace Reckoner.Decimal

/-- Splits off a sign. The answer is whether it is a minus. -/
def sign : List Char → Bool × List Char
  | '-' :: cs => (true, cs)
  | '+' :: cs => (false, cs)
  | cs => (false, cs)

/-- Splits off a point with digits. -/
def fraction : List Char → List Char × List Char
  | '.' :: cs => (cs.takeWhile Char.isDigit, cs.dropWhile Char.isDigit)
  | cs => ([], cs)

/-- The exponent that makes up the rest of a number, zero if nothing is left. -/
def exponent? : List Char → Option Int
  | [] => some 0
  | c :: cs =>
    let (negative, ds) := sign cs
    if (c = 'e' || c = 'E') && !ds.isEmpty && ds.all Char.isDigit then
      let n : Nat := Nat.ofDigitChars 10 ds 0
      some (if negative then -n else n)
    else none

/-- A number without a sign. -/
def unsigned? (cs : List Char) : Option Decimal := do
  let whole := cs.takeWhile Char.isDigit
  let (fraction, rest) := fraction (cs.dropWhile Char.isDigit)
  if whole.isEmpty && fraction.isEmpty then none
  let power ← exponent? rest
  return (ofDigits whole fraction).scale power

/-- The doubles that have names. -/
def named? (cs : List Char) : Option Float :=
  match String.ofList (cs.map Char.toLower) with
  | "inf" | "infinity" => some infinity
  | "nan" => some notANumber
  | _ => none

/-- The double that characters write, if they write one. -/
def readFloat? (cs : List Char) : Option Float :=
  let (negative, body) := sign cs
  ((named? body).or ((unsigned? body).map toFloat)).map (withSign negative)

end Reckoner.Decimal
