import Reckoner.Json

/-!
# Numbers in JSON

Doubles are written with the fewest digits that tell them from all others, with a point
and without an exponent in the middle range, and with an exponent beyond it.

Numerals are read with one word of digits: the leading digits that make a number below
`2 ^ 64`. Further digits before the point count as zeros, and further digits after it
are left out. That number becomes a double and is multiplied or divided by the power of
ten, each of the steps rounding; so a numeral with many digits may be read as a
neighbour of the double nearest to it. A numeral beyond the range of doubles has no
value.
-/

namespace Reckoner

namespace Numeral

/-- Numbers from `0.00001` to below `10 ^ 16` are written without an exponent, and whole
    ones keep a zero after the point. -/
def jsonStyle : Style := ⟨.even, fun power => -5 ≤ power && power ≤ 15, true⟩

/-- Leading digits as a number below `2 ^ 64`, and the digits that would lead beyond. -/
def takeWord (n : Nat) : List Char → Nat × List Char
  | [] => (n, [])
  | c :: cs =>
    let next := 10 * n + (c.toNat - '0'.toNat)
    if next < UInt64.size then takeWord next cs else (n, c :: cs)

/-- The numeral as a number below `2 ^ 64` and a power of ten. -/
def toWord (n : Numeral) : Decimal :=
  let (whole, beyond) := takeWord 0 n.whole
  let fraction := n.fraction.getD []
  let (word, rest) := takeWord whole fraction
  let power := (n.exponent.map Exponent.value).getD 0
  ⟨word, beyond.length - (fraction.length - rest.length : Nat) + power⟩

/-- The greatest power of ten among the doubles has this exponent. -/
def greatestPower : Nat := 308

/-- A power of ten as a double. -/
def powerOfTen (e : Nat) : Float := .ofScientific 1 false e

/-- A double divided by a power of ten, in steps that are powers of ten themselves. -/
def dividePower (x : Float) (e : Nat) : Float :=
  if e ≤ greatestPower then x / powerOfTen e
  else if x == 0.0 then x
  else dividePower (x / powerOfTen greatestPower) (e - greatestPower)
termination_by e
decreasing_by simp only [greatestPower] at *; omega

/-- A double multiplied by a power of ten, if the product is in range. -/
def multiplyPower? (x : Float) (e : Nat) : Option Float :=
  if e ≤ greatestPower then
    let y := x * powerOfTen e
    if y.isInf then none else some y
  else if x == 0.0 then some x
  else none

/-- The double of a number below `2 ^ 64` times a power of ten, if it is in range. -/
def scaled? (word : Nat) : Int → Option Float
  | .ofNat e => multiplyPower? word.toUInt64.toFloat e
  | .negSucc e => some (dividePower word.toUInt64.toFloat (e + 1))

/-- The value of a numeral, if it is in range. -/
def value? (n : Numeral) : Option Float :=
  let d := n.toWord
  (scaled? d.significand d.exponent).map (withSign n.negative)

end Numeral

namespace Json

/-- A double as a value, `null` if it is not finite. -/
def ofFloat (x : Float) : Json :=
  match Numeral.ofFloat? Numeral.jsonStyle x with
  | some n => .number n
  | none => .null

/-- The double that a value is. -/
def toFloat? : Json → Option Float
  | .number n => n.value?
  | _ => none

end Json

end Reckoner
