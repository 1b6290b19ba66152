import Reckoner.Decimal.Shortest
import Reckoner.Double

/-!
# Numerals

A numeral is a number as it is written: a sign, digits before and after a point, and
perhaps a power of ten. A `Numeral.Style` says how doubles are written.

* `Numeral.ofFloat?` writes a finite double with the fewest digits that still tell it
  from all other doubles;
* `Numeral.render` is the text of a numeral.
-/

namespace Reckoner

/-- How the exponent of a numeral is signed. -/
inductive Numeral.Sign
  | unsigned | plus | minus
deriving DecidableEq, Repr, Inhabited

/-- The exponent of a numeral. -/
structure Numeral.Exponent where
  sign : Numeral.Sign
  digits : List Char
deriving DecidableEq, Repr, Inhabited

/-- A number as it is written. -/
structure Numeral where
  negative : Bool
  whole : List Char
  fraction : Option (List Char)
  exponent : Option Numeral.Exponent
deriving DecidableEq, Repr, Inhabited

namespace Numeral

/-! ## Text -/

/-- The text of a sign. -/
def Sign.chars : Sign → List Char
  | unsigned => []
  | plus => ['+']
  | minus => ['-']

/-- The characters of a numeral. -/
def chars (n : Numeral) : List Char :=
  (if n.negative then ['-'] else []) ++ n.whole
    ++ (match n.fraction with
      | some ds => '.' :: ds
      | none => [])
    ++ (match n.exponent with
      | some e => 'e' :: e.sign.chars ++ e.digits
      | none => [])

/-- The text of a numeral. -/
def render (n : Numeral) : String := String.ofList n.chars

/-- The exponent as a number. -/
def Exponent.value (e : Exponent) : Int :=
  let n : Nat := Nat.ofDigitChars 10 e.digits 0
  if e.sign = .minus then -n else n

/-! ## Writing doubles -/

/-- A way to write doubles. -/
structure Style where
  /-- which of two equally near decimals is written -/
  tie : Tie
  /-- whether a number is written without an exponent, given the power of ten of its
      first digit -/
  isPlain : Int → Bool
  /-- whether a whole number without an exponent has a zero after the point -/
  keepsPoint : Bool

/-- Zeros. -/
def zeros (n : Nat) : List Char := List.replicate n '0'

/-- Digits with a point after the first `point` of them. Zeros fill the places that the
    digits leave open. -/
def plain (style : Style) (negative : Bool) (digits : List Char) (point : Int) : Numeral :=
  if digits.length ≤ point then
    ⟨negative, digits ++ zeros (point.toNat - digits.length),
      if style.keepsPoint then some ['0'] else none, none⟩
  else if 0 < point then
    ⟨negative, digits.take point.toNat, some (digits.drop point.toNat), none⟩
  else ⟨negative, ['0'], some (zeros (-point).toNat ++ digits), none⟩

/-- Digits with a point after the first of them, times a power of ten. -/
def scientific (negative : Bool) (digits : List Char) (power : Int) : Numeral :=
  let sign := if power < 0 then .minus else .plus
  ⟨negative, digits.take 1, if digits.length ≤ 1 then none else some (digits.drop 1),
    some ⟨sign, Nat.toDigits 10 power.natAbs⟩⟩

/-- A decimal number in a style. -/
def ofDecimal (style : Style) (negative : Bool) (d : Decimal) : Numeral :=
  let digits := Nat.toDigits 10 d.significand
  let power := d.exponent + digits.length - 1
  if style.isPlain power then plain style negative digits (power + 1)
  else scientific negative digits power

/-- A finite double in a style. -/
def ofFloat? (style : Style) (x : Float) : Option Numeral :=
  match unpack x with
  | .zero sign => some (plain style (sign == .negative) ['0'] 1)
  | .finite sign m e _ =>
    (Decimal.shortest? style.tie m e).map (ofDecimal style (sign == .negative))
  | .infinity _ | .notANumber => none

/-! ## Results -/

/-- Results are written without exponents, and whole numbers without a point. -/
def plainStyle : Style := ⟨.up, fun _ => true, false⟩

/-- The text of a result. -/
def ofResult (x : Float) : String :=
  match ofFloat? plainStyle x with
  | some n => n.render
  | none => if x.isNaN then "NaN" else if x < 0.0 then "-inf" else "inf"

end Numeral

end Reckoner
