/-!
# Decimal numbers

A decimal number is a natural number times a power of ten. It stands between the texts
that write numbers and the doubles that are computed with: the value of a text is the
double nearest to its decimal.
-/

namespace Reckoner

/-- The number `significand * 10 ^ exponent`. -/
structure Decimal where
  significand : Nat
  exponent : Int
deriving DecidableEq, Repr, Inhabited

namespace Decimal

/-- The number with some digits before and some after the point. -/
def ofDigits (whole fraction : List Char) : Decimal :=
  ⟨Nat.ofDigitChars 10 (whole ++ fraction) 0, -fraction.length⟩

/-- The number times a power of ten. -/
def scale (d : Decimal) (power : Int) : Decimal := { d with exponent := d.exponent + power }

/-- The double nearest to the number, or infinity beyond the range of doubles. Of two
    doubles that are equally near it is the one with the even significand. -/
def toFloat (d : Decimal) : Float :=
  match d.exponent with
  | .ofNat e => .ofScientific d.significand false e
  | .negSucc e => .ofScientific d.significand true (e + 1)

end Decimal

end Reckoner
