/-!
# Doubles

A double as a sign, a natural significand and a power of two, and back. The exact parts
of arithmetic, of writing and of reading numbers are done on that form.
-/

namespace Reckoner

open Float.Model (UnpackedFloat)

/-- The sign, the significand and the exponent of a double. -/
def unpack (x : Float) : UnpackedFloat := x.toModel.unpack

/-- The double nearest to a number that is given by sign, significand and exponent. -/
def pack (sign : UnpackedFloat.Sign) (significand : Nat) (exponent : Int) : Float :=
  .ofModel (.pack (.round .binary64 sign significand exponent))

/-- The double with the opposite sign, if there is a minus sign. -/
def withSign (negative : Bool) (x : Float) : Float := if negative then -x else x

/-- Infinity. -/
def infinity : Float := 1.0 / 0.0

/-- What is no number. -/
def notANumber : Float := 0.0 / 0.0

end Reckoner
