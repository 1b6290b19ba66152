/-!
# Literal formats

The five ways in which a number may be written in an expression. Which numbers
the texts stand for is in `Reckoner.Literal.Value`.
-/

namespace Reckoner.Literal

/-- The formats of number literals. -/
inductive Format
  /-- decimal digits, as in `42` -/
  | integer
  /-- digits around a point, as in `4.2` -/
  | decimal
  /-- base-two digits after `0b` -/
  | binary
  /-- base-sixteen digits after `0x` -/
  | hexadecimal
  /-- a base and an exponent joined by a caret, as in `2^10` -/
  | power
deriving DecidableEq, Repr, Inhabited

end Reckoner.Literal
