/-!
# Digits

Characters as digits of base two and base sixteen. For base ten the core functions
`Char.isDigit`, `Nat.ofDigitChars` and `Nat.toDigits` serve.
-/

namespace Reckoner.Digit

/-- The digits of base two. -/
def isBinary (c : Char) : Bool := c = '0' || c = '1'

/-- The digits of base sixteen, in either case. -/
def isHex (c : Char) : Bool :=
  c.isDigit || ('a' ≤ c && c ≤ 'f') || ('A' ≤ c && c ≤ 'F')

/-- The value of a digit of base sixteen. -/
def hexValue (c : Char) : Nat :=
  if c.isDigit then c.toNat - '0'.toNat
  else if 'a' ≤ c then c.toNat - 'a'.toNat + 10
  else c.toNat - 'A'.toNat + 10

/-- The number that digits of base sixteen write, the most significant first. -/
def ofHex (cs : List Char) : Nat := cs.foldl (fun n c => 16 * n + hexValue c) 0

end Reckoner.Digit
