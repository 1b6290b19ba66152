import Reckoner.Operation
import Reckoner.Double

/-!
# Arithmetic

What operators and functions compute on doubles.

* `remainder` is the exact remainder of a division truncated toward zero;
* the bitwise operators work on 64-bit integers in two's complement, after `truncate`;
* `Operator.apply?` has no answer exactly where a divisor is zero;
* `Function.apply` always has one, which may be no number.
-/

namespace Reckoner

/-! ## Remainders -/

/-- What is left of `a` after taking away `b` as often as it fits. It has the sign of `a`
    and is less than `b` in size. Both are brought to one exponent, where the remainder
    is one of natural numbers, so that nothing is rounded. -/
def remainder (a b : Float) : Float :=
  match unpack a, unpack b with
  | .finite sign m e _, .finite _ n f _ =>
    let g := min e f
    pack sign ((m <<< (e - g).toNat) % (n <<< (f - g).toNat)) g
  | .finite .., .infinity _ | .zero _, .finite .. | .zero _, .infinity _ => a
  | _, _ => notANumber

/-! ## Bits -/

/-- The integer nearest to zero that 64 bits hold and that is at most one away from `x`,
    toward zero. Numbers out of range go to the end of the range, and zero stands for
    what is no number. -/
def truncate (x : Float) : Int :=
  let least := Int64.minValue.toInt
  let greatest := Int64.maxValue.toInt
  match unpack x with
  | .finite sign m e _ =>
    let size := if 0 ≤ e then m <<< e.toNat else m >>> (-e).toNat
    match sign with
    | .negative => max least (-size)
    | .positive => min greatest size
  | .infinity .negative => least
  | .infinity .positive => greatest
  | .zero _ | .notANumber => 0

/-- An operation on the bits of the truncated operands. -/
def bitwise (f : BitVec 64 → BitVec 64 → BitVec 64) (a b : Float) : Float :=
  .ofInt (f (.ofInt 64 (truncate a)) (.ofInt 64 (truncate b))).toInt

/-! ## Operations -/

/-- The value of an operator. A divisor of zero has none, whatever its sign. -/
def Operator.apply? (op : Operator) (a b : Float) : Option Float :=
  match op with
  | .add => some (a + b)
  | .sub => some (a - b)
  | .mul => some (a * b)
  | .div => if b == 0.0 then none else some (a / b)
  | .rem => if b == 0.0 then none else some (remainder a b)
  | .or => some (bitwise (· ||| ·) a b)
  | .xor => some (bitwise (· ^^^ ·) a b)
  | .and => some (bitwise (· &&& ·) a b)

/-- The value of a function. -/
def Function.apply (f : Function) (x : Float) : Float :=
  match f with
  | .sqrt => x.sqrt
  | .sin => x.sin
  | .cos => x.cos
  | .tan => x.tan

end Reckoner
