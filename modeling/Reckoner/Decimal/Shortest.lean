import Reckoner.Decimal

/-!
# Shortest decimals

A double stands for all the numbers that are nearer to it than to any other double. The
shortest decimal of a positive double is found among them: on the coarsest grid of
multiples of a power of ten that has a point there, it is the point nearest to the
double itself.

* `Rounding.ofBinary` is the interval of those numbers, in exact arithmetic;
* `Decimal.shortest?` searches the grids from the coarsest on.

Of two grid points that are equally near, a `Tie` says which is taken.
-/

namespace Reckoner

/-- Which of two equally near decimals is taken. -/
inductive Tie
  /-- the greater one -/
  | up
  /-- the one with the even significand -/
  | even
deriving DecidableEq, Repr, Inhabited

/-- A number and the interval around it that rounds to it, as multiples of a power of
    two. -/
structure Rounding where
  number : Nat
  lower : Nat
  upper : Nat
  /-- the power of two -/
  exponent : Int
  /-- whether the ends belong to the interval -/
  closed : Bool
deriving DecidableEq, Repr

namespace Rounding

/-- The least exponent of a double. -/
def leastExponent : Int := -1074

/-- Above the least exponent, the significands of doubles begin here and end below twice
    this number. -/
def leastNormal : Nat := 1 <<< 52

/-- The interval of the double `m * 2 ^ q`. It reaches half of the way to the doubles on
    both sides; below a power of two they are half as far apart. In a tie the even
    significand wins, so the ends belong to the interval of an even one. -/
def ofBinary (m : Nat) (q : Int) : Rounding :=
  let below := if m = leastNormal && leastExponent < q then 1 else 2
  ⟨4 * m, 4 * m - below, 4 * m + 2, q - 2, m % 2 = 0⟩

/-- Numerator and denominator of a power of two divided by a power of ten. -/
def ratio (two ten : Int) : Nat × Nat :=
  (Nat.pow 10 (-ten).toNat <<< two.toNat, Nat.pow 10 ten.toNat <<< (-two).toNat)

/-- Whether the multiple `d` of `10 ^ k` lies in the interval. -/
def contains (r : Rounding) (k : Int) (d : Nat) : Bool :=
  let (num, den) := ratio r.exponent k
  let point := d * den
  if r.closed then r.lower * num ≤ point && point ≤ r.upper * num
  else r.lower * num < point && point < r.upper * num

/-- The greatest multiple of `10 ^ k` that does not exceed the number. -/
def floor (r : Rounding) (k : Int) : Nat :=
  let (num, den) := ratio r.exponent k
  r.number * num / den

/-- Whether the number is nearer to `d + 1` than to `d`, as multiples of `10 ^ k`. -/
def prefersNext (tie : Tie) (r : Rounding) (k : Int) (d : Nat) : Bool :=
  let (num, den) := ratio r.exponent k
  let twice := 2 * (r.number * num)
  let middle := (2 * d + 1) * den
  middle < twice || (middle = twice && (tie = .up || d % 2 = 1))

/-- The multiple of `10 ^ k` in the interval that is nearest to the number, if there is
    one. Only the two neighbours of the number can be. -/
def nearest? (tie : Tie) (r : Rounding) (k : Int) : Option Nat :=
  let d := r.floor k
  match r.contains k d, r.contains k (d + 1) with
  | true, true => some (if r.prefersNext tie k d then d + 1 else d)
  | true, false => some d
  | false, true => some (d + 1)
  | false, false => none

end Rounding

namespace Decimal

/-- The point nearest to the number on the coarsest of some grids that has a point in the
    interval. The grids are the multiples of `10 ^ k`, `10 ^ (k - 1)` and so on. -/
def onCoarsest? (tie : Tie) (r : Rounding) : Nat → Int → Option Decimal
  | 0, _ => none
  | grids + 1, k =>
    match r.nearest? tie k with
    | some d => some ⟨d, k⟩
    | none => onCoarsest? tie r grids (k - 1)

/-- The greatest power of ten among the doubles. -/
def coarsest : Int := 308

/-- The number of powers of ten from the greatest down to the first that is smaller than
    any distance of two doubles. -/
def grids : Nat := 633

/-- The shortest decimal of the double `m * 2 ^ q`. -/
def shortest? (tie : Tie) (m : Nat) (q : Int) : Option Decimal :=
  onCoarsest? tie (.ofBinary m q) grids coarsest

end Decimal

end Reckoner
