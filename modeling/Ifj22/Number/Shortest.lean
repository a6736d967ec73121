import Ifj22.Number.Binary64
set_option autoImplicit false

/-!
# Number: the shortest decimal of a double

Every real in a small interval around a finite double rounds to that double.  Its shortest decimal
is the one with the fewest digits in that interval, and of those the one nearest to the double.
The search is exact: all quantities are scaled to natural numbers.
-/

namespace Ifj22.Number

/-- A positive decimal: `digits · 10 ^ exponent`. -/
structure Decimal where
  digits : Nat
  exponent : Int
  deriving DecidableEq, Repr, Inhabited

/-- A positive rational, as a quotient of natural numbers. -/
structure Quotient where
  num : Nat
  den : Nat
  deriving DecidableEq, Repr, Inhabited

/-- `n · base ^ e` as a quotient. -/
def scaled (n base : Nat) (e : Int) : Quotient :=
  match e with
  | .ofNat k => ⟨n * base ^ k, 1⟩
  | .negSucc k => ⟨n, base ^ (k + 1)⟩

/-- The reals that round to a double: its value in units of a quarter of its last place, and the
distances to the two ends in the same unit.  The ends belong to the interval if `closed`. -/
structure Interval where
  value : Nat
  below : Nat
  above : Nat
  unit : Int
  closed : Bool
  deriving DecidableEq, Repr, Inhabited

/-- The interval of a nonzero finite double.  Below a power of two the doubles stand twice as
close. -/
def Interval.ofFields (f : Fields) : Interval where
  value := 4 * f.mantissa
  below := if f.fraction = 0 ∧ 1 < f.biased then 1 else 2
  above := 2
  unit := f.scale - 2
  closed := f.mantissa % 2 == 0

namespace Interval

/-- A decimal and the interval's unit, brought to one denominator: the decimal's numerator and the
numerator of one unit. -/
def align (i : Interval) (d : Decimal) : Nat × Nat :=
  let left := scaled d.digits 10 d.exponent
  let right := scaled 1 2 i.unit
  (left.num * right.den, right.num * left.den)

/-- The decimal lies in the interval. -/
def has (i : Interval) (d : Decimal) : Bool :=
  let (n, u) := i.align d
  let lo := (i.value - i.below) * u
  let hi := (i.value + i.above) * u
  if i.closed then decide (lo ≤ n) && decide (n ≤ hi) else decide (lo < n) && decide (n < hi)

/-- The distance of a decimal from the double, over the common denominator of `align`. -/
def distance (i : Interval) (d : Decimal) : Nat :=
  let (n, u) := i.align d
  (n - i.value * u) + (i.value * u - n)

/-- The decimals next to the double on the grid of multiples of `10 ^ e`, below it first. -/
def neighbours (i : Interval) (e : Int) : Decimal × Decimal :=
  let value := scaled i.value 2 i.unit
  let step := scaled 1 10 e
  let n := value.num * step.den / (value.den * step.num)
  (⟨n, e⟩, ⟨n + 1, e⟩)

/-- The decimal in the interval on one grid, if there is one; of two the nearer, of two equally near
the larger. -/
def onGrid? (i : Interval) (e : Int) : Option Decimal :=
  let (lo, hi) := i.neighbours e
  if i.has lo && lo.digits != 0 then
    if i.has hi then
      if i.distance lo < i.distance hi then some lo else some hi
    else some lo
  else if i.has hi then some hi
  else none

/-- The exponent of the leading decimal digit of the double. -/
def leadingExponent (i : Interval) : Int :=
  let value := scaled i.value 2 i.unit
  let digitsOf (n : Nat) : Nat := (Nat.toDigits 10 n).length
  let guess : Int := (digitsOf value.num : Int) - (digitsOf value.den : Int)
  let power := scaled 1 10 guess
  if power.num * value.den ≤ value.num * power.den then guess else guess - 1

/-- The shortest decimal of the interval: the first grid that meets it, from the coarsest on.
Seventeen digits always suffice. -/
def shortest (i : Interval) : Decimal :=
  ((List.range 17).findSome? fun k : Nat => i.onGrid? (i.leadingExponent - k)).getD
    (i.neighbours (i.leadingExponent - 16)).1

end Interval

end Ifj22.Number
