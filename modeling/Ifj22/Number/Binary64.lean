set_option autoImplicit false

/-!
# Number: the parts of a double

A double is taken apart by its bits: a sign, a biased exponent of 11 bits and a fraction of 52
bits.  The magnitude of a finite double is `mantissa · 2 ^ scale` for the numbers given here, so
conversions and texts of doubles can be computed exactly in the natural numbers.
-/

namespace Ifj22.Number

-- powers of numbers are those of core, whatever algebra is imported
attribute [instance (high), default_instance high + 1] instPowNat

/-- The three bit fields of a double. -/
structure Fields where
  negative : Bool
  biased : Nat
  fraction : Nat
  deriving DecidableEq, Repr, Inhabited

namespace Fields

/-- The fields of a bit pattern. -/
def ofBits (bits : UInt64) : Fields where
  negative := decide (2 ^ 63 ≤ bits.toNat)
  biased := bits.toNat / 2 ^ 52 % 2 ^ 11
  fraction := bits.toNat % 2 ^ 52

/-- The fields of a double. -/
def ofFloat (x : Float) : Fields := ofBits x.toBits

/-- The pattern stands for no number. -/
def isNaN (f : Fields) : Bool := f.biased == 2047 && f.fraction != 0

/-- The pattern stands for an infinity. -/
def isInfinite (f : Fields) : Bool := f.biased == 2047 && f.fraction == 0

/-- The pattern stands for a zero of either sign. -/
def isZero (f : Fields) : Bool := f.biased == 0 && f.fraction == 0

/-- The integral significand of a finite double. -/
def mantissa (f : Fields) : Nat := if f.biased = 0 then f.fraction else f.fraction + 2 ^ 52

/-- The power of two that scales the mantissa of a finite double. -/
def scale (f : Fields) : Int := if f.biased = 0 then -1074 else (f.biased : Int) - 1075

/-- The integral part of the magnitude of a finite double. -/
def wholeMagnitude (f : Fields) : Nat :=
  match f.scale with
  | .ofNat k => f.mantissa * 2 ^ k
  | .negSucc k => f.mantissa / 2 ^ (k + 1)

end Fields

/-- The nearest word toward zero; out of range it is the least or greatest word, and what is no
number counts as zero. -/
def truncate (x : Float) : Int64 :=
  let f := Fields.ofFloat x
  if f.isNaN then 0
  else if f.isInfinite then (if f.negative then Int64.minValue else Int64.maxValue)
  else Int64.ofIntClamp (if f.negative then - (f.wholeMagnitude : Int) else f.wholeMagnitude)

/-- The double nearest to a word. -/
def ofWord (w : Int64) : Float := Float.ofInt w.toInt

end Ifj22.Number
