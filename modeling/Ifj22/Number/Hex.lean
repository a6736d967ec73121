import Ifj22.Number.Binary64
set_option autoImplicit false

/-!
# Number: doubles in hexadecimal

IFJcode22 writes a float constant in the hexadecimal form of C: a leading digit, the fraction in
hexadecimal without trailing zeros, and a signed power of two.  The form loses nothing.
-/

namespace Ifj22.Number

/-- A decimal exponent with its sign always written. -/
def signedText (e : Int) : String := if e < 0 then toString e else "+" ++ toString e

/-- The thirteen hexadecimal digits of a fraction, without trailing zeros. -/
def fractionDigits (fraction : Nat) : List Char :=
  let digits := Nat.toDigits 16 fraction
  ((List.replicate (13 - digits.length) '0' ++ digits).reverse.dropWhile (· == '0')).reverse

/-- The hexadecimal text of a double. -/
def hexText (x : Float) : String :=
  let f := Fields.ofFloat x
  if f.isNaN then "nan"
  else
    let sign := if f.negative then "-" else ""
    if f.isInfinite then sign ++ "inf"
    else if f.isZero then sign ++ "0x0p+0"
    else
      let lead := if f.biased = 0 then "0" else "1"
      let exponent : Int := if f.biased = 0 then -1022 else (f.biased : Int) - 1023
      let digits := fractionDigits f.fraction
      let point := if digits.isEmpty then "" else "." ++ String.ofList digits
      sign ++ "0x" ++ lead ++ point ++ "p" ++ signedText exponent

end Ifj22.Number
