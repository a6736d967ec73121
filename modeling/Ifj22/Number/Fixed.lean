import Ifj22.Number.Binary64
set_option autoImplicit false

/-!
# Number: doubles with at most six decimal places

In a string context a double is written with up to six decimal places, rounded half up on its
magnitude, without trailing zeros, and without a sign if all its digits are zero.
-/

namespace Ifj22.Number

/-- The magnitude of a double in millionths, rounded. -/
def millionths (x : Float) : Nat := (truncate (x.abs * 1000000.0 + 0.5)).toInt.toNat

/-- Six decimal places, most significant first, without trailing zeros. -/
def placesText (fraction : Nat) : List Char :=
  let digits := Nat.toDigits 10 fraction
  ((List.replicate (6 - digits.length) '0' ++ digits).reverse.dropWhile (· == '0')).reverse

/-- The text of a double in a string context. -/
def fixedText (x : Float) : String :=
  let scaled := millionths x
  let sign := if x < 0.0 && scaled != 0 then "-" else ""
  let whole := toString (scaled / 1000000)
  let fraction := scaled % 1000000
  if fraction = 0 then sign ++ whole
  else sign ++ whole ++ "." ++ String.ofList (placesText fraction)

end Ifj22.Number
