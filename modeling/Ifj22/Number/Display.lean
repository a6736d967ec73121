import Ifj22.Number.Shortest
set_option autoImplicit false

/-!
# Number: doubles in tree dumps

A dump shows a double by its shortest decimal.  From one ten-thousandth up to ten to the sixteenth
it is written positionally and keeps a digit behind the point; outside it has one digit before the
point, the others behind it, and a power of ten.
-/

namespace Ifj22.Number

/-- The least power of ten that is written positionally, and the least above it that is not. -/
def positionalFrom : Int := -4

@[inherit_doc positionalFrom]
def positionalBelow : Int := 16

/-- The digits of a decimal without trailing zeros, and the power of ten of the first of them. -/
def Decimal.leading (d : Decimal) : List Char × Int :=
  let all := Nat.toDigits 10 d.digits
  ((all.reverse.dropWhile (· == '0')).reverse, d.exponent + (all.length : Int) - 1)

/-- Digits whose first one counts `10 ^ e`, written with a point and no power of ten. -/
def positional (digits : List Char) (e : Int) : List Char :=
  match e with
  | .negSucc k => '0' :: '.' :: (List.replicate k '0' ++ digits)
  | .ofNat k =>
    let whole := digits.take (k + 1)
    let rest := digits.drop (k + 1)
    whole ++ List.replicate (k + 1 - whole.length) '0'
      ++ '.' :: (if rest.isEmpty then ['0'] else rest)

/-- Digits whose first one counts `10 ^ e`, written with that power of ten. -/
def exponential (digits : List Char) (e : Int) : List Char :=
  digits.take 1 ++ (if digits.length ≤ 1 then [] else '.' :: digits.drop 1)
    ++ 'e' :: (toString e).toList

/-- The text of a double in a tree dump. -/
def displayText (x : Float) : String :=
  let f := Fields.ofFloat x
  if f.isNaN then "NaN"
  else
    let sign := if f.negative then "-" else ""
    if f.isInfinite then sign ++ "inf"
    else if f.isZero then sign ++ "0.0"
    else
      let (digits, e) := (Interval.ofFields f).shortest.leading
      sign ++ String.ofList
        (if positionalFrom ≤ e ∧ e < positionalBelow then positional digits e
         else exponential digits e)

end Ifj22.Number
