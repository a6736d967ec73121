set_option autoImplicit false

/-!
# Number: reading a double

A double is read from a decimal with an optional sign, point and exponent, or from one of the names
of the infinities and of the value that is no number.  The result is the double nearest to the
decimal.
-/

namespace Ifj22.Number

/-- The value of a list of decimal digits. -/
def digitsValue (digits : List Char) : Nat :=
  digits.foldl (fun n c => n * 10 + (c.toNat - '0'.toNat)) 0

/-- The double nearest to `m · 10 ^ e`.  Decimals far outside the range of doubles are settled by
their magnitude alone. -/
def nearest (m : Nat) (e : Int) : Float :=
  let magnitude := ((Nat.toDigits 10 m).length : Int) + e
  if m = 0 ∨ magnitude < -400 then 0.0
  else if 400 < magnitude then 1.0 / 0.0
  else match e with
    | .ofNat k => Float.ofScientific m false k
    | .negSucc k => Float.ofScientific m true (k + 1)

/-- Reads an exponent: an optional sign and at least one digit. -/
def readExponent? (text : List Char) : Option Int :=
  let (negative, digits) := match text with
    | '-' :: rest => (true, rest)
    | '+' :: rest => (false, rest)
    | _ => (false, text)
  if digits.isEmpty || !digits.all Char.isDigit then none
  else some (if negative then - (digitsValue digits : Int) else digitsValue digits)

/-- Reads an unsigned decimal: digits with an optional point among, before or behind them, and an
optional exponent. -/
def readDecimal? (text : List Char) : Option Float :=
  let whole := text.takeWhile Char.isDigit
  let behind := text.dropWhile Char.isDigit
  let (places, rest) := match behind with
    | '.' :: r => (r.takeWhile Char.isDigit, r.dropWhile Char.isDigit)
    | _ => ([], behind)
  if whole.isEmpty && places.isEmpty then none
  else
    let exponent? := match rest with
      | [] => some 0
      | c :: r => if c = 'e' ∨ c = 'E' then readExponent? r else none
    exponent?.map fun e => nearest (digitsValue (whole ++ places)) (e - places.length)

/-- Reads a double. -/
def readFloat? (text : List Char) : Option Float :=
  let (negative, rest) := match text with
    | '-' :: r => (true, r)
    | '+' :: r => (false, r)
    | _ => (false, text)
  let magnitude? := match readDecimal? rest with
    | some x => some x
    | none =>
      let name := rest.map Char.toLower
      if name = "inf".toList ∨ name = "infinity".toList then some (1.0 / 0.0)
      else if name = "nan".toList then some (0.0 / 0.0)
      else none
  magnitude?.map fun x => if negative then -x else x

end Ifj22.Number
