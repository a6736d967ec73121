import Ifj22.Text.Hidden
set_option autoImplicit false

/-!
# Text: quoted characters and strings

Dumps and messages show texts between quotes.  Inside, the quote itself, the backslash and the four
common control characters are written with a backslash, a hidden character is written by its code
point in hexadecimal, and everything else stands for itself.
-/

namespace Ifj22.Text

/-- One character as it stands between two `quote` characters. -/
def quotedChar (quote c : Char) : List Char :=
  if c = '\x00' then ['\\', '0']
  else if c = '\t' then ['\\', 't']
  else if c = '\r' then ['\\', 'r']
  else if c = '\n' then ['\\', 'n']
  else if c = '\\' ∨ c = quote then ['\\', c]
  else if isHidden c then ['\\', 'u', '\x7b'] ++ Nat.toDigits 16 c.toNat ++ ['\x7d']
  else [c]

/-- A text between double quotes. -/
def quoted (s : String) : String :=
  String.ofList ('"' :: s.toList.flatMap (quotedChar '"') ++ ['"'])

/-- A character between single quotes. -/
def quotedSingle (c : Char) : String :=
  String.ofList ('\'' :: quotedChar '\'' c ++ ['\''])

end Ifj22.Text
