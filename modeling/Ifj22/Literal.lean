import Ifj22.Text.Utf8
set_option autoImplicit false

/-!
# Literal: the value of a string literal

In the body of a string literal a backslash starts an escape.  Hexadecimal and octal escapes give
raw bytes, everything else gives the bytes of characters, and the bytes together are read as UTF-8.
A backslash that starts no escape stands for itself.
-/

namespace Ifj22.Literal

/-- The character is a hexadecimal digit. -/
def isHexDigit (c : Char) : Bool :=
  c.isDigit || ('a' ≤ c && c ≤ 'f') || ('A' ≤ c && c ≤ 'F')

/-- The character is an octal digit. -/
def isOctalDigit (c : Char) : Bool := '0' ≤ c && c ≤ '7'

/-- The value of a digit of any base up to sixteen. -/
def digitValue (c : Char) : Nat :=
  if c.isDigit then c.toNat - '0'.toNat
  else if 'a' ≤ c then c.toNat - 'a'.toNat + 10
  else c.toNat - 'A'.toNat + 10

/-- The value of a list of digits, in one byte. -/
def byteOf (base : Nat) (digits : List Char) : UInt8 :=
  UInt8.ofNat (digits.foldl (fun n c => n * base + digitValue c) 0)

/-- The bytes of a text. -/
def textBytes (text : List Char) : List UInt8 := text.flatMap Text.utf8

/-- The escape that starts with a backslash and `c`, before `rest`: its bytes, and how many
characters of `rest` it takes. -/
def escape (c : Char) (rest : List Char) : List UInt8 × Nat :=
  match c with
  | 'n' => ([0x0A], 0)
  | 't' => ([0x09], 0)
  | 'r' => ([0x0D], 0)
  | 'v' => ([0x0B], 0)
  | 'e' => ([0x1B], 0)
  | 'f' => ([0x0C], 0)
  | '\\' => (Text.utf8 c, 0)
  | '$' => (Text.utf8 c, 0)
  | '"' => (Text.utf8 c, 0)
  | 'x' =>
    let digits := (rest.take 2).takeWhile isHexDigit
    if digits.isEmpty then (textBytes ['\\', 'x'], 0) else ([byteOf 16 digits], digits.length)
  | _ =>
    if isOctalDigit c then
      let digits := (rest.take 2).takeWhile isOctalDigit
      ([byteOf 8 (c :: digits)], digits.length)
    else (textBytes ['\\', c], 0)

/-- The bytes of the body of a string literal. -/
def bytes : List Char → List UInt8
  | [] => []
  | '\\' :: c :: rest => (escape c rest).1 ++ bytes (rest.drop (escape c rest).2)
  | c :: rest => Text.utf8 c ++ bytes rest
termination_by body => body.length
decreasing_by
  · simp only [List.length_drop, List.length_cons]; omega
  · simp

/-- The value of the body of a string literal. -/
def decode (body : String) : String := String.ofList (Text.ofUtf8Lossy (bytes body.toList))

end Ifj22.Literal
