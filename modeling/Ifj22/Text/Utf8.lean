set_option autoImplicit false

/-!
# Text: reading UTF-8 bytes

Byte strings are read as UTF-8.  Where the bytes are not well formed, each maximal subpart of an
ill-formed sequence becomes one replacement character, and reading goes on behind it: a subpart is
the longest start of a well-formed sequence, or a single byte if there is none.
-/

namespace Ifj22.Text

/-- The character that stands for ill-formed bytes. -/
def replacement : Char := '\uFFFD'

/-- The byte lies in the closed range. -/
def within (b : UInt8) (lo hi : Nat) : Bool := decide (lo ≤ b.toNat) && decide (b.toNat ≤ hi)

/-- The byte continues a multi-byte sequence. -/
def isContinuation (b : UInt8) : Bool := within b 0x80 0xBF

/-- The least and greatest second byte of a well-formed sequence of three or four bytes. -/
def secondByte (lead : Nat) : Nat × Nat :=
  if lead = 0xE0 then (0xA0, 0xBF)
  else if lead = 0xED then (0x80, 0x9F)
  else if lead = 0xF0 then (0x90, 0xBF)
  else if lead = 0xF4 then (0x80, 0x8F)
  else (0x80, 0xBF)

/-- The six payload bits of a continuation byte. -/
def payload (b : UInt8) : Nat := b.toNat - 0x80

/-- Reads one sequence that starts with `lead`: the character, or `none` for an ill-formed subpart,
and the number of bytes taken behind `lead`. -/
def readSequence (lead : UInt8) (rest : List UInt8) : Option Char × Nat :=
  let n := lead.toNat
  let second := secondByte n
  if n < 0x80 then (some (Char.ofNat n), 0)
  else if n < 0xC2 then (none, 0)
  else if n < 0xE0 then
    match rest with
    | b :: _ =>
      if isContinuation b then (some (Char.ofNat ((n - 0xC0) * 64 + payload b)), 1) else (none, 0)
    | [] => (none, 0)
  else if n < 0xF0 then
    match rest with
    | b :: c :: _ =>
      if within b second.1 second.2 then
        if isContinuation c then
          (some (Char.ofNat (((n - 0xE0) * 64 + payload b) * 64 + payload c)), 2)
        else (none, 1)
      else (none, 0)
    | [b] => (none, if within b second.1 second.2 then 1 else 0)
    | [] => (none, 0)
  else if n < 0xF5 then
    match rest with
    | b :: c :: d :: _ =>
      if within b second.1 second.2 then
        if isContinuation c then
          if isContinuation d then
            let code := (((n - 0xF0) * 64 + payload b) * 64 + payload c) * 64 + payload d
            (some (Char.ofNat code), 3)
          else (none, 2)
        else (none, 1)
      else (none, 0)
    | [b, c] =>
      (none, if within b second.1 second.2 then (if isContinuation c then 2 else 1) else 0)
    | [b] => (none, if within b second.1 second.2 then 1 else 0)
    | [] => (none, 0)
  else (none, 0)

/-- Reads a byte string as UTF-8, with a replacement character for each ill-formed subpart. -/
def ofUtf8Lossy : List UInt8 → List Char
  | [] => []
  | lead :: rest =>
    (readSequence lead rest).1.getD replacement
      :: ofUtf8Lossy (rest.drop (readSequence lead rest).2)
termination_by bytes => bytes.length
decreasing_by simp only [List.length_drop, List.length_cons]; omega

/-- The UTF-8 bytes of a character. -/
def utf8 (c : Char) : List UInt8 := String.utf8EncodeChar c

end Ifj22.Text
