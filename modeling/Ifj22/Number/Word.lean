set_option autoImplicit false

/-!
# Number: 64-bit integers

Integers of the language are 64-bit signed words.  Arithmetic on them at compile time is exact: an
operation has a value only if the mathematical result is in range.
-/

namespace Ifj22.Number

/-- What holds of every word is not decided by trying them all. -/
noncomputable instance (priority := high) decidableForallWord {p : Int64 → Prop} :
    Decidable (∀ w, p w) := Classical.propDecidable _

/-- The word with the given value, if the value is in the 64-bit range. -/
def word? (n : Int) : Option Int64 :=
  if Int64.minValue.toInt ≤ n ∧ n ≤ Int64.maxValue.toInt then some (Int64.ofInt n) else none

theorem toInt_of_word? {n : Int} {w : Int64} (h : word? n = some w) : w.toInt = n := by
  simp only [word?] at h
  split at h
  · rename_i hr
    cases h
    exact Int64.toInt_ofInt_of_le hr.1 (Int.lt_of_le_of_lt hr.2 (by decide))
  · simp at h

/-- The decimal text of a word. -/
def decimal (w : Int64) : String := toString w.toInt

/-- Reads a word: an optional sign and decimal digits. -/
def readWord? (text : List Char) : Option Int64 :=
  let (negative, digits) := match text with
    | '-' :: rest => (true, rest)
    | '+' :: rest => (false, rest)
    | _ => (false, text)
  if digits.isEmpty || !digits.all Char.isDigit then none
  else
    let magnitude : Nat := digits.foldl (fun n c => n * 10 + (c.toNat - '0'.toNat)) 0
    word? (if negative then - (magnitude : Int) else magnitude)

end Ifj22.Number
