import Ifj22.Number.Fixed
import Ifj22.Number.Hex
import Ifj22.Number.Word
set_option autoImplicit false

/-!
# Number: digits, one at a time

The digits of a number can be found from the last one to the first one.  So can its decimal places,
where zeros at the front count, and the zeros at the end can be dropped on the way.
-/

namespace Ifj22.Number

/-- The last decimal digit of a number. -/
def lastDigit (n : Nat) : Char := Nat.digitChar (n % 10)

theorem toNat_lastDigit (n : Nat) : (lastDigit n).toNat = n % 10 + 48 := by
  rw [lastDigit, Nat.toNat_digitChar_of_lt_ten (Nat.mod_lt _ (by decide)), Nat.add_comm]

theorem lastDigit_eq_zero_iff (n : Nat) : lastDigit n = '0' ↔ n % 10 = 0 := by
  rw [← Char.toNat_inj, toNat_lastDigit]
  show n % 10 + 48 = 48 ↔ n % 10 = 0
  omega

/-- The last digit goes behind the text of the others. -/
theorem toString_eq_append {n : Nat} (h : n / 10 ≠ 0) :
    toString n = toString (n / 10) ++ String.singleton (lastDigit n) := by
  rw [Nat.toString_eq_ofList_toDigits, Nat.toString_eq_ofList_toDigits,
    Nat.toDigits_of_base_le (by decide) (by omega), String.ofList_append]
  rfl

theorem toString_of_div_eq_zero {n : Nat} (h : n / 10 = 0) :
    toString n = String.singleton (lastDigit n) := by
  have hn : n < 10 := by omega
  rw [Nat.toString_eq_ofList_toDigits, Nat.toDigits_of_lt_base hn, lastDigit, Nat.mod_eq_of_lt hn]
  rfl

/-- What holds of the digits of a base holds of the characters of a number in it. -/
theorem forall_mem_toDigits {P : Char → Prop} {b : Nat} (hb : 1 < b)
    (h : ∀ d, d < b → P (Nat.digitChar d)) (n : Nat) : ∀ c ∈ Nat.toDigits b n, P c := by
  induction n using Nat.strongRecOn with
  | _ n ih =>
    rw [Nat.toDigits_eq_if hb]
    split
    · next hlt => exact List.forall_mem_singleton.mpr (h n hlt)
    · refine List.forall_mem_append.mpr ⟨ih (n / b) (Nat.div_lt_self (by omega) hb), ?_⟩
      exact List.forall_mem_singleton.mpr (h _ (Nat.mod_lt n (by omega)))

/-- What holds of the hexadecimal digits holds of the characters of a fraction. -/
theorem forall_mem_fractionDigits {P : Char → Prop} (h : ∀ d, d < 16 → P (Nat.digitChar d)) (n : Nat) :
    ∀ c ∈ fractionDigits n, P c := by
  intro c hc
  simp only [fractionDigits, List.mem_reverse] at hc
  have hmem := (List.dropWhile_sublist _).mem hc
  rw [List.mem_reverse, List.mem_append] at hmem
  rcases hmem with hmem | hmem
  · rw [List.eq_of_mem_replicate hmem]
    exact h 0 (by decide)
  · exact forall_mem_toDigits (by decide) h n c hmem

/-! ## Places -/

/-- So many last digits of a number, with zeros at the front. -/
def places : Nat → Nat → List Char
  | 0, _ => []
  | k + 1, n => places k (n / 10) ++ [lastDigit n]

theorem places_zero (k : Nat) : places k 0 = List.replicate k '0' := by
  induction k with
  | zero => rfl
  | succ k ih =>
    rw [places, Nat.zero_div, ih, List.replicate_succ']
    rfl

theorem places_succ_eq {k n : Nat} (h : n < 10 ^ (k + 1)) : places (k + 1) n =
    List.replicate (k + 1 - (Nat.toDigits 10 n).length) '0' ++ Nat.toDigits 10 n := by
  induction k generalizing n with
  | zero =>
    have hn : n < 10 := h
    rw [Nat.toDigits_of_lt_base hn, places, lastDigit, Nat.mod_eq_of_lt hn]
    rfl
  | succ k ih =>
    rw [places]
    by_cases hn : n < 10
    · rw [Nat.toDigits_of_lt_base hn, Nat.div_eq_of_lt hn, places_zero, lastDigit, Nat.mod_eq_of_lt hn]
      rfl
    · have hdiv : n / 10 < 10 ^ (k + 1) := by
        rw [Nat.pow_succ] at h
        omega
      rw [ih hdiv, Nat.toDigits_of_base_le (by decide) (Nat.le_of_not_lt hn), List.length_append,
        List.append_assoc, List.length_singleton, Nat.add_sub_add_right]
      rfl

/-- Characters without the zeros at their end. -/
def trimmed (cs : List Char) : List Char := (cs.reverse.dropWhile (· == '0')).reverse

theorem trimmed_places_of_eq {k n : Nat} (h : n % 10 = 0) :
    trimmed (places (k + 1) n) = trimmed (places k (n / 10)) := by
  have hlast : (lastDigit n == '0') = true := beq_iff_eq.mpr ((lastDigit_eq_zero_iff n).mpr h)
  rw [trimmed, places, List.reverse_append, List.reverse_singleton, List.singleton_append,
    List.dropWhile_cons, if_pos hlast, trimmed]

theorem trimmed_places_of_ne {k n : Nat} (h : n % 10 ≠ 0) :
    trimmed (places (k + 1) n) = places (k + 1) n := by
  have hlast : ¬ (lastDigit n == '0') = true := fun heq =>
    h ((lastDigit_eq_zero_iff n).mp (beq_iff_eq.mp heq))
  rw [trimmed, places, List.reverse_append, List.reverse_singleton, List.singleton_append,
    List.dropWhile_cons, if_neg hlast, List.reverse_cons, List.reverse_reverse]

theorem placesText_eq {n : Nat} (h : n < 10 ^ 6) : placesText n = trimmed (places 6 n) := by
  rw [places_succ_eq h]
  rfl

/-- The text of a double, by its sign and its millionths. -/
theorem fixedText_eq (x : Float) : fixedText x =
    (if decide (x < 0.0) && millionths x != 0 then "-" else "") ++ toString (millionths x / 1000000) ++
      if millionths x % 1000000 = 0 then ""
      else "." ++ String.ofList (placesText (millionths x % 1000000)) := by
  unfold fixedText
  by_cases h : millionths x % 1000000 = 0
  · simp only [if_pos h, String.append_empty]
  · simp only [if_neg h, String.append_assoc]

end Ifj22.Number
