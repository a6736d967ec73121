import Ifj22.Literal
import Ifj22.Number.Reading
import Ifj22.Proofs.Number.Fixed
import Ifj22.Proofs.Number.Nearest
set_option autoImplicit false

/-!
# Number: doubles in hexadecimal, read back

The hexadecimal text of a double is read as the exact number that it spells.  That number is the value
of the double: the zeros that were put before its fraction count, and those that were dropped behind it
do not.  Two doubles of one value have the same bits, so no two doubles have one text.
-/

namespace Ifj22.Number

open Float.Model UnpackedFloat Literal

variable {bits : UInt64}

/-! ## Values -/

/-- A number with a sign, which zero has as well, or an infinity.  Zero needs one: `0.0` and
`-0.0` are two doubles with two texts. -/
inductive SignedValue
  | finite (negative : Bool) (magnitude : ℚ)
  | infinite (negative : Bool)
  deriving DecidableEq

/-- The sign is a minus. -/
def isMinus : Sign → Bool
  | .negative => true
  | .positive => false

/-- The value of the double with these bits, if they stand for a number. -/
def valueOf? (bits : UInt64) : Option SignedValue :=
  match UnpackedFloat.unpack .binary64 bits.toBitVec with
  | .notANumber => none
  | .infinity sign => some (.infinite (isMinus sign))
  | .zero sign => some (.finite (isMinus sign) 0)
  | .finite sign m e _ => some (.finite (isMinus sign) (m * 2 ^ e))

/-! ## Texts -/

/-- The number that hexadecimal digits spell. -/
def hexNumber (digits : List Char) : Nat := digits.foldl (fun n c => n * 16 + digitValue c) 0

/-- Reads the digits behind the point, if there is one. -/
def readFraction? : List Char → Option (List Char)
  | [] => some []
  | '.' :: digits => if digits.isEmpty || !digits.all isHexDigit then none else some digits
  | _ => none

/-- Reads what follows the letter of the exponent. -/
def readPower? : List Char → Option Int
  | 'p' :: exponent => readExponent? exponent
  | _ => none

/-- Reads a text without its sign: `inf`, or a leading digit, a fraction and a power of two. -/
def readMagnitude? (negative : Bool) : List Char → Option SignedValue
  | ['i', 'n', 'f'] => some (.infinite negative)
  | '0' :: 'x' :: lead :: rest => do
    let fraction ← readFraction? (rest.takeWhile (· != 'p'))
    let power ← readPower? (rest.dropWhile (· != 'p'))
    if isHexDigit lead then
      some (.finite negative ((digitValue lead + hexNumber fraction / 16 ^ fraction.length) * 2 ^ power))
    else none
  | _ => none

/-- Reads the hexadecimal text of a number as the exact number that it spells. -/
def readHex? : List Char → Option SignedValue
  | '-' :: rest => readMagnitude? true rest
  | text => readMagnitude? false text

/-! ## The fields of a double -/

/-- The sign of a double by its bits. -/
def signOf (bits : UInt64) : Sign := Sign.ofBitVec (@unpackSign .binary64 bits.toBitVec)

theorem toNat_unpackMantissa (bits : UInt64) :
    (@unpackMantissa .binary64 bits.toBitVec).toNat = (Fields.ofBits bits).fraction := by
  unfold unpackMantissa
  rw [BitVec.toNat_cast, BitVec.extractLsb_toNat]
  rfl

theorem toNat_unpackExponent (bits : UInt64) :
    (@unpackExponent .binary64 bits.toBitVec).toNat = (Fields.ofBits bits).biased := by
  unfold unpackExponent
  rw [BitVec.toNat_cast, BitVec.extractLsb_toNat, Nat.shiftRight_eq_div_pow]
  rfl

theorem unpackExponent_eq_full (bits : UInt64) :
    @unpackExponent .binary64 bits.toBitVec = -1#11 ↔ (Fields.ofBits bits).biased = 2047 := by
  rw [← BitVec.toNat_inj, toNat_unpackExponent]
  rfl

theorem unpackMantissa_eq_zero (bits : UInt64) :
    @unpackMantissa .binary64 bits.toBitVec = 0#52 ↔ (Fields.ofBits bits).fraction = 0 := by
  rw [← BitVec.toNat_inj, toNat_unpackMantissa]
  rfl

theorem toNat_unpackSign (bits : UInt64) :
    (@unpackSign .binary64 bits.toBitVec).toNat = bits.toNat / 2 ^ 63 := by
  have hlt := bits.toNat_lt
  unfold unpackSign
  rw [BitVec.toNat_cast, BitVec.extractLsb_toNat, Nat.shiftRight_eq_div_pow]
  show bits.toNat / 2 ^ 63 % 2 ^ 1 = _
  omega

theorem isMinus_signOf (bits : UInt64) : isMinus (signOf bits) = (Fields.ofBits bits).negative := by
  have hzero : @unpackSign .binary64 bits.toBitVec = 0#1 ↔ ¬ 2 ^ 63 ≤ bits.toNat := by
    rw [← BitVec.toNat_inj, toNat_unpackSign]
    show bits.toNat / 2 ^ 63 = 0 ↔ _
    omega
  unfold signOf Sign.ofBitVec
  by_cases hneg : 2 ^ 63 ≤ bits.toNat
  · rw [if_neg fun h => hzero.mp h hneg]
    exact (decide_eq_true hneg).symm
  · rw [if_pos (hzero.mpr hneg)]
    exact (decide_eq_false hneg).symm

/-- Bits taken apart: they stand for no number, an infinity, a zero or another finite number. -/
theorem unpack_cases (bits : UInt64) :
    let f := Fields.ofBits bits
    (f.isNaN = true ∧ unpack .binary64 bits.toBitVec = .notANumber) ∨
      (f.biased = 2047 ∧ f.fraction = 0 ∧ unpack .binary64 bits.toBitVec = .infinity (signOf bits)) ∨
      (f.biased = 0 ∧ f.fraction = 0 ∧ unpack .binary64 bits.toBitVec = .zero (signOf bits)) ∨
      f.biased < 2047 ∧ ∃ hpos,
        unpack .binary64 bits.toBitVec = .finite (signOf bits) f.mantissa f.scale hpos := by
  intro f
  have hempty : @unpackExponent .binary64 bits.toBitVec = 0#11 ↔ f.biased = 0 := by
    rw [← BitVec.toNat_inj, toNat_unpackExponent]
    rfl
  have hfull := unpackExponent_eq_full bits
  have hzero := unpackMantissa_eq_zero bits
  have hlt : f.biased < 2048 := Nat.mod_lt _ (by decide)
  have hmantissa : (1#1 ++ @unpackMantissa .binary64 bits.toBitVec).toNat =
      f.fraction + 2 ^ 52 := by
    rw [BitVec.toNat_append, ← Nat.shiftLeft_add_eq_or_of_lt (BitVec.isLt _), toNat_unpackMantissa,
      Nat.add_comm]
    rfl
  unfold UnpackedFloat.unpack
  by_cases hspecial : f.biased = 2047
  · simp only [if_pos (hfull.mpr hspecial)]
    by_cases hfraction : f.fraction = 0
    · refine .inr (.inl ⟨hspecial, hfraction, ?_⟩)
      simp only [if_pos (hzero.mpr hfraction)]
      rfl
    · refine .inl ⟨by simp [Fields.isNaN, hspecial, hfraction], ?_⟩
      simp only [if_neg (mt hzero.mp hfraction)]
  · simp only [if_neg (mt hfull.mp hspecial)]
    by_cases hbiased : f.biased = 0
    · simp only [if_pos (hempty.mpr hbiased)]
      by_cases hfraction : f.fraction = 0
      · refine .inr (.inr (.inl ⟨hbiased, hfraction, ?_⟩))
        simp only [dif_pos (hzero.mpr hfraction)]
        rfl
      · have hvalue : f.mantissa = f.fraction ∧ f.scale = -1074 := ⟨if_pos hbiased, if_pos hbiased⟩
        refine .inr (.inr (.inr ⟨by omega, ?_⟩))
        simp only [dif_neg (mt hzero.mp hfraction)]
        refine ⟨by omega, finite_congr _ _ ((toNat_unpackMantissa bits).trans hvalue.1.symm) ?_⟩
        rw [toNat_unpackExponent, hvalue.2]
        show ((f.biased : Int) - (1023 + 52) + 1 : Int) = -1074
        omega
    · have hvalue : f.mantissa = f.fraction + 2 ^ 52 ∧ f.scale = f.biased - 1075 :=
        ⟨if_neg hbiased, if_neg hbiased⟩
      refine .inr (.inr (.inr ⟨by omega, ?_⟩))
      simp only [if_neg (mt hempty.mp hbiased)]
      refine ⟨by omega, finite_congr _ _ (hmantissa.trans hvalue.1.symm) ?_⟩
      rw [toNat_unpackExponent, hvalue.2]
      rfl

/-- The double of bits that stand for no number is none. -/
theorem isNaN_ofBits (h : (Float.ofBits bits).isNaN = false) :
    (Fields.ofBits bits).isNaN = false := by
  have hmodel : (Float.ofBits bits).isNaN = (UnpackedFloat.unpack .binary64
      (UnpackedFloat.pack .binary64 (UnpackedFloat.unpack .binary64 bits.toBitVec))).isNaN := rfl
  rw [hmodel] at h
  obtain ⟨-, hu⟩ | ⟨hb, hf, -⟩ | ⟨hb, -⟩ | ⟨hb, -⟩ := unpack_cases bits
  · rw [hu] at h
    exact absurd h (by decide)
  · simp [Fields.isNaN, hf]
  · simp [Fields.isNaN, hb]
  · simp [Fields.isNaN, Nat.ne_of_lt hb]

/-- A pattern of bits that stands for a number is that of its double. -/
theorem toBits_ofBits (h : (Fields.ofBits bits).isNaN = false) :
    (Float.ofBits bits).toBits = bits := by
  have hnumber : ¬ @isNaNBits .binary64 bits.toBitVec = true := by
    intro hnan
    obtain ⟨hexponent, hmantissa⟩ := of_decide_eq_true hnan
    have hb := (unpackExponent_eq_full bits).mp hexponent
    have hf := mt (unpackMantissa_eq_zero bits).mpr hmantissa
    simp [Fields.isNaN, hb, hf] at h
  have hpack := @pack_unpack .binary64 bits.toBitVec (by decide)
  rw [if_neg hnumber] at hpack
  exact UInt64.toBitVec_inj.mp hpack

/-- The value of a finite double without its sign. -/
def Fields.magnitude (f : Fields) : ℚ := f.mantissa * 2 ^ f.scale

theorem valueOf?_eq (h : (Fields.ofBits bits).isNaN = false) :
    valueOf? bits = some (if (Fields.ofBits bits).biased = 2047
      then .infinite (Fields.ofBits bits).negative
      else .finite (Fields.ofBits bits).negative (Fields.ofBits bits).magnitude) := by
  unfold valueOf?
  obtain ⟨hnan, -⟩ | ⟨hb, hf, hu⟩ | ⟨hb, hf, hu⟩ | ⟨hlt, hpos, hu⟩ := unpack_cases bits
  · rw [h] at hnan
    cases hnan
  all_goals simp only [hu, isMinus_signOf]
  · rw [if_pos hb]
  · have hzero : (Fields.ofBits bits).magnitude = 0 := by
      simp [Fields.magnitude, Fields.mantissa, hb, hf]
    rw [if_neg (by omega), hzero]
  · rw [if_neg (by omega)]
    rfl

/-! ## The digits of a fraction -/

theorem digitValue_digitChar {d : Nat} (h : d < 16) : digitValue (Nat.digitChar d) = d := by
  have hall : ∀ d, d < 16 → digitValue (Nat.digitChar d) = d := by decide
  exact hall d h

theorem hexNumber_append (cs ds : List Char) :
    hexNumber (cs ++ ds) = hexNumber cs * 16 ^ ds.length + hexNumber ds := by
  have hfrom : ∀ n, ds.foldl (fun n c => n * 16 + digitValue c) n =
      n * 16 ^ ds.length + hexNumber ds := by
    induction ds with
    | nil => simp [hexNumber]
    | cons d ds ih =>
      intro n
      simp only [hexNumber, List.foldl_cons, List.length_cons] at ih ⊢
      rw [ih, ih (0 * 16 + digitValue d)]
      ring
  rw [hexNumber, List.foldl_append, hfrom]
  rfl

theorem hexNumber_toDigits (n : Nat) : hexNumber (Nat.toDigits 16 n) = n := by
  induction n using Nat.strongRecOn with
  | _ n ih =>
    rw [Nat.toDigits_eq_if (by decide)]
    split
    · next hlt => simp [hexNumber, digitValue_digitChar hlt]
    · next hle =>
      have hlast : hexNumber [Nat.digitChar (n % 16)] = n % 16 := by
        simp [hexNumber, digitValue_digitChar (Nat.mod_lt n (by decide : 16 > 0))]
      rw [hexNumber_append, ih (n / 16) (by omega), hlast, List.length_singleton, pow_one]
      omega

theorem hexNumber_zeros (k : Nat) : hexNumber (List.replicate k '0') = 0 := by
  induction k with
  | zero => rfl
  | succ k ih =>
    rw [List.replicate_succ', hexNumber_append, ih]
    rfl

/-- The zeros that are dropped behind digits shift the number that these spell. -/
theorem exists_trimmed_append (cs : List Char) : ∃ k, cs = trimmed cs ++ List.replicate k '0' := by
  have hzeros : ∀ c ∈ (cs.reverse.takeWhile (· == '0')).reverse, c = '0' := by
    intro c hc
    have hall := List.all_eq_true.mp (List.all_takeWhile (p := (· == '0')) (l := cs.reverse)) c
      (List.mem_reverse.mp hc)
    exact beq_iff_eq.mp hall
  refine ⟨(cs.reverse.takeWhile (· == '0')).reverse.length, ?_⟩
  rw [← List.eq_replicate_of_mem hzeros, trimmed, ← List.reverse_append,
    List.takeWhile_append_dropWhile, List.reverse_reverse]

/-- The digits of a fraction spell it in units of the last of its thirteen places. -/
theorem fractionDigits_value {n : Nat} (h : n < 2 ^ 52) :
    (hexNumber (fractionDigits n) : ℚ) / 16 ^ (fractionDigits n).length = n / 2 ^ 52 := by
  have hlength : (Nat.toDigits 16 n).length ≤ 13 :=
    (Nat.length_toDigits_le_iff (by decide) (by decide)).mpr (by norm_num at h ⊢; exact h)
  have hpadded : fractionDigits n =
      trimmed (List.replicate (13 - (Nat.toDigits 16 n).length) '0' ++ Nat.toDigits 16 n) := rfl
  obtain ⟨k, hk⟩ := exists_trimmed_append
    (List.replicate (13 - (Nat.toDigits 16 n).length) '0' ++ Nat.toDigits 16 n)
  rw [← hpadded] at hk
  have hnumber := congrArg hexNumber hk
  have hplaces := congrArg List.length hk
  rw [hexNumber_append, hexNumber_append, hexNumber_zeros, hexNumber_zeros, hexNumber_toDigits,
    List.length_replicate] at hnumber
  simp only [List.length_append, List.length_replicate] at hplaces
  have hn : (n : ℚ) = hexNumber (fractionDigits n) * 16 ^ k := by
    have hnat : n = hexNumber (fractionDigits n) * 16 ^ k := by omega
    exact_mod_cast hnat
  have hpow : (2 : ℚ) ^ 52 = 16 ^ (fractionDigits n).length * 16 ^ k := by
    rw [← pow_add, show (fractionDigits n).length + k = 13 by omega]
    norm_num
  rw [hn, hpow]
  field_simp

/-! ## Reading -/

theorem digitsValue_toDigits (n : Nat) : digitsValue (Nat.toDigits 10 n) = n := by
  have hsame : ∀ cs : List Char, digitsValue cs = Nat.ofDigitChars 10 cs 0 := by
    intro cs
    simp only [digitsValue, Nat.ofDigitChars_eq_foldl, Nat.mul_comm]
  rw [hsame, Nat.ofDigitChars_ten_toDigits]

/-- An exponent is read back, whichever sign it has. -/
theorem readExponent?_signedText (e : Int) : readExponent? (signedText e).toList = some e := by
  have hdigits : ∀ n, (Nat.toDigits 10 n).all Char.isDigit = true := fun n =>
    List.all_eq_true.mpr fun c hc => Nat.isDigit_of_mem_toDigits (by decide) (by decide) hc
  have hsome : ∀ n, (Nat.toDigits 10 n).isEmpty = false := fun n => by
    simp [Nat.toDigits_ne_nil]
  cases e with
  | ofNat n =>
    have htext : (signedText (Int.ofNat n)).toList = '+' :: Nat.toDigits 10 n := by
      rw [signedText, if_neg (by simp), String.toList_append]
      show ['+'] ++ (toString n).toList = _
      rw [Nat.toString_eq_ofList_toDigits, String.toList_ofList]
      rfl
    rw [htext]
    simp [readExponent?, hdigits, hsome, digitsValue_toDigits]
  | negSucc n =>
    have htext : (signedText (Int.negSucc n)).toList = '-' :: Nat.toDigits 10 (n + 1) := by
      rw [signedText, if_pos (Int.negSucc_lt_zero n)]
      show ("-" ++ toString (n + 1)).toList = _
      rw [String.toList_append]
      show ['-'] ++ (toString (n + 1)).toList = _
      rw [Nat.toString_eq_ofList_toDigits, String.toList_ofList]
      rfl
    rw [htext]
    simp [readExponent?, hdigits, hsome, digitsValue_toDigits]
    omega

/-- The digits of a fraction behind a point, which is left out if there are none. -/
def pointed (digits : List Char) : List Char := if digits.isEmpty then [] else '.' :: digits

/-- The text of a finite number is read as what its parts spell. -/
theorem readMagnitude?_parts (negative : Bool) {lead : Char} (hlead : isHexDigit lead = true)
    {digits : List Char} (hdigits : ∀ c ∈ digits, isHexDigit c = true) (e : Int) :
    readMagnitude? negative ('0' :: 'x' :: lead :: (pointed digits ++ 'p' :: (signedText e).toList)) =
      some (.finite negative
        ((digitValue lead + hexNumber digits / 16 ^ digits.length) * 2 ^ e)) := by
  have hfree : ∀ c ∈ pointed digits, (c != 'p') = true := by
    intro c hc
    unfold pointed at hc
    split at hc
    · cases hc
    · rcases List.mem_cons.mp hc with rfl | hc
      · decide
      · have hhex := hdigits c hc
        rw [bne_iff_ne]
        rintro rfl
        exact absurd hhex (by decide)
  have hread : readFraction? (pointed digits) = some digits := by
    cases digits with
    | nil => rfl
    | cons d digits =>
      have hall : (d :: digits).all isHexDigit = true := List.all_eq_true.mpr hdigits
      simp [pointed, readFraction?, hall]
  have hpower : ∀ rest, ('p' :: rest).takeWhile (· != 'p') = [] ∧
      ('p' :: rest).dropWhile (· != 'p') = 'p' :: rest := fun _ => ⟨rfl, rfl⟩
  simp only [readMagnitude?]
  rw [List.takeWhile_append_of_pos hfree, List.dropWhile_append_of_pos hfree, (hpower _).1,
    (hpower _).2, List.append_nil, hread, readPower?, readExponent?_signedText]
  exact if_pos hlead

/-- The text of a number without its sign. -/
def magnitudeText (f : Fields) : List Char :=
  if f.isInfinite then ['i', 'n', 'f']
  else if f.isZero then '0' :: 'x' :: '0' :: (pointed [] ++ 'p' :: (signedText 0).toList)
  else '0' :: 'x' :: (if f.biased = 0 then '0' else '1') :: (pointed (fractionDigits f.fraction) ++
    'p' :: (signedText (if f.biased = 0 then -1022 else (f.biased : Int) - 1023)).toList)

theorem toList_hexText {x : Float} (h : (Fields.ofFloat x).isNaN = false) : (hexText x).toList =
    (if (Fields.ofFloat x).negative then ['-'] else []) ++ magnitudeText (Fields.ofFloat x) := by
  have hsign : ∀ negative : Bool, (if negative then "-" else "").toList =
      if negative then ['-'] else [] := by decide
  have hlead : (if (Fields.ofFloat x).biased = 0 then "0" else "1").toList =
      [if (Fields.ofFloat x).biased = 0 then '0' else '1'] := by
    split <;> rfl
  have hpoint : ∀ digits : List Char, (if digits.isEmpty then "" else "." ++ String.ofList digits).toList
      = pointed digits := by
    intro digits
    unfold pointed
    split
    · rfl
    · rw [String.toList_append]
      show ['.'] ++ (String.ofList digits).toList = _
      rw [String.toList_ofList]
      rfl
  unfold hexText magnitudeText
  simp only [h, Bool.false_eq_true, if_false]
  split
  · rw [String.toList_append, hsign]
    rfl
  split
  · rw [String.toList_append, hsign]
    rfl
  · simp only [String.toList_append, hsign, hlead, hpoint, List.append_assoc]
    rfl

/-- The text of a number without its sign is read as its magnitude. -/
theorem readMagnitude?_magnitudeText {f : Fields} (h : f.isNaN = false) (hfraction : f.fraction < 2 ^ 52)
    (negative : Bool) : readMagnitude? negative (magnitudeText f) =
      some (if f.biased = 2047 then .infinite negative else .finite negative f.magnitude) := by
  have hhex : ∀ c ∈ fractionDigits f.fraction, isHexDigit c = true :=
    forall_mem_fractionDigits (by decide) _
  unfold magnitudeText
  by_cases hspecial : f.biased = 2047
  · have hinfinite : f.isInfinite = true := by
      simpa [Fields.isNaN, Fields.isInfinite, hspecial] using h
    rw [if_pos hinfinite, if_pos hspecial]
    rfl
  · rw [if_neg (by simp [Fields.isInfinite, hspecial]), if_neg hspecial]
    by_cases hzero : f.isZero = true
    · obtain ⟨hb, hf⟩ : f.biased = 0 ∧ f.fraction = 0 := by simpa [Fields.isZero] using hzero
      rw [if_pos hzero, readMagnitude?_parts negative (by decide) (by simp)]
      simp [Fields.magnitude, Fields.mantissa, hb, hf, hexNumber, digitValue]
    · rw [if_neg hzero, readMagnitude?_parts negative (by split <;> decide) hhex,
        fractionDigits_value hfraction]
      have hscaled : ∀ (d n : ℚ) (e : ℤ), (d + n / 2 ^ 52) * 2 ^ e = (n + d * 2 ^ 52) * 2 ^ (e - 52) := by
        intro d n e
        rw [zpow_sub₀ two_ne_zero]
        norm_cast
        field_simp
        ring
      rw [hscaled]
      unfold Fields.magnitude Fields.mantissa Fields.scale
      by_cases hb : f.biased = 0
      · have hdigit : digitValue '0' = 0 := by decide
        simp [hb, hdigit]
      · have hdigit : digitValue '1' = 1 := by decide
        have he : (f.biased : ℤ) - 1023 - 52 = f.biased - 1075 := by omega
        simp only [if_neg hb, hdigit, he, Nat.cast_one, one_mul, Nat.cast_add, Nat.cast_pow,
          Nat.cast_ofNat]

theorem readHex?_append (negative : Bool) (f : Fields) :
    readHex? ((if negative then ['-'] else []) ++ magnitudeText f) =
      readMagnitude? negative (magnitudeText f) := by
  cases negative with
  | true => rfl
  | false =>
    rw [if_neg (by decide), List.nil_append]
    unfold magnitudeText
    split
    · rfl
    split <;> rfl

/-! ## Doubles of one value -/

/-- Two magnitudes are equal only if the mantissas and the scales are: no bit of a mantissa can be
traded for the scale, since a scale above the least one comes with a mantissa of 53 bits. -/
theorem eq_of_magnitude_eq {f g : Fields} (hf : f.fraction < 2 ^ 52) (hle : f.scale ≤ g.scale)
    (h : f.magnitude = g.magnitude) : f.mantissa = g.mantissa ∧ f.scale = g.scale := by
  obtain ⟨k, hk⟩ : ∃ k : Nat, g.scale = f.scale + k := ⟨(g.scale - f.scale).toNat, by omega⟩
  have hmantissa : f.mantissa = g.mantissa * 2 ^ k := by
    unfold Fields.magnitude at h
    rw [hk, zpow_add₀ two_ne_zero, zpow_natCast, mul_comm ((2 : ℚ) ^ f.scale), ← mul_assoc] at h
    have hcancel := mul_right_cancel₀ (zpow_ne_zero f.scale two_ne_zero) h
    exact_mod_cast hcancel
  have hsmall : f.mantissa < 2 ^ 53 := by
    unfold Fields.mantissa
    split <;> omega
  have hleast : -1074 ≤ f.scale := by
    unfold Fields.scale
    split <;> omega
  cases k with
  | zero => exact ⟨by omega, by omega⟩
  | succ k =>
    have hbiased : g.biased ≠ 0 := fun hzero => by
      have hscale : g.scale = -1074 := if_pos hzero
      omega
    have hlarge : 2 ^ 52 ≤ g.mantissa := by
      unfold Fields.mantissa
      rw [if_neg hbiased]
      omega
    have hdouble : 2 ^ 52 * 2 ≤ g.mantissa * 2 ^ (k + 1) :=
      Nat.mul_le_mul hlarge (Nat.le_self_pow (by omega) 2)
    omega

theorem Fields.ofBits_injective {bits' : UInt64} (h : Fields.ofBits bits = Fields.ofBits bits') :
    bits = bits' := by
  have hlt := bits.toNat_lt
  have hlt' := bits'.toNat_lt
  simp only [Fields.ofBits, Fields.mk.injEq, decide_eq_decide] at h
  refine UInt64.toNat_inj.mp ?_
  omega

/-- The value of a number determines its bits. -/
theorem eq_of_valueOf?_eq {bits' : UInt64} (h : (Fields.ofBits bits).isNaN = false)
    (h' : (Fields.ofBits bits').isNaN = false) (heq : valueOf? bits = valueOf? bits') :
    bits = bits' := by
  rw [valueOf?_eq h, valueOf?_eq h', Option.some.injEq] at heq
  refine Fields.ofBits_injective ?_
  have hf : (Fields.ofBits bits).fraction < 2 ^ 52 := Nat.mod_lt _ (by decide)
  have hf' : (Fields.ofBits bits').fraction < 2 ^ 52 := Nat.mod_lt _ (by decide)
  generalize Fields.ofBits bits = f at *
  generalize Fields.ofBits bits' = f' at *
  suffices hparts : f.negative = f'.negative ∧ f.biased = f'.biased ∧ f.fraction = f'.fraction by
    cases f
    cases f'
    simp_all
  split at heq <;> split at heq
  · next hb hb' =>
    have hzero : ∀ {g : Fields}, g.isNaN = false → g.biased = 2047 → g.fraction = 0 := by
      intro g hg hgb
      simpa [Fields.isNaN, hgb] using hg
    exact ⟨SignedValue.infinite.inj heq, by omega, by rw [hzero h hb, hzero h' hb']⟩
  · cases heq
  · cases heq
  · obtain ⟨hneg, hmag⟩ := SignedValue.finite.inj heq
    obtain ⟨hm, hs⟩ : f.mantissa = f'.mantissa ∧ f.scale = f'.scale := by
      obtain hle | hle := le_total f.scale f'.scale
      · exact eq_of_magnitude_eq hf hle hmag
      · obtain ⟨hm, hs⟩ := eq_of_magnitude_eq hf' hle hmag.symm
        exact ⟨hm.symm, hs.symm⟩
    unfold Fields.mantissa at hm
    unfold Fields.scale at hs
    split at hm <;> split at hm <;> simp_all
    all_goals omega

/-! ## The text of a double -/

theorem readHex?_hexText (h : (Fields.ofBits bits).isNaN = false) :
    readHex? (hexText (Float.ofBits bits)).toList = valueOf? bits := by
  have hfields : Fields.ofFloat (Float.ofBits bits) = Fields.ofBits bits :=
    congrArg Fields.ofBits (toBits_ofBits h)
  have htext := toList_hexText (x := Float.ofBits bits) (by rw [hfields, h])
  rw [hfields] at htext
  rw [htext, readHex?_append, valueOf?_eq h]
  exact readMagnitude?_magnitudeText h (Nat.mod_lt _ (by decide)) _

/-- The hexadecimal text of a double loses nothing: read as the exact number that it spells, it
gives the value of the double with its sign, and no other double has that text.  NaN is left out:
it has many patterns, and is no number. -/
theorem hexText_lossless {bits : UInt64} (h : (Float.ofBits bits).isNaN = false) :
    (∃ v, valueOf? bits = some v ∧ readHex? (hexText (Float.ofBits bits)).toList = some v) ∧
      ∀ bits', (Float.ofBits bits').isNaN = false → bits' ≠ bits →
        hexText (Float.ofBits bits') ≠ hexText (Float.ofBits bits) := by
  have hnumber := isNaN_ofBits h
  refine ⟨⟨_, valueOf?_eq hnumber, ?_⟩, fun bits' h' hne htext => ?_⟩
  · rw [readHex?_hexText hnumber, valueOf?_eq hnumber]
  · have hnumber' := isNaN_ofBits h'
    refine hne (eq_of_valueOf?_eq hnumber' hnumber ?_)
    rw [← readHex?_hexText hnumber', ← readHex?_hexText hnumber, htext]

/-- A negative subnormal double, whose fraction has zeros on both sides, and the two zeros. -/
theorem hexText_lossless_subnormal :
    (Float.ofBits 0x8000000000010000).isNaN = false ∧
      hexText (Float.ofBits 0x8000000000010000) = "-0x0.000000001p-1022" ∧
      valueOf? 0x8000000000010000 = some (.finite true ((65536 : Nat) * 2 ^ (-1074 : Int))) ∧
      readHex? "-0x0.000000001p-1022".toList = valueOf? 0x8000000000010000 ∧
      hexText (Float.ofBits 0x8000000000000000) ≠ hexText (Float.ofBits 0) := by
  have hnumber : (Float.ofBits 0x8000000000010000).isNaN = false := by decide
  have htext : hexText (Float.ofBits 0x8000000000010000) = "-0x0.000000001p-1022" := by decide +kernel
  obtain ⟨⟨v, hv, hread⟩, -⟩ := hexText_lossless hnumber
  have hzeros := (@hexText_lossless 0 (by decide)).2 0x8000000000000000 (by decide) (by decide)
  exact ⟨hnumber, htext, rfl, by rw [← htext, hread, hv], hzeros⟩

end Ifj22.Number
