import Ifj22.Number.Binary64
import Mathlib
set_option autoImplicit false

/-!
# Number: words as doubles

A word becomes the double that is nearest to it.  Its magnitude is brought to 53 bits: a short one is
filled up with zeros, and a long one loses its last bits and is rounded.  Rounding keeps the order of
magnitudes of one length, and longer magnitudes stay above shorter ones; so of two different words the
greater one becomes the greater double, or both become the same.
-/

namespace Ifj22.Number

open Float.Model UnpackedFloat

variable {m : Nat} {e : Int}

/-! ## Losing bits -/

/-- A mantissa and its two residual bits as one number. -/
def residual (em : ExtendedMantissa) : Nat :=
  4 * em.mantissa + 2 * em.roundBit.toNat + em.stickyBit.toNat

theorem residual_shiftRightOne (em : ExtendedMantissa) :
    residual em.shiftRightOne = 2 * (residual em / 4) + min 1 (residual em % 4) := by
  obtain ⟨m, round, sticky⟩ := em
  have hbit : (m % 2 != 0).toNat = m % 2 := by
    obtain h | h := Nat.mod_two_eq_zero_or_one m <;> rw [h] <;> rfl
  simp only [residual, ExtendedMantissa.shiftRightOne, hbit]
  cases round <;> cases sticky <;>
    simp only [Bool.toNat_true, Bool.toNat_false, Bool.or_true, Bool.or_false] <;> omega

/-- Losing bits keeps the order. -/
theorem residual_shiftRight_mono {em em' : ExtendedMantissa} (h : residual em ≤ residual em')
    (k : Nat) : residual (em >>> k) ≤ residual (em' >>> k) := by
  induction k with
  | zero => exact h
  | succ k ih =>
    show residual (em >>> k).shiftRightOne ≤ residual (em' >>> k).shiftRightOne
    rw [residual_shiftRightOne, residual_shiftRightOne]
    omega

theorem roundedMantissa_mono {em em' : ExtendedMantissa} (h : residual em ≤ residual em') :
    em.roundedMantissa ≤ em'.roundedMantissa := by
  obtain ⟨m, round, sticky⟩ := em
  obtain ⟨m', round', sticky'⟩ := em'
  simp only [residual] at h
  cases round <;> cases sticky <;> cases round' <;> cases sticky' <;>
    simp only [ExtendedMantissa.roundedMantissa, ExtendedMantissa.accuracy,
      Accuracy.roundToNearestEven, Bool.toNat_true, Bool.toNat_false] at h ⊢ <;> omega

theorem mantissa_shiftRight (em : ExtendedMantissa) (k : Nat) :
    (em >>> k).mantissa = em.mantissa / 2 ^ k := by
  induction k with
  | zero => exact (Nat.div_one _).symm
  | succ k ih =>
    show (em >>> k).mantissa / 2 = _
    rw [ih, Nat.div_div_eq_div_mul, Nat.pow_succ]

theorem roundedMantissa_bounds (em : ExtendedMantissa) :
    em.mantissa ≤ em.roundedMantissa ∧ em.roundedMantissa ≤ em.mantissa + 1 := by
  obtain ⟨m, round, sticky⟩ := em
  cases round <;> cases sticky <;>
    simp only [ExtendedMantissa.roundedMantissa, ExtendedMantissa.accuracy,
      Accuracy.roundToNearestEven] <;> omega

theorem shiftRight_add (em : ExtendedMantissa) (i k : Nat) : em >>> (i + k) = em >>> i >>> k := by
  induction k with
  | zero => rfl
  | succ k ih => exact congrArg ExtendedMantissa.shiftRightOne ih

/-- Zeros are lost without a trace. -/
theorem shiftRight_mul_pow (m i : Nat) :
    (⟨m * 2 ^ i, false, false⟩ : ExtendedMantissa) >>> i = ⟨m, false, false⟩ := by
  induction i generalizing m with
  | zero =>
    rw [Nat.pow_zero, Nat.mul_one]
    rfl
  | succ i ih =>
    show ((⟨m * 2 ^ (i + 1), false, false⟩ : ExtendedMantissa) >>> i).shiftRightOne = _
    rw [Nat.pow_succ', ← Nat.mul_assoc, ih]
    simp [ExtendedMantissa.shiftRightOne]

/-! ## Magnitudes -/

/-- The magnitude in units of its 53rd bit, rounded. -/
def leading (n : Nat) : Nat :=
  ((⟨n * 2 ^ 52, false, false⟩ : ExtendedMantissa) >>> n.log2).roundedMantissa

variable {n n' : Nat}

theorem leading_bounds (hn : 0 < n) : 2 ^ 52 ≤ leading n ∧ leading n ≤ 2 ^ 53 := by
  have hlow : 2 ^ n.log2 ≤ n := Nat.log2_self_le (Nat.ne_of_gt hn)
  have hhigh : n < 2 * 2 ^ n.log2 := by
    rw [← Nat.pow_succ']
    exact Nat.lt_log2_self
  have hbounds := roundedMantissa_bounds
    ((⟨n * 2 ^ 52, false, false⟩ : ExtendedMantissa) >>> n.log2)
  rw [mantissa_shiftRight] at hbounds
  have hdiv : 2 ^ 52 ≤ n * 2 ^ 52 / 2 ^ n.log2 ∧ n * 2 ^ 52 / 2 ^ n.log2 < 2 ^ 53 := by
    rw [Nat.le_div_iff_mul_le (Nat.two_pow_pos _), Nat.div_lt_iff_lt_mul (Nat.two_pow_pos _)]
    omega
  unfold leading
  dsimp only at hbounds
  omega

theorem leading_mono (h : n ≤ n') (hlog : n.log2 = n'.log2) : leading n ≤ leading n' := by
  unfold leading
  rw [hlog]
  refine roundedMantissa_mono (residual_shiftRight_mono ?_ _)
  simp only [residual]
  omega

/-- Zeros at the end of a magnitude make no difference. -/
theorem leading_eq {j : Nat} (hj : 52 ≤ n.log2 + j) :
    ((⟨n * 2 ^ j, false, false⟩ : ExtendedMantissa) >>> (n.log2 + j - 52)).roundedMantissa =
      leading n := by
  unfold leading
  obtain hle | hle := Nat.le_total 52 j
  · have hlog : n.log2 + j - 52 = j - 52 + n.log2 := by omega
    have hpow : n * 2 ^ j = n * 2 ^ 52 * 2 ^ (j - 52) := by
      rw [Nat.mul_assoc, ← Nat.pow_add, Nat.add_sub_cancel' hle]
    rw [hlog, shiftRight_add, hpow, shiftRight_mul_pow]
  · generalize hk : n.log2 + j - 52 = k
    have hlog : n.log2 = 52 - j + k := by omega
    have hpow : n * 2 ^ 52 = n * 2 ^ j * 2 ^ (52 - j) := by
      rw [Nat.mul_assoc, ← Nat.pow_add, Nat.add_sub_cancel' hle]
    rw [hlog, shiftRight_add, hpow, shiftRight_mul_pow]

/-- The mantissa of the double nearest to a magnitude. -/
def significand (n : Nat) : Nat := if leading n < 2 ^ 53 then leading n else 2 ^ 52

/-- The exponent of the double nearest to a magnitude. -/
def exponent (n : Nat) : Int := if leading n < 2 ^ 53 then n.log2 - 52 else n.log2 - 51

theorem significand_bounds (hn : 0 < n) : 2 ^ 52 ≤ significand n ∧ significand n < 2 ^ 53 := by
  have := leading_bounds hn
  unfold significand
  split <;> omega

/-- The double nearest to a magnitude, taken apart. -/
abbrev ofMagnitude (sign : Sign) (n : Nat) (hn : 0 < n) : UnpackedFloat :=
  .finite sign (significand n) (exponent n) (by have := significand_bounds hn; omega)

/-- The order of magnitudes is kept. -/
theorem exponent_mono (hn : 0 < n) (h : n ≤ n') :
    exponent n < exponent n' ∨ exponent n = exponent n' ∧ significand n ≤ significand n' := by
  have hbounds := leading_bounds hn
  have hbounds' := leading_bounds (Nat.lt_of_lt_of_le hn h)
  have hlog : n.log2 ≤ n'.log2 := by
    rw [Nat.le_log2 (by omega)]
    exact Nat.le_trans (Nat.log2_self_le (Nat.ne_of_gt hn)) h
  have hmono : n.log2 = n'.log2 → leading n ≤ leading n' := leading_mono h
  unfold exponent significand
  split <;> split <;> omega

/-! ## Rounding a magnitude -/

theorem finite_congr {sign : Sign} {m' : Nat} {e' : Int} (hm : 0 < m) (hm' : 0 < m') (h : m = m')
    (h' : e = e') : UnpackedFloat.finite sign m e hm = UnpackedFloat.finite sign m' e' hm' := by
  subst h h'
  rfl

theorem format_binary64 :
    Format.binary64.mantissaBits = 53 ∧ Format.binary64.minExponent = -1074 := ⟨rfl, rfl⟩

/-- A mantissa of at least 53 bits loses those below. -/
theorem shiftToTargetExponent_eq (hm : 52 ≤ m.log2) (he : -1074 ≤ e) :
    shiftToTargetExponent .binary64 m e .exact =
      ((⟨m, false, false⟩ : ExtendedMantissa) >>> (m.log2 - 52), e + ↑(m.log2 - 52)) := by
  have hshift : (Format.binary64.targetExponent (totalExponent m e) - e).toNat = m.log2 - 52 := by
    obtain ⟨hbits, hmin⟩ := format_binary64
    unfold Format.targetExponent totalExponent
    omega
  unfold shiftToTargetExponent shiftToExponent
  dsimp only
  rw [hshift]
  rfl

theorem shiftToTargetExponent_kept (hlow : 2 ^ 52 ≤ m) (hhigh : m < 2 ^ 53) (he : -1074 ≤ e) :
    shiftToTargetExponent .binary64 m e .exact = (⟨m, false, false⟩, e) := by
  have hlog : m.log2 = 52 := (Nat.log2_eq_iff (by omega)).mpr ⟨hlow, hhigh⟩
  rw [shiftToTargetExponent_eq (Nat.le_of_eq hlog.symm) he, hlog]
  exact congrArg (_, ·) (Int.add_zero e)

/-- A carry out of the mantissa. -/
theorem shiftToTargetExponent_carried (he : -1074 ≤ e) :
    shiftToTargetExponent .binary64 (2 ^ 53) e .exact = (⟨2 ^ 52, false, false⟩, e + 1) := by
  have hlog : Nat.log2 (2 ^ 53) = 53 := Nat.log2_two_pow
  rw [shiftToTargetExponent_eq (by rw [hlog]; decide) he, hlog]
  rfl

/-- Rounding a mantissa of at least 53 bits. -/
theorem roundWithAccuracy_eq (sign : Sign) {r : Nat} (hm : 52 ≤ m.log2) (he : -1074 ≤ e)
    (hr : ((⟨m, false, false⟩ : ExtendedMantissa) >>> (m.log2 - 52)).roundedMantissa = r)
    (hlow : 2 ^ 52 ≤ r) (hhigh : r ≤ 2 ^ 53) :
    roundWithAccuracy .binary64 sign m e .exact =
      if h : r < 2 ^ 53 then .finite sign r (e + ↑(m.log2 - 52)) (by omega)
      else .finite sign (2 ^ 52) (e + ↑(m.log2 - 52) + 1) (by decide) := by
  unfold roundWithAccuracy
  rw [shiftToTargetExponent_eq hm he]
  dsimp only
  rw [hr]
  by_cases h : r < 2 ^ 53
  · have hne : r ≠ 0 := by omega
    rw [shiftToTargetExponent_kept hlow h (by omega), dif_pos h, dif_neg hne]
  · obtain rfl : r = 2 ^ 53 := by omega
    rw [shiftToTargetExponent_carried (by omega)]
    rfl

/-- A magnitude is rounded to its double, whatever zeros follow it. -/
theorem roundWithAccuracy_mul_pow (sign : Sign) (hn : 0 < n) {j : Nat} (hj : 52 ≤ n.log2 + j)
    (hj' : j ≤ 1074) :
    roundWithAccuracy .binary64 sign (n * 2 ^ j) (-j) .exact = ofMagnitude sign n hn := by
  obtain ⟨hlow, hhigh⟩ := leading_bounds hn
  have hlog : (n * 2 ^ j).log2 = n.log2 + j := by
    rw [Nat.log2_eq_iff (Nat.ne_of_gt (Nat.mul_pos hn (Nat.two_pow_pos j))), Nat.add_right_comm,
      Nat.pow_add, Nat.pow_add]
    exact ⟨Nat.mul_le_mul_right _ (Nat.log2_self_le (Nat.ne_of_gt hn)),
      Nat.mul_lt_mul_of_pos_right Nat.lt_log2_self (Nat.two_pow_pos j)⟩
  rw [roundWithAccuracy_eq sign (by omega) (by omega) (hlog ▸ leading_eq hj) hlow hhigh, hlog]
  by_cases hlt : leading n < 2 ^ 53
  · rw [dif_pos hlt]
    refine finite_congr _ _ (if_pos hlt).symm ?_
    rw [exponent, if_pos hlt]
    omega
  · rw [dif_neg hlt]
    refine finite_congr _ _ (if_neg hlt).symm ?_
    rw [exponent, if_neg hlt]
    omega

theorem round_eq (sign : Sign) (hn : 0 < n) :
    UnpackedFloat.round .binary64 sign n 0 = ofMagnitude sign n hn := by
  have htarget : Format.binary64.targetExponent (totalExponent n 0) = (n.log2 : Int) - 52 := by
    obtain ⟨hbits, hmin⟩ := format_binary64
    unfold Format.targetExponent totalExponent
    omega
  have hshift : (0 - ((n.log2 : Int) - 52)).toNat = 52 - n.log2 := by omega
  rw [← roundWithAccuracy_mul_pow sign hn (j := 52 - n.log2) (by omega) (by omega)]
  unfold UnpackedFloat.round
  simp only [htarget, decreaseExponent, hshift, Nat.shiftLeft_eq]
  rw [Int.zero_sub]

/-! ## Packing -/

/-- A mantissa of 53 bits with an exponent in range survives packing. -/
theorem unpack_pack {sign : Sign} (hpos : 0 < m) (hlow : 2 ^ 52 ≤ m) (hhigh : m < 2 ^ 53)
    (he : -1074 ≤ e) (he' : e ≤ 971) :
    UnpackedFloat.unpack .binary64 (UnpackedFloat.pack .binary64 (.finite sign m e hpos)) =
      .finite sign m e hpos := by
  have hlog : m.log2 = 52 := (Nat.log2_eq_iff (by omega)).mpr ⟨hlow, hhigh⟩
  obtain ⟨k, hk⟩ : ∃ k : Nat, e = k - 1075 := ⟨(e + 1075).toNat, by omega⟩
  have hbiased : (e + Format.binary64.exponentBias +
      Format.binary64.mantissaBitsWithoutImplicit).toNat = k := by
    simp only [Format.exponentBias]
    omega
  have hpack : UnpackedFloat.pack .binary64 (.finite sign m e hpos) =
      packComponents .binary64 sign (BitVec.ofNat 11 k) (BitVec.ofNat 52 m) := by
    unfold UnpackedFloat.pack
    dsimp only
    rw [hbiased, if_neg (by omega), if_pos (by rw [hlog]; rfl)]
  have hexp : (BitVec.ofNat 11 k).toNat = k := by
    rw [BitVec.toNat_ofNat, Nat.mod_eq_of_lt (by omega)]
  have hall : BitVec.ofNat 11 k ≠ -1#11 := fun h => by
    have := congrArg BitVec.toNat h
    rw [hexp] at this
    have hmax : (-1#11).toNat = 2047 := by decide
    omega
  have hzero : BitVec.ofNat 11 k ≠ 0#11 := fun h => by
    have := congrArg BitVec.toNat h
    rw [hexp] at this
    have hmin : (0#11).toNat = 0 := by decide
    omega
  have hmantissa : (1#1 ++ BitVec.ofNat 52 m).toNat = m := by
    rw [BitVec.toNat_append, ← Nat.shiftLeft_add_eq_or_of_lt (BitVec.isLt _), BitVec.toNat_ofNat]
    show 1 * 2 ^ 52 + m % 2 ^ 52 = m
    omega
  rw [hpack]
  unfold UnpackedFloat.unpack
  simp only [unpackMantissa_packComponents, unpackExponent_packComponents, unpackSign_packComponents,
    Sign.ofBitVec_toBitVec]
  rw [if_neg hall, if_neg hzero]
  refine finite_congr _ _ hmantissa ?_
  rw [hexp, hk]
  rfl

/-! ## The order of doubles -/

theorem ofInt_natCast (hn : 0 < n) :
    UnpackedFloat.ofInt .binary64 n = ofMagnitude .positive n hn := by
  unfold UnpackedFloat.ofInt UnpackedFloat.normalize
  rw [Int.compare_eq_gt.mpr (by omega)]
  exact round_eq .positive hn

theorem ofInt_neg_natCast (hn : 0 < n) :
    UnpackedFloat.ofInt .binary64 (-n) = ofMagnitude .negative n hn := by
  unfold UnpackedFloat.ofInt UnpackedFloat.normalize
  rw [Int.compare_eq_lt.mpr (by omega)]
  dsimp only
  rw [Int.neg_neg]
  exact round_eq .negative hn

/-- How the doubles of two magnitudes compare. -/
def order (n n' : Nat) : Ordering :=
  (compare (exponent n) (exponent n')).then (compare (significand n) (significand n'))

theorem order_swap (n n' : Nat) : (order n n').swap = order n' n := by
  unfold order
  rw [Ordering.swap_then, ← Std.OrientedOrd.eq_swap, ← Std.OrientedOrd.eq_swap]

theorem order_self (n : Nat) : order n n = .eq := by
  unfold order
  rw [Std.ReflOrd.compare_self, Std.ReflOrd.compare_self]
  rfl

theorem order_ne_gt (hn : 0 < n) (h : n ≤ n') : order n n' ≠ .gt := by
  unfold order
  obtain hlt | ⟨heq, hle⟩ := exponent_mono hn h
  · rw [Int.compare_eq_lt.mpr hlt]
    exact (nofun : Ordering.lt ≠ .gt)
  · rw [heq, Std.ReflOrd.compare_self]
    exact Nat.compare_ne_gt.mpr hle

/-- The two floats compare like this, from either side. -/
def Compares (u v : UnpackedFloat) (o : Ordering) : Prop :=
  u.compare v = some o ∧ v.compare u = some o.swap

theorem int_cases (i : Int) : i = 0 ∨ (∃ n : Nat, 0 < n ∧ i = n) ∨ ∃ n : Nat, 0 < n ∧ i = -n := by
  obtain hlt | heq | hgt := Int.lt_trichotomy i 0
  · exact .inr (.inr ⟨i.natAbs, by omega, by omega⟩)
  · exact .inl heq
  · exact .inr (.inl ⟨i.natAbs, by omega, by omega⟩)

/-- The order of ints is kept, but different ints may become equal. -/
theorem compares_ofInt {a b : Int} (h : a ≤ b) :
    ∃ o, Compares (UnpackedFloat.ofInt .binary64 a) (UnpackedFloat.ofInt .binary64 b) o ∧
      o ≠ .gt ∧ (a = b → o = .eq) := by
  obtain rfl | ⟨n, hn, rfl⟩ | ⟨n, hn, rfl⟩ := int_cases a <;>
    obtain rfl | ⟨n', hn', rfl⟩ | ⟨n', hn', rfl⟩ := int_cases b
  · exact ⟨.eq, ⟨rfl, rfl⟩, by decide, fun _ => rfl⟩
  · rw [ofInt_natCast hn']
    exact ⟨.lt, ⟨rfl, rfl⟩, by decide, by omega⟩
  · omega
  · omega
  · rw [ofInt_natCast hn, ofInt_natCast hn']
    refine ⟨order n n', ⟨rfl, ?_⟩, order_ne_gt hn (by omega), fun heq => ?_⟩
    · rw [order_swap]
      rfl
    · rw [show n = n' by omega, order_self]
  · omega
  · rw [ofInt_neg_natCast hn]
    exact ⟨.lt, ⟨rfl, rfl⟩, by decide, by omega⟩
  · rw [ofInt_neg_natCast hn, ofInt_natCast hn']
    exact ⟨.lt, ⟨rfl, rfl⟩, by decide, by omega⟩
  · rw [ofInt_neg_natCast hn, ofInt_neg_natCast hn']
    refine ⟨order n' n, ⟨?_, rfl⟩, order_ne_gt hn' (by omega), fun heq => ?_⟩
    · rw [← order_swap]
      rfl
    · rw [show n = n' by omega, order_self]

theorem exponent_bounds (hn : 0 < n) (h : n < 2 ^ 64) : -1074 ≤ exponent n ∧ exponent n ≤ 971 := by
  have hlog : n.log2 < 64 := (Nat.log2_lt (Nat.ne_of_gt hn)).mpr h
  unfold exponent
  split <;> omega

theorem unpack_pack_ofMagnitude (sign : Sign) (hn : 0 < n) (h : n < 2 ^ 64) :
    UnpackedFloat.unpack .binary64 (UnpackedFloat.pack .binary64 (ofMagnitude sign n hn)) =
      ofMagnitude sign n hn := by
  obtain ⟨hlow, hhigh⟩ := significand_bounds hn
  obtain ⟨hmin, hmax⟩ := exponent_bounds hn h
  exact unpack_pack _ hlow hhigh hmin hmax

/-- Multiplying by one changes nothing. -/
theorem mul_one_ofMagnitude (hn : 0 < n) :
    UnpackedFloat.mul .binary64 (ofMagnitude .positive n hn)
      (.finite .positive (2 ^ 52) (-52) (by decide)) = ofMagnitude .positive n hn := by
  obtain ⟨hlow, hhigh⟩ := significand_bounds hn
  have hexp : -52 ≤ exponent n := by
    unfold exponent
    split <;> omega
  have hlog : (significand n * 2 ^ 52).log2 = 104 :=
    (Nat.log2_eq_iff (by omega)).mpr ⟨by omega, by omega⟩
  show roundWithAccuracy .binary64 .positive (significand n * 2 ^ 52) (exponent n + -52) .exact = _
  rw [roundWithAccuracy_eq .positive (r := significand n) (by omega) (by omega)
    (by rw [hlog, shiftRight_mul_pow]; rfl) hlow (by omega), dif_pos hhigh]
  exact finite_congr _ _ rfl (by omega)

theorem ofScientific_eq (hn : 0 < n) :
    UnpackedFloat.ofScientific .binary64 n 0 = ofMagnitude .positive n hn := by
  have hpow : (0 : Int) ≤ 2 ^ Format.binary64.exponentBits := by decide
  rw [← roundWithAccuracy_mul_pow .positive hn (j := 53) (by omega) (by decide)]
  unfold UnpackedFloat.ofScientific
  rw [dif_neg (Nat.ne_of_gt hn), if_neg (by decide), if_neg (by omega), if_pos (by decide)]
  show roundWithAccuracy .binary64 .positive (n <<< 53 * 1) (-53) .exact = _
  rw [Nat.mul_one, Nat.shiftLeft_eq]
  rfl

theorem unpack_toFloat (hn : 0 < n) (h : n < 2 ^ 64) :
    n.toUInt64.toFloat.toModel.unpack = ofMagnitude .positive n hn := by
  show UnpackedFloat.unpack .binary64 (UnpackedFloat.pack .binary64
    (UnpackedFloat.ofInt .binary64 (n.toUInt64.toNat : Nat))) = _
  rw [UInt64.toNat_ofNat_of_lt' h, ofInt_natCast hn]
  exact unpack_pack_ofMagnitude .positive hn h

/-- A number is read as if it were written in decimal: a short one is converted and multiplied by the
power of ten, which is one here, and a long one is scaled and rounded. -/
theorem unpack_ofNat (hn : 0 < n) (h : n < 2 ^ 64) :
    (Float.ofNat n).toModel.unpack = ofMagnitude .positive n hn := by
  by_cases hshort : n < 2 ^ 53
  · have hofNat : Float.ofNat n = n.toUInt64.toFloat * Float.ofBits 0x3FF0000000000000 :=
      dif_pos ⟨hshort, by decide⟩
    have hone : (Float.ofBits 0x3FF0000000000000).toModel.unpack =
        .finite .positive (2 ^ 52) (-52) (by decide) := by rfl
    rw [hofNat]
    show UnpackedFloat.unpack .binary64 (UnpackedFloat.pack .binary64
      (UnpackedFloat.mul .binary64 n.toUInt64.toFloat.toModel.unpack
        (Float.ofBits 0x3FF0000000000000).toModel.unpack)) = _
    rw [unpack_toFloat hn h, hone, mul_one_ofMagnitude hn]
    exact unpack_pack_ofMagnitude .positive hn h
  · have hofNat : Float.ofNat n = Float.ofModel (Float.Model.ofScientific n 0) :=
      dif_neg fun hand => hshort hand.1
    rw [hofNat]
    show UnpackedFloat.unpack .binary64 (UnpackedFloat.pack .binary64
      (UnpackedFloat.ofScientific .binary64 n 0)) = _
    rw [ofScientific_eq hn]
    exact unpack_pack_ofMagnitude .positive hn h

/-- The double of an int that fits into 64 bits is taken apart into what it was made of. -/
theorem unpack_ofInt {a : Int} (ha : a.natAbs < 2 ^ 64) :
    (Float.ofInt a).toModel.unpack = UnpackedFloat.ofInt .binary64 a := by
  obtain rfl | ⟨n, hn, rfl⟩ | ⟨n, hn, rfl⟩ := int_cases a
  · rfl
  · rw [ofInt_natCast hn]
    exact unpack_ofNat hn (by omega)
  · obtain ⟨k, rfl⟩ : ∃ k, n = k + 1 := ⟨n - 1, by omega⟩
    rw [ofInt_neg_natCast hn]
    show UnpackedFloat.unpack .binary64 (UnpackedFloat.pack .binary64
      (UnpackedFloat.neg (Float.ofNat (k + 1)).toModel.unpack)) = _
    rw [unpack_ofNat hn (by omega)]
    exact unpack_pack_ofMagnitude .negative hn (by omega)

/-! ## Words -/

/-- Two doubles that are numbers, and how they compare. -/
structure Ordered (x y : Float) (o : Ordering) : Prop where
  lt : decide (x < y) = (o == .lt)
  gt : decide (x > y) = (o == .gt)
  le : decide (x ≤ y) = (o != .gt)
  ge : decide (x ≥ y) = (o != .lt)
  eq : (x == y) = (o == .eq)

theorem Compares.ordered {x y : Float} {o : Ordering}
    (h : Compares x.toModel.unpack y.toModel.unpack o) : Ordered x y o := by
  obtain ⟨hxy, hyx⟩ := h
  refine ⟨?_, ?_, ?_, ?_, ?_⟩
  · show decide (decide ((x.toModel.unpack.compare y.toModel.unpack == some .lt) = true) = true) = _
    rw [hxy]
    cases o <;> rfl
  · show decide (decide ((y.toModel.unpack.compare x.toModel.unpack == some .lt) = true) = true) = _
    rw [hyx]
    cases o <;> rfl
  · show decide (decide ((x.toModel.unpack.compare y.toModel.unpack).any (·.isLE) = true) = true) = _
    rw [hxy]
    cases o <;> rfl
  · show decide (decide ((y.toModel.unpack.compare x.toModel.unpack).any (·.isLE) = true) = true) = _
    rw [hyx]
    cases o <;> rfl
  · show (x.toModel.unpack.compare y.toModel.unpack == some .eq) = _
    rw [hxy]
    cases o <;> rfl

theorem natAbs_toInt_lt (w : Int64) : w.toInt.natAbs < 2 ^ 64 := by
  have := w.le_toInt
  have := w.toInt_lt
  omega

/-- The doubles of two words compare like the words, or they are the same. -/
theorem ordered_ofWord (a b : Int64) :
    ∃ o, Ordered (ofWord a) (ofWord b) o ∧ (o = compare a.toInt b.toInt ∨ o = .eq) := by
  have hordered {o : Ordering} (h : Compares (UnpackedFloat.ofInt .binary64 a.toInt)
      (UnpackedFloat.ofInt .binary64 b.toInt) o) : Ordered (ofWord a) (ofWord b) o := by
    rw [← unpack_ofInt (natAbs_toInt_lt a), ← unpack_ofInt (natAbs_toInt_lt b)] at h
    exact h.ordered
  obtain hle | hlt := (Decidable.em (a.toInt ≤ b.toInt)).imp_right Int.lt_of_not_ge
  · obtain ⟨o, ho, hgt, heq⟩ := compares_ofInt hle
    refine ⟨o, hordered ho, ?_⟩
    cases hcompare : compare a.toInt b.toInt with
    | lt => cases o <;> simp_all
    | eq => exact .inr (heq (Int.compare_eq_eq.mp hcompare))
    | gt => exact absurd (Int.compare_eq_gt.mp hcompare) (by omega)
  · obtain ⟨o, ⟨hba, hab⟩, hgt, -⟩ := compares_ofInt (Int.le_of_lt hlt)
    refine ⟨o.swap, hordered ⟨hab, by rw [hba, Ordering.swap_swap]⟩, ?_⟩
    rw [Int.compare_eq_gt.mpr hlt]
    cases o <;> simp_all

end Ifj22.Number
