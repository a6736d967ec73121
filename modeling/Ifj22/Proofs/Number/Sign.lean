import Ifj22.Number.Fixed
set_option autoImplicit false

/-!
# Number: doubles without a sign

Sums and products of doubles whose sign bit is not set have none set either, so the magnitude of a
double in millionths is not negative before it is made a natural number.
-/

namespace Ifj22.Number

open Float.Model

/-- A float that is taken apart is no number or has the positive sign. -/
def IsPositive : UnpackedFloat → Prop
  | .notANumber => True
  | .infinity s => s = .positive
  | .zero s => s = .positive
  | .finite s .. => s = .positive

theorem isPositive_ite {c : Prop} [Decidable c] {u v : UnpackedFloat} (hu : IsPositive u)
    (hv : IsPositive v) : IsPositive (if c then u else v) := by
  split
  · exact hu
  · exact hv

theorem isPositive_dite {c : Prop} [Decidable c] {u : c → UnpackedFloat} {v : ¬ c → UnpackedFloat}
    (hu : ∀ h, IsPositive (u h)) (hv : ∀ h, IsPositive (v h)) :
    IsPositive (if h : c then u h else v h) := by
  split
  · exact hu _
  · exact hv _

theorem isPositive_unpack {b : BitVec 64} (h : b.msb = false) :
    IsPositive (UnpackedFloat.unpack .binary64 b) := by
  have hsign : @UnpackedFloat.unpackSign .binary64 b = 0#1 := by
    have hlast : b.getLsbD 63 = false := (BitVec.msb_eq_getLsbD_last b).symm.trans h
    ext i hi
    obtain rfl : i = 0 := by omega
    unfold UnpackedFloat.unpackSign
    simp [hlast]
  unfold UnpackedFloat.unpack
  rw [hsign]
  exact isPositive_ite (isPositive_ite rfl trivial)
    (isPositive_ite (isPositive_dite (fun _ => rfl) fun _ => rfl) rfl)

theorem msb_packComponents (e : BitVec 11) (f : BitVec 52) :
    (UnpackedFloat.packComponents .binary64 .positive e f).msb = false := by
  show (0#1 ++ e ++ f : BitVec (1 + 11 + 52)).msb = false
  rw [BitVec.msb_append, BitVec.msb_append]
  rfl

theorem msb_pack {u : UnpackedFloat} (h : IsPositive u) :
    (UnpackedFloat.pack .binary64 u).msb = false := by
  cases u with
  | notANumber => exact msb_packComponents _ _
  | infinity s => cases h; exact msb_packComponents _ _
  | zero s => cases h; exact msb_packComponents _ _
  | finite s m e hm =>
    cases h
    unfold UnpackedFloat.pack
    dsimp only
    repeat' split
    all_goals exact msb_packComponents _ _

theorem isPositive_roundWithAccuracy (m : Nat) (e : Int) (accuracy : UnpackedFloat.Accuracy) :
    IsPositive (UnpackedFloat.roundWithAccuracy .binary64 .positive m e accuracy) := by
  unfold UnpackedFloat.roundWithAccuracy
  exact isPositive_dite (fun _ => rfl) fun _ => rfl

theorem isPositive_normalize {m : Int} (h : 0 ≤ m) (e : Int) :
    IsPositive (UnpackedFloat.normalize .binary64 m e .positive) := by
  unfold UnpackedFloat.normalize
  split
  · next hlt => exact absurd (Int.compare_eq_lt.mp hlt) (Int.not_lt.mpr h)
  · rfl
  · exact isPositive_roundWithAccuracy ..

theorem isPositive_abs (u : UnpackedFloat) : IsPositive u.abs := by cases u <;> trivial

theorem isPositive_mul {u v : UnpackedFloat} (hu : IsPositive u) (hv : IsPositive v) :
    IsPositive (UnpackedFloat.mul .binary64 u v) := by
  cases u <;> cases v <;> cases hu <;> cases hv
  case finite.finite => exact isPositive_roundWithAccuracy ..
  all_goals trivial

theorem isPositive_add {u v : UnpackedFloat} (hu : IsPositive u) (hv : IsPositive v) :
    IsPositive (UnpackedFloat.add .binary64 u v) := by
  cases u <;> cases v <;> cases hu <;> cases hv
  case finite.finite =>
    exact isPositive_normalize (Int.add_nonneg (Int.natCast_nonneg _) (Int.natCast_nonneg _)) _
  all_goals trivial

/-! ## Doubles -/

/-- The sign bit of the double is not set. -/
def Unsigned (x : Float) : Prop := x.toBits.toBitVec.msb = false

theorem unsigned_abs (x : Float) : Unsigned x.abs := msb_pack (isPositive_abs _)

theorem Unsigned.mul {x y : Float} (hx : Unsigned x) (hy : Unsigned y) : Unsigned (x * y) :=
  msb_pack (isPositive_mul (isPositive_unpack hx) (isPositive_unpack hy))

theorem Unsigned.add {x y : Float} (hx : Unsigned x) (hy : Unsigned y) : Unsigned (x + y) :=
  msb_pack (isPositive_add (isPositive_unpack hx) (isPositive_unpack hy))

/-- A negative double is taken from zero by dropping its sign. -/
theorem zero_sub_eq_abs {x : Float} (h : x < 0.0) : 0.0 - x = x.abs := by
  have hunpacked : ∀ u : UnpackedFloat, u.lt (.zero .positive) = true →
      UnpackedFloat.sub .binary64 (.zero .positive) u = u.abs := by
    intro u hu
    cases u with
    | notANumber => rfl
    | zero s => cases hu
    | infinity s =>
      cases s with
      | negative => rfl
      | positive => cases hu
    | finite s m e hm =>
      cases s with
      | negative => rfl
      | positive => cases hu
  have hneg : x.toModel.unpack.lt (.zero .positive) = true := of_decide_eq_true h
  exact congrArg (fun u => Float.ofModel (pack u)) (hunpacked _ hneg)

theorem ofIntClamp_nonneg (n : Nat) : 0 ≤ (Int64.ofIntClamp n).toInt := by
  have hmin : Int64.minValue.toInt ≤ n := by
    have : Int64.minValue.toInt ≤ 0 := by decide
    omega
  by_cases hmax : (n : Int) ≤ Int64.maxValue.toInt
  · rw [Int64.toInt_ofIntClamp hmin hmax]
    omega
  · rw [Int64.ofIntClamp, dif_pos hmin, dif_neg hmax]
    decide

theorem Unsigned.truncate_nonneg {x : Float} (h : Unsigned x) : 0 ≤ (truncate x).toInt := by
  have hbits : 2 * x.toBits.toNat < 2 ^ 64 := BitVec.msb_eq_false_iff_two_mul_lt.mp h
  have hsign : (Fields.ofFloat x).negative = false := by
    refine decide_eq_false ?_
    omega
  unfold truncate
  simp only [hsign, Bool.false_eq_true, if_false]
  split
  · decide
  · split
    · decide
    · exact ofIntClamp_nonneg _

/-- The rounded magnitude of a double in millionths is not negative. -/
theorem millionths_eq (x : Float) :
    (millionths x : Int) = (truncate (x.abs * 1000000.0 + 0.5)).toInt := by
  have hmillion : Unsigned 1000000.0 := by unfold Unsigned; decide
  have hhalf : Unsigned 0.5 := by unfold Unsigned; decide
  exact Int.toNat_of_nonneg (((unsigned_abs x).mul hmillion).add hhalf).truncate_nonneg

end Ifj22.Number
