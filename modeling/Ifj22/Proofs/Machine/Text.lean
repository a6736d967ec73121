import Ifj22.Proofs.Machine.Local
import Ifj22.Proofs.Number.Fixed
import Ifj22.Proofs.Number.Sign
set_option autoImplicit false

/-!
# Machine: the routine that writes a value

The routine finds the digits of a number from the last one to the first one.  It has three loops: one
drops the zeros at the end of the fraction, one writes the fraction and one writes the digits before
the point.  Each loop is a lemma by induction, from behind its label, and the blocks of the routine
are joined at their labels.
-/

namespace Ifj22.Machine

open Code Code.Routine

variable {f n : Nat} {x : Float}

/-! ## The machine -/

/-- The ints of the machine have no bound, and it divides ints and joins texts as usual.  A bound
would show: the routine takes the digits of a negative int from its negative, and that of the
least word is no word. -/
structure Exact (m : Machine) : Prop where
  round : ∀ n, m.round n = some n
  idiv : ∀ a b : Int, 0 ≤ a → 0 < b → m.binaryOp .idiv (.int a) (.int b) = some (.int (a / b))
  concat : ∀ s t, m.binaryOp .concat (.str s) (.str t) = some (.str (s ++ t))
  int2char : ∀ c : Char, m.unaryOp .int2char (.int c.toNat) = some (.str (String.singleton c))

/-- The machine finds the sign of a double and its magnitude in millionths; what it yields in
between is left open.  The arithmetic of doubles is the machine's own, so nothing is asked of the
steps but that each has a result, and of the int at the end that it is the one that the compiler
gets. -/
def Scales (m : Machine) (x : Float) : Prop :=
  m.binaryOp .lt (.float x) (.float 0.0) = some (.bool (decide (x < 0.0))) ∧
  ∃ y z w, (x < 0.0 → m.binaryOp .sub (.float 0.0) (.float x) = some (.float y)) ∧
    (¬ x < 0.0 → y = x) ∧ m.binaryOp .mul (.float y) (.float 1000000.0) = some (.float z) ∧
    m.binaryOp .add (.float z) (.float 0.5) = some (.float w) ∧
    m.unaryOp .float2int (.float w) =
      some (.int (Number.truncate (x.abs * 1000000.0 + 0.5)).toInt)

namespace Exact

variable {m : Machine} (hm : m.Exact)

include hm

theorem add (a b : Int) : m.binaryOp .add (.int a) (.int b) = some (.int (a + b)) := by
  rw [binaryOp, hm.round, Option.map_some]

theorem sub (a b : Int) : m.binaryOp .sub (.int a) (.int b) = some (.int (a - b)) := by
  rw [binaryOp, hm.round, Option.map_some]

theorem mul (a b : Int) : m.binaryOp .mul (.int a) (.int b) = some (.int (a * b)) := by
  rw [binaryOp, hm.round, Option.map_some]

end Exact

/-! ## Facts -/

/-- The variables of the routine. -/
def textNames : List String :=
  ["%retval", "value", "type", "digits", "digit", "char", "neg", "frac", "fracstr", "count", "tmp"]

/-- What is known behind taking the last digit off a number. -/
def digitFacts (n : Nat) : Facts :=
  [("char", .str (String.singleton (Number.lastDigit n))), ("digit", .int (n - n / 10 * 10 + 48)),
   ("digit", .int (n - n / 10 * 10)), ("digit", .int (n / 10 * 10)), ("tmp", .int (n / 10))]

/-- What is known where the digits before the point are written: those that are left, those that are
written, the fraction and the sign. -/
def wholeFacts (n : Nat) (digits fraction : String) (negative : Bool) : Facts :=
  [("digits", .int n), ("%retval", .str digits), ("fracstr", .str fraction), ("neg", .bool negative)]

/-- What is known where the fraction is written: the places that are left and the number they hold. -/
def fractionFacts (count f n : Nat) (fraction : String) (negative : Bool) : Facts :=
  ("count", .int count) :: ("frac", .int f) :: wholeFacts n "" fraction negative

/-- What is known where a value of a known kind starts to be written. -/
def startFacts (v : Value) : Facts := [("value", v), ("%retval", .str ""), ("fracstr", .str "")]

/-- What is known where the magnitude of a double has been found. -/
def magnitudeFacts (y : Float) (negative : Bool) : Facts :=
  [("tmp", .float y), ("neg", .bool negative), ("%retval", .str ""), ("fracstr", .str "")]

/-- A number with its sign and what stands behind it. -/
def signedText (negative : Bool) (n : Nat) (fraction : String) : String :=
  (if negative then "-" else "") ++ (toString n ++ fraction)

theorem signedText_false (n : Nat) : signedText false n "" = toString (Int.ofNat n) := by
  rw [signedText, String.append_empty, if_neg (by decide), String.empty_append]
  rfl

theorem signedText_true (n : Nat) : signedText true (n + 1) "" = toString (Int.negSucc n) := by
  rw [signedText, String.append_empty, if_pos rfl]
  rfl

theorem signedText_millionths (x : Float) :
    signedText (decide (x < 0.0) && Number.millionths x != 0) (Number.millionths x / 1000000)
      (if Number.millionths x % 1000000 = 0 then ""
        else "." ++ String.ofList (Number.placesText (Number.millionths x % 1000000))) =
      Number.fixedText x := by
  rw [signedText, Number.fixedText_eq, String.append_assoc]

-- a walk over a stretch of the code is computed from what is known at its start
attribute [local simp] Facts.Walks lf block equal? textNames digitFacts wholeFacts fractionFacts
  startFacts magnitudeFacts List.lookup_cons Var.result Value.typeName

section

variable {m : Machine} (hm : m.Exact)

include hm

theorem walk?_lastDigit {x : String} {k : Facts} (hx : k.lookup x = some (.int n))
    (htmp : (x == "tmp") = false) (hdigit : (x == "digit") = false) (code : List Instr) :
    Facts.walk? m textNames (lastDigit x ++ code) k =
      Facts.walk? m textNames code (digitFacts n ++ k) := by
  have hchar : m.unaryOp .int2char (.int (n - n / 10 * 10 + 48)) =
      some (.str (String.singleton (Number.lastDigit n))) := by
    rw [← hm.int2char, Number.toNat_lastDigit]
    congr 2
    omega
  simp [lastDigit, hx, hm.add, hm.sub, hm.mul, hm.idiv, hchar, htmp, hdigit]

/-! ## The digits before the point -/

variable {program : List Instr} (hP : Distinct program) {r : Routine} {rest : List Instr}

/-- One digit, with others before it. -/
theorem walks_whole_digit (hn : n / 10 ≠ 0) (digits fraction : String) (negative : Bool) :
    Facts.Walks m textNames r.textWholeLoop (wholeFacts n digits fraction negative)
      (some (r.inside "whole"))
      (wholeFacts (n / 10) (String.singleton (Number.lastDigit n) ++ digits) fraction negative) := by
  have hn' : ¬ (n : Int) / 10 = 0 := by omega
  have hlast := fun code => walk?_lastDigit hm (k := wholeFacts n digits fraction negative)
    (x := "digits") rfl rfl rfl code
  rw [textWholeLoop, Facts.Walks, hlast]
  simp [hm.concat, hn']

/-- The first digit, and the sign before it. -/
theorem walks_whole_last (hn : n / 10 = 0) (digits fraction : String) (negative : Bool) :
    Facts.Walks m textNames r.textWholeLoop (wholeFacts n digits fraction negative)
      (if negative then none else some (r.inside "end"))
      [("%retval", .str (signedText negative n (digits ++ fraction)))] := by
  have hn' : (n : Int) / 10 = 0 := by omega
  have hlast := fun code => walk?_lastDigit hm (k := wholeFacts n digits fraction negative)
    (x := "digits") rfl rfl rfl code
  rw [textWholeLoop, Facts.Walks, hlast, signedText, Number.toString_of_div_eq_zero hn]
  cases negative <;>
    simp [hm.concat, hn', String.append_assoc]

include hP

theorem leads_whole (hplace : (r.textWhole ++ rest) <:+ program) (n : Nat) (digits fraction : String)
    (negative : Bool) : m.Leads program textNames (r.textWhole.tail ++ rest)
      (wholeFacts n digits fraction negative) rest
      [("%retval", .str (signedText negative n (digits ++ fraction)))] := by
  -- by what is left of the number; each round takes a digit off it
  induction n using Nat.strongRecOn generalizing digits with
  | _ n ih =>
    by_cases hn : n / 10 = 0
    · have hlast := walks_whole_last hm (r := r) hn digits fraction negative
      cases negative with
      | true => exact (Leads.walk hP hlast rfl).trans Leads.label
      | false => exact .walk hP hlast (.trans ⟨r.block "whole" r.textWholeLoop, rfl⟩ hplace)
    · have hlt : n / 10 < n := by omega
      have htext : signedText negative (n / 10) (String.singleton (Number.lastDigit n) ++ digits ++
          fraction) = signedText negative n (digits ++ fraction) := by
        simp only [signedText, Number.toString_eq_append hn, String.append_assoc]
      rw [← htext]
      exact (Leads.walk hP (walks_whole_digit hm hn digits fraction negative) hplace).trans (ih _ hlt _)

/-! ## The fraction -/

omit hP in
/-- One place, with others before it. -/
theorem walks_fraction_digit (count f n : Nat) (fraction : String) (negative : Bool) :
    Facts.Walks m textNames r.textFractionLoop (fractionFacts (count + 1) f n fraction negative)
      (some (r.inside "frac_loop"))
      (fractionFacts count (f / 10) n (String.singleton (Number.lastDigit f) ++ fraction) negative) := by
  have hcount : ¬ (count : Int) + 1 = 0 := by omega
  have hjump : ∀ l code, Facts.walk? m textNames (.jumpIfEq l (lf "count") (.int 0) :: code)
      (fractionFacts (count + 1) f n fraction negative) =
      Facts.walk? m textNames code (fractionFacts (count + 1) f n fraction negative) := by
    intro l code
    simp [hcount]
  rw [textFractionLoop, List.append_assoc, List.singleton_append, Facts.Walks, hjump,
    walk?_lastDigit hm rfl rfl rfl]
  simp [hm.concat, hm.sub]

theorem leads_fraction
    (hplace : (r.block "frac_loop" r.textFractionLoop ++ (r.textPoint ++ rest)) <:+ program)
    (count f n : Nat) (fraction : String) (negative : Bool) :
    m.Leads program textNames (r.textFractionLoop ++ (r.textPoint ++ rest))
      (fractionFacts count f n fraction negative) rest
      (wholeFacts n "" ("." ++ (String.ofList (Number.places count f) ++ fraction)) negative) := by
  induction count generalizing f fraction with
  | zero =>
    have hjump : Facts.Walks m textNames r.textFractionLoop
        (fractionFacts 0 f n fraction negative) (some (r.inside "frac_done"))
        (wholeFacts n "" fraction negative) := by
      simp [textFractionLoop]
    have hpoint : Facts.Walks m textNames r.textPoint.tail (wholeFacts n "" fraction negative)
        none (wholeFacts n "" ("." ++ fraction) negative) := by
      simp [textPoint, hm.concat]
    rw [Number.places, String.ofList_nil, String.empty_append]
    exact (Leads.walk hP hjump ((List.suffix_append ..).trans hplace)).trans (.walk hP hpoint rfl)
  | succ count ih =>
    have htext : String.ofList (Number.places (count + 1) f) ++ fraction =
        String.ofList (Number.places count (f / 10)) ++
          (String.singleton (Number.lastDigit f) ++ fraction) := by
      rw [Number.places, String.ofList_append, String.append_assoc]
      rfl
    rw [htext]
    exact (Leads.walk hP (walks_fraction_digit hm count f n fraction negative) hplace).trans (ih _ _)

/-- A number without a fraction. -/
theorem leads_render_zero (hplace : (r.textFraction ++ (r.textWhole ++ rest)) <:+ program) (n : Nat)
    (negative : Bool) : m.Leads program textNames (r.textFraction.tail ++ (r.textWhole ++ rest))
      (("frac", .int 0) :: wholeFacts n "" "" negative) rest
      [("%retval", .str (signedText negative n ""))] := by
  have hwhole : (r.textWhole ++ rest) <:+ program := (List.suffix_append ..).trans hplace
  have hjump : Facts.Walks m textNames r.textFraction.tail
      (("frac", .int 0) :: wholeFacts n "" "" negative) (some (r.inside "whole"))
      (wholeFacts n "" "" negative) := by
    simp [textFraction]
  exact (Leads.walk hP hjump hwhole).trans (leads_whole hm hP hwhole n "" "" negative)

/-- A number with a fraction. -/
theorem leads_render (hplace : (r.textFraction ++ (r.textWhole ++ rest)) <:+ program)
    (count n : Nat) (hf : f ≠ 0) (negative : Bool) :
    m.Leads program textNames (r.textFraction.tail ++ (r.textWhole ++ rest))
      (fractionFacts count f n "" negative) rest
      [("%retval", .str (signedText negative n ("." ++ String.ofList (Number.places count f))))] := by
  have hwhole : (r.textWhole ++ rest) <:+ program := (List.suffix_append ..).trans hplace
  have hstay : Facts.Walks m textNames
      [.jumpIfEq (r.inside "whole") (lf "frac") (.int 0), .label (r.inside "frac_loop")]
      (fractionFacts count f n "" negative) none (fractionFacts count f n "" negative) := by
    simp [hf]
  have hloop : (r.block "frac_loop" r.textFractionLoop ++ (r.textPoint ++ (r.textWhole ++ rest))) <:+
      program :=
    .trans ⟨r.block "render" [.jumpIfEq (r.inside "whole") (lf "frac") (.int 0)], rfl⟩ hplace
  have hfraction := leads_fraction hm hP hloop count f n "" negative
  rw [String.append_empty] at hfraction
  have htext := leads_whole hm hP hwhole n "" ("." ++ String.ofList (Number.places count f)) negative
  rw [String.empty_append] at htext
  exact (Leads.walk hP hstay rfl).trans (hfraction.trans (Leads.label.trans htext))

/-! ## Zeros at the end of the fraction -/

/-- The loop keeps the places but for the zeros at their end. -/
theorem leads_trim
    (hplace : (r.block "trim_loop" r.textTrimLoop ++ (r.textFraction ++ rest)) <:+ program)
    {count : Nat} (hf : f ≠ 0) (hlt : f < 10 ^ count) (n : Nat) (negative : Bool) :
    ∃ count' f', f' ≠ 0 ∧ Number.places count' f' = Number.trimmed (Number.places count f) ∧
      m.Leads program textNames (r.textTrimLoop ++ (r.textFraction ++ rest))
        (fractionFacts count f n "" negative) (r.textFraction.tail ++ rest)
        (fractionFacts count' f' n "" negative) := by
  induction count generalizing f with
  | zero => omega
  | succ count ih =>
    by_cases hzero : f % 10 = 0
    · have hsame : (f : Int) / 10 * 10 = f := by omega
      have hround : Facts.Walks m textNames r.textTrimLoop
          (fractionFacts (count + 1) f n "" negative) (some (r.inside "trim_loop"))
          (fractionFacts count (f / 10) n "" negative) := by
        simp [textTrimLoop, hm.idiv, hm.mul, hm.sub, hf, hsame]
      have hlt' : f / 10 < 10 ^ count := by
        rw [Nat.pow_succ] at hlt
        omega
      obtain ⟨count', f', hf', hplaces, hleads⟩ := ih (by omega) hlt'
      refine ⟨count', f', hf', ?_, .trans (.walk hP hround hplace) hleads⟩
      rw [hplaces, Number.trimmed_places_of_eq hzero]
    · have hdiffer : ¬ (f : Int) / 10 * 10 = f := by omega
      have hdone : Facts.Walks m textNames r.textTrimLoop
          (fractionFacts (count + 1) f n "" negative) (some (r.inside "render"))
          (fractionFacts (count + 1) f n "" negative) := by
        simp [textTrimLoop, hm.idiv, hm.mul, hf, hdiffer]
      refine ⟨count + 1, f, hf, (Number.trimmed_places_of_ne hzero).symm, .walk hP hdone ?_⟩
      exact (List.suffix_append ..).trans hplace

/-- A number and its millionths. -/
theorem leads_decimal
    (hplace : (r.textTrim ++ (r.textFraction ++ (r.textWhole ++ rest))) <:+ program)
    (hlt : f < 10 ^ 6) (n : Nat) (negative : Bool) :
    m.Leads program textNames (r.textTrim.tail ++ (r.textFraction ++ (r.textWhole ++ rest)))
      (("frac", .int f) :: wholeFacts n "" "" negative) rest
      [("%retval", .str (signedText negative n
        (if f = 0 then "" else "." ++ String.ofList (Number.placesText f))))] := by
  have hrender : (r.textFraction ++ (r.textWhole ++ rest)) <:+ program :=
    (List.suffix_append ..).trans hplace
  by_cases hf : f = 0
  · subst hf
    have hjump : Facts.Walks m textNames r.textTrim.tail
        (("frac", .int ↑(0 : Nat)) :: wholeFacts n "" "" negative) (some (r.inside "render"))
        (("frac", .int 0) :: wholeFacts n "" "" negative) := by
      simp [textTrim, textTrimLoop]
    exact (Leads.walk hP hjump hrender).trans (leads_render_zero hm hP hrender n negative)
  · have hcount : Facts.Walks m textNames
        [.move (lf "count") (.int 6), .label (r.inside "trim_loop")]
        (("frac", .int f) :: wholeFacts n "" "" negative) none (fractionFacts 6 f n "" negative) := by
      simp
    have hloop : (r.block "trim_loop" r.textTrimLoop ++ (r.textFraction ++ (r.textWhole ++ rest))) <:+
        program := .trans ⟨r.block "trim" [.move (lf "count") (.int 6)], rfl⟩ hplace
    obtain ⟨count', f', hf', hplaces, htrim⟩ := leads_trim hm hP hloop hf hlt n negative
    have htext := leads_render hm hP hrender count' n hf' negative
    rw [hplaces, ← Number.placesText_eq hlt] at htext
    rw [if_neg hf]
    exact (Leads.walk hP hcount rfl).trans (htrim.trans htext)

/-! ## Ints and floats -/

theorem leads_int (hplace : (r.textOfInt ++ (r.textOfFloat ++ (r.textTrim ++ (r.textFraction ++
      (r.textWhole ++ rest))))) <:+ program) (i : Int) :
    m.Leads program textNames (r.textOfInt.tail ++ (r.textOfFloat ++ (r.textTrim ++ (r.textFraction ++
        (r.textWhole ++ rest))))) (startFacts (.int i)) rest [("%retval", .str (toString i))] := by
  have hrender : (r.textFraction ++ (r.textWhole ++ rest)) <:+ program :=
    ((List.suffix_append ..).trans ((List.suffix_append ..).trans (List.suffix_append ..))).trans hplace
  have habs : (r.block "int_abs" r.textNoFraction ++ (r.textOfFloat ++ (r.textTrim ++
      (r.textFraction ++ (r.textWhole ++ rest))))) <:+ program :=
    .trans ⟨r.block "int" r.textIntSign, rfl⟩ hplace
  cases i with
  | ofNat n =>
    have hjump : Facts.Walks m textNames r.textIntSign
        (startFacts (.int (Int.ofNat n))) (some (r.inside "int_abs")) (wholeFacts n "" "" false) := by
      simp [textIntSign, binaryOp]
    have hrest : Facts.Walks m textNames r.textNoFraction (wholeFacts n "" "" false)
        (some (r.inside "render")) (("frac", .int 0) :: wholeFacts n "" "" false) := by
      simp [textNoFraction]
    have htext := leads_render_zero hm hP hrender n false
    rw [signedText_false] at htext
    exact (Leads.walk hP hjump habs).trans ((Leads.walk hP hrest hrender).trans htext)
  | negSucc n =>
    have hwalk : Facts.Walks m textNames r.textOfInt.tail
        (startFacts (.int (Int.negSucc n))) (some (r.inside "render"))
        (("frac", .int 0) :: wholeFacts (n + 1) "" "" true) := by
      simp [textOfInt, textIntSign, textNoFraction, binaryOp, hm.round]
    have htext := leads_render_zero hm hP hrender (n + 1) true
    rw [signedText_true] at htext
    exact (Leads.walk hP hwalk hrender).trans htext

omit hm in
/-- The sign of a double is found, and its magnitude. -/
theorem leads_magnitude (hplace : (r.textOfFloat ++ rest) <:+ program) {y : Float}
    (hsign : m.binaryOp .lt (.float x) (.float 0.0) = some (.bool (decide (x < 0.0))))
    (hsub : x < 0.0 → m.binaryOp .sub (.float 0.0) (.float x) = some (.float y))
    (hsame : ¬ x < 0.0 → y = x) :
    m.Leads program textNames (r.textOfFloat.tail ++ rest) (startFacts (.float x))
      (r.textFloatSplit ++ rest) (magnitudeFacts y (decide (x < 0.0))) := by
  have habs : (r.block "float_abs" r.textFloatSplit ++ rest) <:+ program :=
    .trans ⟨r.block "float" r.textFloatSign, rfl⟩ hplace
  show m.Leads program textNames (r.textFloatSign ++ (r.block "float_abs" r.textFloatSplit ++ rest)) _ _ _
  by_cases hx : x < 0.0
  · have hwalk : Facts.Walks m textNames r.textFloatSign (startFacts (.float x)) none
        (magnitudeFacts y (decide (x < 0.0))) := by
      simp [textFloatSign, hsign, hsub hx, hx]
    exact (Leads.walk hP hwalk rfl).trans Leads.label
  · have hwalk : Facts.Walks m textNames r.textFloatSign (startFacts (.float x))
        (some (r.inside "float_abs")) (magnitudeFacts y (decide (x < 0.0))) := by
      simp [textFloatSign, hsign, hsame hx, hx]
    exact .walk hP hwalk habs

/-- The millionths of a double are split at the point. -/
theorem leads_split (hplace : (r.textOfFloat ++ (r.textTrim ++ rest)) <:+ program) {y z w : Float}
    (hmul : m.binaryOp .mul (.float y) (.float 1000000.0) = some (.float z))
    (hadd : m.binaryOp .add (.float z) (.float 0.5) = some (.float w))
    (hint : m.unaryOp .float2int (.float w) = some (.int n)) (negative : Bool) :
    m.Leads program textNames (r.textFloatSplit ++ (r.textTrim ++ rest))
      (magnitudeFacts y negative) (r.textTrim.tail ++ rest)
      (("frac", .int ↑(n % 1000000)) :: wholeFacts (n / 1000000) "" "" (negative && n != 0)) := by
  have htrim : (r.textTrim ++ rest) <:+ program := (List.suffix_append ..).trans hplace
  have hmod : (n : Int) - n / 1000000 * 1000000 = n % 1000000 := by omega
  by_cases hn : n = 0
  · subst hn
    have hwalk : Facts.Walks m textNames r.textFloatSplit (magnitudeFacts y negative) none
        (("frac", .int 0) :: wholeFacts 0 "" "" false) := by
      simp [textFloatSplit, hm.idiv, hm.mul, hm.sub, hmul, hadd, hint]
    rw [bne_self_eq_false, Bool.and_false]
    exact (Leads.walk hP hwalk rfl).trans Leads.label
  · have hwalk : Facts.Walks m textNames r.textFloatSplit (magnitudeFacts y negative)
        (some (r.inside "trim"))
        (("frac", .int ↑(n % 1000000)) :: wholeFacts (n / 1000000) "" "" (negative && n != 0)) := by
      simp [textFloatSplit, hm.idiv, hm.mul, hm.sub, hmul, hadd, hint, hn, hmod]
    exact .walk hP hwalk htrim

theorem leads_float (hplace : (r.textOfFloat ++ (r.textTrim ++ (r.textFraction ++
      (r.textWhole ++ rest)))) <:+ program) (hx : m.Scales x) :
    m.Leads program textNames (r.textOfFloat.tail ++ (r.textTrim ++ (r.textFraction ++
        (r.textWhole ++ rest)))) (startFacts (.float x)) rest
      [("%retval", .str (Number.fixedText x))] := by
  obtain ⟨hsign, y, z, w, hsub, hsame, hmul, hadd, hint⟩ := hx
  rw [← Number.millionths_eq] at hint
  have htrim := (List.suffix_append ..).trans hplace
  rw [← signedText_millionths]
  refine (leads_magnitude hP hplace hsign hsub hsame).trans ?_
  refine (leads_split hm hP hplace hmul hadd hint _).trans ?_
  exact leads_decimal hm hP htrim (Nat.mod_lt _ (by decide)) _ _

end

/-! ## The whole routine -/

section

variable {m : Machine} {program : List Instr} (hP : Distinct program) {r : Routine} {rest : List Instr}
  (hplace : (r.toTextBody ++ rest) <:+ program)

section

include hplace

/-- The blocks of the routine in the program. -/
theorem suffix_textBlocks : (r.textByKind ++ (r.textOfInt ++ (r.textOfFloat ++ (r.textTrim ++
    (r.textFraction ++ (r.textWhole ++ .popFrame :: .ret :: rest)))))) <:+ program := by
  refine .trans ⟨.label r.entry :: .pushFrame :: (declare textNames ++ takeValue), ?_⟩ hplace
  simp [toTextBody, framed, declare]

/-- The place behind the last block. -/
theorem suffix_textEnd : (.label (r.inside "end") :: .popFrame :: .ret :: rest) <:+ program := by
  have hwhole : (r.textWhole ++ .popFrame :: .ret :: rest) <:+ program :=
    ((List.suffix_append ..).trans ((List.suffix_append ..).trans ((List.suffix_append ..).trans
      ((List.suffix_append ..).trans (List.suffix_append ..))))).trans (suffix_textBlocks hplace)
  exact .trans ⟨r.block "whole" r.textWholeLoop, rfl⟩ hwhole

end

include hP hplace

/-- What the routine yields, by what its blocks do. -/
theorem yields_text {v z : Value}
    (h : m.Leads program textNames (r.textByKind ++ (r.textOfInt ++ (r.textOfFloat ++ (r.textTrim ++
        (r.textFraction ++ (r.textWhole ++ .popFrame :: .ret :: rest))))))
      [("type", .str v.typeName), ("value", v)] (.popFrame :: .ret :: rest) [("%retval", z)]) :
    m.Yields program r v z := by
  have hcode : r.toTextBody = r.framed (declare textNames.tail ++ takeValue ++ (r.textByKind ++
      (r.textOfInt ++ (r.textOfFloat ++ (r.textTrim ++ (r.textFraction ++ r.textWhole)))))) := by
    simp only [toTextBody, List.append_assoc]
    rfl
  rw [hcode] at hplace
  refine yields_framed hP hplace (by decide) (by decide) (by decide) ?_
  simp only [List.append_assoc]
  exact h

theorem yields_text_int (hm : m.Exact) (i : Int) :
    m.Yields program r (.int i) (.str (toString i)) := by
  have hblocks := (List.suffix_append ..).trans (suffix_textBlocks hplace)
  have hkind : Facts.Walks m textNames r.textByKind
      [("type", .str (Value.int i).typeName), ("value", .int i)] (some (r.inside "int"))
      (startFacts (.int i)) := by
    simp [textByKind]
  exact yields_text hP hplace ((Leads.walk hP hkind hblocks).trans (leads_int hm hP hblocks i))

theorem yields_text_float (hm : m.Exact) (hx : m.Scales x) :
    m.Yields program r (.float x) (.str (Number.fixedText x)) := by
  have hblocks := ((List.suffix_append ..).trans (List.suffix_append ..)).trans
    (suffix_textBlocks hplace)
  have hkind : Facts.Walks m textNames r.textByKind
      [("type", .str (Value.float x).typeName), ("value", .float x)] (some (r.inside "float"))
      (startFacts (.float x)) := by
    simp [textByKind]
  exact yields_text hP hplace ((Leads.walk hP hkind hblocks).trans (leads_float hm hP hblocks hx))

theorem yields_text_str (s : String) : m.Yields program r (.str s) (.str s) := by
  have hkind : Facts.Walks m textNames r.textByKind
      [("type", .str (Value.str s).typeName), ("value", .str s)] (some (r.inside "end"))
      [("%retval", .str s)] := by
    simp [textByKind]
  exact yields_text hP hplace (.walk hP hkind (suffix_textEnd hplace))

theorem yields_text_nil : m.Yields program r .nil (.str "") := by
  have hkind : Facts.Walks m textNames r.textByKind
      [("type", .str Value.nil.typeName), ("value", .nil)] (some (r.inside "end"))
      [("%retval", .str "")] := by
    simp [textByKind]
  exact yields_text hP hplace (.walk hP hkind (suffix_textEnd hplace))

end

/-- Called with a number, the routine of `strval` and the conversion to a string come back with the text
that the compiler gives a number: an int in decimal, and a float with at most six places. -/
theorem yields_decimal_and_fixedText {m : Machine} (hm : m.Exact) {program rest : List Instr}
    (hP : Distinct program) {r : Routine} (hr : r = .strval ∨ r = .toText)
    (hplace : (r.body ++ rest) <:+ program) :
    (∀ n : Int64, m.Yields program r (.int n.toInt) (.str (Number.decimal n))) ∧
      ∀ x : Float, m.Scales x → m.Yields program r (.float x) (.str (Number.fixedText x)) := by
  have hbody : (r.toTextBody ++ rest) <:+ program := by
    rcases hr with rfl | rfl <;> exact hplace
  exact ⟨fun n => yields_text_int hP hbody hm n.toInt, fun x hx => yields_text_float hP hbody hm hx⟩

/-! ## Doubles -/

/-- A machine whose ints have no bound and whose floats are doubles. -/
def doubles : Machine where
  round := some
  binary
    | .idiv, .int a, .int b => if b = 0 then none else some (.int (a.fdiv b))
    | .add, .float x, .float y => some (.float (x + y))
    | .sub, .float x, .float y => some (.float (x - y))
    | .mul, .float x, .float y => some (.float (x * y))
    | .div, .float x, .float y => some (.float (x / y))
    | .lt, .float x, .float y => some (.bool (decide (x < y)))
    | .gt, .float x, .float y => some (.bool (decide (x > y)))
    | .concat, .str s, .str t => some (.str (s ++ t))
    | _, _, _ => none
  unary
    | .int2float, .int n => some (.float (Float.ofInt n))
    | .float2int, .float x => some (.int (Number.truncate x).toInt)
    | .int2char, .int n => some (.str (String.singleton (Char.ofNat n.toNat)))
    | _, _ => none
  read _ input := (.nil, input)
  floatText := Number.hexText
  round_exact := unbounded.round_exact

theorem exact_doubles : doubles.Exact where
  round _ := rfl
  idiv a b ha hb := by
    have hne : b ≠ 0 := by omega
    show (if b = 0 then none else some (Value.int (a.fdiv b))) = _
    rw [if_neg hne, Int.fdiv_eq_ediv_of_nonneg a (Int.le_of_lt hb)]
  concat _ _ := rfl
  int2char c := by
    show some (Value.str (String.singleton (Char.ofNat (c.toNat : Int).toNat))) = _
    rw [Int.toNat_natCast, Char.ofNat_toNat]

/-- Negative doubles have the sign and the millionths that the compiler finds. -/
theorem scales_doubles (hx : x < 0.0) : doubles.Scales x := by
  refine ⟨rfl, x.abs, x.abs * 1000000.0, x.abs * 1000000.0 + 0.5, fun _ => ?_, fun h => absurd hx h,
    rfl, rfl, rfl⟩
  show some (Value.float (0.0 - x)) = _
  rw [Number.zero_sub_eq_abs hx]

/-- The routine of `strval` alone: the least int, and a float whose fraction starts with a zero. -/
theorem yields_decimal_and_fixedText_strval : Distinct (Routine.body .strval) ∧
    doubles.Yields (Routine.body .strval) .strval (.int (-9223372036854775808))
      (.str "-9223372036854775808") ∧
    doubles.Scales (-12.05) ∧
    doubles.Yields (Routine.body .strval) .strval (.float (-12.05)) (.str "-12.05") := by
  have hP : Distinct (Routine.body .strval) := by
    unfold Distinct
    decide +kernel
  have hx : doubles.Scales (-12.05) := scales_doubles (by decide +kernel)
  have hplace : (Routine.body .strval ++ []) <:+ Routine.body .strval :=
    List.append_nil (Routine.body .strval) ▸ List.suffix_refl _
  obtain ⟨hint, hfloat⟩ := yields_decimal_and_fixedText exact_doubles hP (.inl rfl) hplace
  have htext : Number.fixedText (-12.05) = "-12.05" := by decide +kernel
  exact ⟨hP, hint Int64.minValue, hx, htext ▸ hfloat (-12.05) hx⟩

end Ifj22.Machine
