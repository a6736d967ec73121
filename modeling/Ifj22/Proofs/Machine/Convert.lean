import Ifj22.Proofs.Machine.Text
set_option autoImplicit false

/-!
# Machine: conversions of constants

A conversion is made by the compiler if its operand is a constant, and by a routine if not.  Where the
routine comes back, it comes back with the value that the compiler finds.  A string is no number for
the routines, and they end the program; the compiler leaves it as it is and adds no code.
-/

namespace Ifj22.Machine

open Code Code.Routine

/-! ## Short routines -/

section

variable {m : Machine} {program : List Instr} (hP : Distinct program) {r : Routine}
  {tests rest : List Instr} {v z : Value}
  (hplace : (r.framed (declare ["value", "type"] ++ takeValue ++ (tests ++ r.block "end" [])) ++
    rest) <:+ program)

include hP hplace

/-- A routine whose tests all lead to its end yields what is known there. -/
theorem yields_short {out : Option Label} (hout : out = none ∨ out = some (r.inside "end"))
    (hwalk : Facts.Walks m ["%retval", "value", "type"] (tests ++ r.block "end" [])
      [("type", .str v.typeName), ("value", v)] out [("%retval", z)]) : m.Yields program r v z := by
  have hend : (.label (r.inside "end") :: .popFrame :: .ret :: rest) <:+ program := by
    refine .trans ⟨.label r.entry :: .pushFrame :: .defVar Var.result ::
      (declare ["value", "type"] ++ takeValue ++ tests), ?_⟩ hplace
    simp [framed, block]
  refine yields_framed hP hplace (by decide) (by decide) (by decide) (.walk hP hwalk ?_)
  rcases hout with rfl | rfl
  · rfl
  · exact hend

/-- A routine whose tests lead to the type error refuses the value. -/
theorem refuses_short {rest' : List Instr} (herror : (typeErrorBody ++ rest') <:+ program)
    (hwalk : Facts.Walks m ["%retval", "value", "type"] (tests ++ r.block "end" [])
      [("type", .str v.typeName), ("value", v)] (some typeError.entry) []) : m.Refuses program r v :=
  refuses_framed hP hplace (by decide) (by decide) (by decide) (.walk hP hwalk herror)

end

/-! ## Numbers -/

-- the walk over the tests is computed from the type and the value
attribute [local simp] Facts.Walks numberTests block Var.result lf equal? List.lookup_cons

section

variable {m : Machine} {program : List Instr} (hP : Distinct program) {r : Routine} {zero : Operand}
  {kind other : String} {conversion rest : List Instr} {v z x0 : Value}
  (hzero : ∀ k : Facts, k.value? zero = some x0)
  (hplace : (r.numberBody zero kind other conversion ++ rest) <:+ program)

include hP hzero hplace

theorem yields_number_nil : m.Yields program r .nil x0 := by
  refine yields_short hP hplace (.inr rfl) ?_
  simp [Value.typeName, hzero]

theorem yields_number_same (hkind : v.typeName = kind) (hnil : kind ≠ "nil") :
    m.Yields program r v v := by
  refine yields_short hP hplace (.inr rfl) ?_
  simp [hzero, hkind, hnil]

theorem yields_number_kept (hconversion : conversion = []) (hother : v.typeName = other)
    (hnil : other ≠ "nil") (hkind : other ≠ kind) : m.Yields program r v v := by
  subst hconversion
  refine yields_short hP hplace (.inl rfl) ?_
  simp [hzero, hother, hnil, hkind]

theorem yields_number_converted {op : Unary} (hop : op ≠ .typeOf)
    (hconversion : conversion = [.unary op Var.result (lf "value")]) (hother : v.typeName = other)
    (hnil : other ≠ "nil") (hkind : other ≠ kind) (hz : m.unaryOp op v = some z) :
    m.Yields program r v z := by
  subst hconversion
  refine yields_short hP hplace (.inl rfl) ?_
  simp [hzero, hother, hnil, hkind, hz]

theorem refuses_number {rest' : List Instr} {type : String}
    (herror : (typeErrorBody ++ rest') <:+ program) (htype : v.typeName = type) (hnil : type ≠ "nil")
    (hkind : type ≠ kind) (hother : type ≠ other) : m.Refuses program r v := by
  refine refuses_short hP hplace herror ?_
  simp [hzero, htype, hnil, hkind, hother]

end

/-! ## Truth -/

/-- The variables of the routine. -/
def truthNames : List String := ["%retval", "value", "type"]

attribute [local simp] truthNames truthByKind trueUnless Value.typeName

section

variable {m : Machine} {program rest : List Instr} (hP : Distinct program)
  (hplace : (toBoolBody ++ rest) <:+ program)

include hplace

/-- The blocks of the routine in the program. -/
theorem suffix_truthBlocks :
    (toBool.block "int" (trueUnless [.int 0] ++ [.jump (toBool.inside "end")]) ++
      (toBool.block "float" (trueUnless [.float 0.0] ++ [.jump (toBool.inside "end")]) ++
      (toBool.block "string" (trueUnless [.str "", .str "0"]) ++
      toBool.block "end" (.popFrame :: .ret :: rest)))) <:+ program :=
  .trans ⟨.label toBool.entry :: .pushFrame :: .defVar Var.result ::
    (declare ["value", "type"] ++ takeValue ++ truthByKind), rfl⟩ hplace

theorem suffix_truthString :
    (toBool.block "string" (trueUnless [.str "", .str "0"] ++ toBool.block "end" []) ++
      .popFrame :: .ret :: rest) <:+ program :=
  ((List.suffix_append ..).trans (List.suffix_append ..)).trans (suffix_truthBlocks hplace)

theorem suffix_truthEnd : toBool.block "end" (.popFrame :: .ret :: rest) <:+ program :=
  .trans ⟨toBool.block "string" (trueUnless [.str "", .str "0"]), rfl⟩ (suffix_truthString hplace)

include hP

/-- What the routine yields of a value of a kind that it has a block for. -/
theorem yields_truth {v : Value} {b : Bool} {kind : String} {code behind : List Instr}
    (out : Option Label) (hblock : (toBool.block kind code ++ behind) <:+ program)
    (hkind : Facts.Walks m truthNames truthByKind [("type", .str v.typeName), ("value", v)]
      (some (toBool.inside kind)) [("%retval", .bool false), ("value", v)])
    (htest : Facts.Walks m truthNames code [("%retval", .bool false), ("value", v)] out
      [("%retval", .bool b)])
    (hout : Arrives program behind out (.popFrame :: .ret :: rest)) :
    m.Yields program .toBool v (.bool b) :=
  yields_framed hP hplace (by decide) (by decide) (by decide)
    ((Leads.walk hP hkind hblock).trans (.walk hP htest hout))

theorem yields_truth_nil : m.Yields program .toBool .nil (.bool false) := by
  have hkind : Facts.Walks m truthNames truthByKind
      [("type", .str Value.nil.typeName), ("value", .nil)] (some (toBool.inside "end"))
      [("%retval", .bool false)] := by
    simp
  exact yields_framed hP hplace (by decide) (by decide) (by decide)
    (.walk hP hkind (suffix_truthEnd hplace))

theorem yields_truth_int (i : Int) : m.Yields program .toBool (.int i) (.bool (i != 0)) := by
  refine yields_truth hP hplace (some (toBool.inside "end")) (suffix_truthBlocks hplace) ?_ ?_
    (suffix_truthEnd hplace)
  · simp
  · by_cases hi : i = 0 <;>
      simp [hi]

theorem yields_truth_float (x : Float) : m.Yields program .toBool (.float x) (.bool (x != 0.0)) := by
  refine yields_truth hP hplace (some (toBool.inside "end"))
    ((List.suffix_append ..).trans (suffix_truthBlocks hplace)) ?_ ?_ (suffix_truthEnd hplace)
  · simp
  · cases hx : x == 0.0 <;>
      simp [bne, hx]

theorem yields_truth_str (s : String) :
    m.Yields program .toBool (.str s) (.bool (s != "" && s != "0")) := by
  refine yields_truth hP hplace (if s = "" ∨ s = "0" then some (toBool.inside "end") else none)
    (suffix_truthString hplace) ?_ ?_ ?_
  · simp
  · by_cases hempty : s = ""
    · simp [hempty]
    · by_cases hzero : s = "0" <;>
        simp [hempty, hzero]
  · split
    · exact suffix_truthEnd hplace
    · rfl

end

/-! ## Constants -/

/-- The conversions that yield a number. -/
def numericConversions : List Routine := [.toInt, .toFloat, .toNumber]

/-- The conversions that the code of an expression may call. -/
def conversions : List Routine := numericConversions ++ [.toText, .toBool]

/-- What the compiler makes of an operand where the conversion is needed. -/
def convertOperand (ty : Ty) (a : Operand) : Routine → Generate Operand
  | .toInt => Generator.normalize a ty .int
  | .toFloat => Generator.normalize a ty .float
  | .toNumber => Generator.asNumber a ty
  | .toText => Generator.asText a ty
  | .toBool => Generator.asTruth a ty
  | _ => pure a

/-- The value of a constant that a literal can stand for. -/
def constant? : Operand → Option Value
  | .int n => some (.int n.toInt)
  | .float x => some (.float x)
  | .str s => some (.str s)
  | .nil => some .nil
  | _ => none

/-- A double that is a word but for its fraction.  NaN is none of them, since no comparison holds
of it. -/
def Fits (x : Float) : Prop := -9223372036854775808.0 ≤ x ∧ x < 9223372036854775808.0

/-- The machine converts numbers as the compiler does.  Beyond the words the compiler takes the
nearest one, and what the machine does is left open. -/
structure Casts (m : Machine) : Prop where
  int2float : ∀ n : Int64,
    m.unaryOp .int2float (.int n.toInt) = some (.float (Number.ofWord n))
  float2int : ∀ x : Float, Fits x →
    m.unaryOp .float2int (.float x) = some (.int (Number.truncate x).toInt)

/-- The compiler makes an operand of the constant without adding code, and the routine comes back
with its value.  The operand is the same in every state of the generator, so that the code around
the constant does not matter. -/
def Agrees (m : Machine) (program : List Instr) (r : Routine) (ty : Ty) (a : Operand) (x : Value) :
    Prop :=
  ∃ b z, (∀ g, convertOperand ty a r g = .ok b g) ∧ (∀ c : Config, c.value? b = some z) ∧
    m.Yields program r x z

section

variable {m : Machine} {program rest : List Instr} (hP : Distinct program) (ty : Ty)
  {a : Operand} {x : Value} (ha : constant? a = some x)

include hP ha

theorem agrees_toInt (hplace : (Routine.body .toInt ++ rest) <:+ program) (hcasts : m.Casts)
    (hstr : ∀ s, a ≠ .str s) (hfits : ∀ f, a = .float f → Fits f) :
    m.Agrees program .toInt ty a x := by
  cases a with
  | var v => cases ha
  | bool b => cases ha
  | str s => exact absurd rfl (hstr s)
  | nil =>
    cases ha
    exact ⟨.int 0, .int 0, fun _ => rfl, fun _ => rfl, yields_number_nil hP (fun _ => rfl) hplace⟩
  | int n =>
    cases ha
    exact ⟨.int n, _, fun _ => rfl, fun _ => rfl,
      yields_number_same hP (fun _ => rfl) hplace rfl (by decide)⟩
  | float f =>
    cases ha
    refine ⟨.int (Number.truncate f), _, fun _ => rfl, fun _ => rfl, ?_⟩
    exact yields_number_converted hP (fun _ => rfl) hplace (by decide) rfl rfl (by decide) (by decide)
      (hcasts.float2int f (hfits f rfl))

theorem agrees_toFloat (hplace : (Routine.body .toFloat ++ rest) <:+ program) (hcasts : m.Casts)
    (hstr : ∀ s, a ≠ .str s) : m.Agrees program .toFloat ty a x := by
  cases a with
  | var v => cases ha
  | bool b => cases ha
  | str s => exact absurd rfl (hstr s)
  | nil =>
    cases ha
    exact ⟨.float 0.0, .float 0.0, fun _ => rfl, fun _ => rfl,
      yields_number_nil hP (fun _ => rfl) hplace⟩
  | float f =>
    cases ha
    exact ⟨.float f, _, fun _ => rfl, fun _ => rfl,
      yields_number_same hP (fun _ => rfl) hplace rfl (by decide)⟩
  | int n =>
    cases ha
    refine ⟨.float (Number.ofWord n), _, fun _ => rfl, fun _ => rfl, ?_⟩
    exact yields_number_converted hP (fun _ => rfl) hplace (by decide) rfl rfl (by decide) (by decide)
      (hcasts.int2float n)

theorem agrees_toNumber (hplace : (Routine.body .toNumber ++ rest) <:+ program)
    (hstr : ∀ s, a ≠ .str s) : m.Agrees program .toNumber ty a x := by
  cases a with
  | var v => cases ha
  | bool b => cases ha
  | str s => exact absurd rfl (hstr s)
  | nil =>
    cases ha
    exact ⟨.int 0, .int 0, fun _ => rfl, fun _ => rfl, yields_number_nil hP (fun _ => rfl) hplace⟩
  | int n =>
    cases ha
    exact ⟨.int n, _, fun _ => rfl, fun _ => rfl,
      yields_number_same hP (fun _ => rfl) hplace rfl (by decide)⟩
  | float f =>
    cases ha
    exact ⟨.float f, _, fun _ => rfl, fun _ => rfl,
      yields_number_kept hP (fun _ => rfl) hplace rfl rfl (by decide) (by decide)⟩

theorem agrees_toText (hplace : (Routine.body .toText ++ rest) <:+ program) (hm : m.Exact)
    (hscales : ∀ f, a = .float f → m.Scales f) : m.Agrees program .toText ty a x := by
  cases a with
  | var v => cases ha
  | bool b => cases ha
  | nil =>
    cases ha
    exact ⟨.str "", .str "", fun _ => rfl, fun _ => rfl, yields_text_nil hP hplace⟩
  | str s =>
    cases ha
    exact ⟨.str s, .str s, fun _ => rfl, fun _ => rfl, yields_text_str hP hplace s⟩
  | int n =>
    cases ha
    exact ⟨.str (Number.decimal n), _, fun _ => rfl, fun _ => rfl, yields_text_int hP hplace hm n.toInt⟩
  | float f =>
    cases ha
    exact ⟨.str (Number.fixedText f), _, fun _ => rfl, fun _ => rfl,
      yields_text_float hP hplace hm (hscales f rfl)⟩

theorem agrees_toBool (hplace : (Routine.body .toBool ++ rest) <:+ program) :
    m.Agrees program .toBool ty a x := by
  cases a with
  | var v => cases ha
  | bool b => cases ha
  | nil =>
    cases ha
    exact ⟨.bool false, _, fun _ => rfl, fun _ => rfl, yields_truth_nil hP hplace⟩
  | str s =>
    cases ha
    exact ⟨.bool (s != "" && s != "0"), _, fun _ => rfl, fun _ => rfl, yields_truth_str hP hplace s⟩
  | int n =>
    cases ha
    have htruth : (n.toInt != 0) = (n != 0) := by
      rw [Bool.eq_iff_iff, bne_iff_ne, bne_iff_ne, ← Int64.toInt_zero, ne_eq, ne_eq, Int64.toInt_inj]
    exact ⟨.bool (n != 0), _, fun _ => rfl, fun _ => rfl,
      htruth ▸ yields_truth_int hP hplace n.toInt⟩
  | float f =>
    cases ha
    exact ⟨.bool (f != 0.0), _, fun _ => rfl, fun _ => rfl, yields_truth_float hP hplace f⟩

omit ha in
/-- The routines that yield a number refuse a string. -/
theorem refuses_str {r : Routine} {rest' : List Instr} (hr : r ∈ numericConversions)
    (hplace : (r.body ++ rest) <:+ program) (herror : (Routine.body .typeError ++ rest') <:+ program)
    (s : String) : m.Refuses program r (.str s) := by
  have htype : (Value.str s).typeName = "string" := rfl
  simp only [numericConversions, List.mem_cons, List.not_mem_nil, or_false] at hr
  rcases hr with rfl | rfl | rfl
  · exact refuses_number hP (fun _ => rfl) hplace herror htype (by decide) (by decide) (by decide)
  · exact refuses_number hP (fun _ => rfl) hplace herror htype (by decide) (by decide) (by decide)
  · exact refuses_number hP (fun _ => rfl) hplace herror htype (by decide) (by decide) (by decide)

end

/-- The compiler leaves a string as it is where a number is needed. -/
theorem convertOperand_str {r : Routine} (hr : r ∈ numericConversions) (ty : Ty) (s : String)
    (g : Generator) : convertOperand ty (.str s) r g = .ok (.str s) g := by
  simp only [numericConversions, List.mem_cons, List.not_mem_nil, or_false] at hr
  rcases hr with rfl | rfl | rfl <;> rfl

/-- Where the routine of a conversion comes back with a value, the compiler makes a constant that value
and adds no code.  The routines that yield a number refuse a string, and the compiler leaves it as it
is. -/
theorem agrees_unless_numeric_str {m : Machine} (hm : m.Exact) (hcasts : m.Casts)
    {program rest : List Instr} (hP : Distinct program) {r : Routine} (hr : r ∈ conversions)
    (hplace : (r.body ++ rest) <:+ program)
    (hneeds : ∀ d ∈ r.dependencies, ∃ rest, (d.body ++ rest) <:+ program) (ty : Ty) {a : Operand}
    {x : Value} (ha : constant? a = some x) (hfits : ∀ f, a = .float f → r = .toInt → Fits f)
    (hscales : ∀ f, a = .float f → r = .toText → m.Scales f) :
    ((∀ s, a ≠ .str s) ∨ r ∉ numericConversions → m.Agrees program r ty a x) ∧
    ∀ s, a = .str s → r ∈ numericConversions →
      (∀ g, convertOperand ty a r g = .ok a g) ∧ m.Refuses program r x := by
  constructor
  · intro hkind
    have hstr : r ∈ numericConversions → ∀ s, a ≠ .str s := fun hnumeric =>
      hkind.resolve_right fun hnot => hnot hnumeric
    simp only [conversions, numericConversions, List.cons_append, List.nil_append, List.mem_cons,
      List.not_mem_nil, or_false] at hr
    rcases hr with rfl | rfl | rfl | rfl | rfl
    · exact agrees_toInt hP ty ha hplace hcasts (hstr (by decide)) fun f hf => hfits f hf rfl
    · exact agrees_toFloat hP ty ha hplace hcasts (hstr (by decide))
    · exact agrees_toNumber hP ty ha hplace (hstr (by decide))
    · exact agrees_toText hP ty ha hplace hm fun f hf => hscales f hf rfl
    · exact agrees_toBool hP ty ha hplace
  · rintro s rfl hnumeric
    have hdepends : ∀ r ∈ numericConversions, .typeError ∈ r.dependencies := by decide
    obtain ⟨rest', herror⟩ := hneeds _ (hdepends r hnumeric)
    cases ha
    exact ⟨convertOperand_str hnumeric ty s, refuses_str hP hnumeric hplace herror s⟩

theorem casts_doubles : doubles.Casts where
  int2float _ := rfl
  float2int _ _ := rfl

/-- A string that takes the place of a variable in a sum is added as it is, where the conversion of the
variable would have ended the program. -/
theorem agrees_unless_numeric_str_sum :
    (∃ listing, compile true "<?php $a = 1; $a = \"x\"; write($a + 1);" = .ok listing ∧
      .binary .add ⟨.gf, "%t1"⟩ (.str "x") (.int 1) ∈ listing.instructions ∧
      .exit (.int 7) ∉ listing.instructions) ∧
    Distinct (Routine.body .toInt ++ Routine.body .typeError) ∧ Fits (-2.5) ∧
    doubles.Agrees (Routine.body .toInt ++ Routine.body .typeError) .toInt .float (.float (-2.5))
      (.float (-2.5)) ∧
    (∀ g, convertOperand .string (.str "x") .toInt g = .ok (.str "x") g) ∧
    doubles.Refuses (Routine.body .toInt ++ Routine.body .typeError) .toInt (.str "x") := by
  have hP : Distinct (Routine.body .toInt ++ Routine.body .typeError) := by
    unfold Distinct
    decide +kernel
  have hfits : Fits (-2.5) := by
    unfold Fits
    decide +kernel
  have hneeds : ∀ d ∈ Routine.dependencies .toInt,
      ∃ rest, (d.body ++ rest) <:+ Routine.body .toInt ++ Routine.body .typeError := by
    intro d hd
    obtain rfl : d = .typeError := by simpa [dependencies] using hd
    exact ⟨[], Routine.body .toInt, by simp⟩
  have hfloat := (agrees_unless_numeric_str exact_doubles casts_doubles hP (by decide)
    (List.suffix_refl _) hneeds .float (a := .float (-2.5)) rfl
    (fun f hf _ => Operand.float.inj hf ▸ hfits) (fun f _ hr => nomatch hr)).1
    (.inl fun s hs => nomatch hs)
  have hstr := (agrees_unless_numeric_str exact_doubles casts_doubles hP (by decide)
    (List.suffix_refl _) hneeds .string (a := .str "x") rfl (fun f hf _ => nomatch hf)
    (fun f hf _ => nomatch hf)).2 "x" rfl (by decide)
  exact ⟨by decide +kernel, hP, hfits, hfloat, hstr⟩

end Ifj22.Machine
