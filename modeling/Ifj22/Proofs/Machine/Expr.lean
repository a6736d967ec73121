import Ifj22.Proofs.Code.Integer
import Ifj22.Proofs.Machine.Computes
set_option autoImplicit false

/-!
# Machine: the code of expressions

The code that is generated for the value or the truth of an integer expression computes what the
interpreter finds for it.
-/

namespace Ifj22

open Code Code.Generator Meaning

variable {g1 g2 : Generator} {a1 a2 : Operand} {args : List Expr}

/-! ## Values and truth values -/

/-- The value of a truth value is made from its truth. -/
theorem Expr.code_of_isTruth {e : Expr} (h : e.isTruth = true) : e.code = e.truth >>= truthAsInt := by
  cases e with
  | binary op left right =>
    have hop : op.isValue = false := by simpa [Expr.isTruth] using h
    simp only [Expr.code, Expr.truth, hop, Bool.false_eq_true, if_false]
  | unary op operand =>
    cases op with
    | negate => cases h
    | not => simp only [Expr.code, Expr.truth, bind_assoc]
  | _ => cases h

/-- The truth of any other value is made from the value. -/
theorem Expr.truth_of_not_isTruth {e : Expr} (h : e.isTruth = false) :
    e.truth = get >>= fun g => e.code >>= fun value => asTruth value (e.infer g.env) := by
  cases e with
  | constant c => simp only [Expr.code, Expr.truth, pure_bind]
  | var name => simp only [Expr.code, Expr.truth, bind_assoc, pure_bind, Expr.infer]
  | binary op left right =>
    have hop : op.isValue = true := by simpa [Expr.isTruth] using h
    simp only [Expr.code, Expr.truth, hop, if_true]
  | unary op operand =>
    cases op with
    | negate =>
      simp only [Expr.code, Expr.truth, bind_assoc]
      exact (get_bind_get fun g g' => operand.code >>= fun value =>
        arithmetic .sub (.int 0) .int value (operand.infer g'.env)
          (UnaryOp.resultTy .negate (operand.infer g'.env)) >>= fun value =>
            asTruth value ((Expr.unary .negate operand).infer g.env)).symm
    | not => cases h
  | call name args => simp only [Expr.code, Expr.truth, bind_assoc, pure_bind, Expr.infer]

namespace Machine

variable {m : Machine} {c : Config} {a b : Operand} {p q v : Int}

theorem value?_asInt (h : c.value? a = some (.int v)) : c.value? a.asInt = some (.int v) := by
  cases a with
  | var | int => exact h
  | _ => cases h

theorem binaryOp_arithmetic {op : BinOp} (hop : op.isArithmetic = true)
    (h : (Model.integer m).binary op p q = .ok v) :
    m.binaryOp (arithmeticOp op) (.int p) (.int q) = some (.int v) := by
  cases op with
  | add | sub | mul =>
    have hround := rounded_eq_ok.mp h
    simp only [arithmeticOp, binaryOp, hround, Option.map_some]
  | div => cases h
  | _ => cases hop

theorem immediateTruth?_int {truth : Bool} (h : immediateTruth? a = some truth)
    (hv : c.value? a = some (.int v)) : truth = (v != 0) := by
  cases a with
  | int i =>
    cases h
    cases hv
    rw [Bool.eq_iff_iff]
    simp [← Int64.toInt_inj]
  | var w => cases h
  | _ => cases hv

/-! ## Generated code -/

/-- The step generates code that leaves in its operand what the run yields. -/
def Generates (m : Machine) (program : List Instr) (t : SymbolTable) (limit : Nat)
    (scope : Option String) (H : Home) {α : Type} (step : Generate Operand)
    (x : Run Int Unit Unit α) (shown : α → Value) : Prop :=
  ∀ ⦃g a g'⦄, Inside t limit scope g → g.segment.frame = H.frame →
    (∀ v ∈ g'.segment.declared, v ∈ H.vars) → step g = .ok a g' →
    Steady H.frame g'.temps a ∧ m.Computes program H x shown g.temps (added g g') a

/-- The code of the expression leaves its value. -/
def Evaluates (m : Machine) (program : List Instr) (t : SymbolTable) (limit : Nat)
    (scope : Option String) (H : Home) (call : String → List Int → Run Int Unit Unit (Option Int))
    (e : Expr) : Prop :=
  m.Generates program t limit scope H e.code (e.eval (.integer m) call) .int

/-- The code for the truth of the expression leaves that. -/
def Decides (m : Machine) (program : List Instr) (t : SymbolTable) (limit : Nat)
    (scope : Option String) (H : Home) (call : String → List Int → Run Int Unit Unit (Option Int))
    (e : Expr) : Prop :=
  m.Generates program t limit scope H e.truth (e.test (.integer m) call) .bool

section

variable {program : List Instr} {t : SymbolTable} {limit : Nat} {scope : Option String} {H : Home}
  {call : String → List Int → Run Int Unit Unit (Option Int)} {g g' : Generator} {n : Nat} {e : Expr}

theorem vars_of_growth (h : Growth [] g g') (hvars : ∀ v ∈ g'.segment.declared, v ∈ H.vars) :
    ∀ v ∈ g.segment.declared, v ∈ H.vars :=
  fun v hv => hvars v (h.declared v hv)

theorem vars_of_withTemp (hvars : ∀ v ∈ g.withTemp.segment.declared, v ∈ H.vars) :
    (∀ v ∈ g.segment.declared, v ∈ H.vars) ∧ g.temp ∈ H.vars :=
  ⟨fun v hv => hvars v (mem_withTemp.mpr (.inl hv)), hvars _ (mem_withTemp.mpr (.inr rfl))⟩

theorem isTemp_temp (hframe : g.segment.frame = H.frame) (hle : n ≤ g.temps) (hmem : g.temp ∈ H.vars) :
    H.IsTemp n g.temp :=
  ⟨g.temps + 1, Nat.lt_succ_of_le hle, by rw [← hframe]; rfl, hmem⟩

theorem steady_nextTemp (hframe : g.segment.frame = H.frame) :
    Steady H.frame (g.temps + 1) (Operand.var g.temp) := by
  rw [← hframe]
  exact steady_numbered (.inl rfl) (Nat.le_refl _)

/-- The growth of the generator over an expression. -/
theorem growth_code (hg : Inside t limit scope g) (hover : e.Over (names t limit scope))
    (h : e.code g = .ok a g') : Growth [] g g' := by
  have hemits : g.Emits ⟨names t limit scope, false, []⟩ e.code [] _ :=
    (emits_expr hover).1 g hg.knows
  exact (hemits.of_ok h).1.toGrowth

theorem growth_truth (hg : Inside t limit scope g) (hover : e.Over (names t limit scope))
    (h : e.truth g = .ok a g') : Growth [] g g' := by
  have hemits : g.Emits ⟨names t limit scope, false, []⟩ e.truth [] _ :=
    (emits_expr hover).2 g hg.knows
  exact (hemits.of_ok h).1.toGrowth

section

variable {α β : Type} {step : Generate Operand} {x : Run Int Unit Unit α} {y : Run Int Unit Unit β}
  {shown : α → Value} {shown' : β → Value} {last : List Instr}
  (h : m.Generates program t limit scope H step x shown) (hg : Inside t limit scope g)
  (hframe : g.segment.frame = H.frame) (hrun : step g = .ok a g')

include h hg hframe hrun

/-- An operand that is known without code is made of the operand. -/
theorem Generates.immediate (hvars : ∀ v ∈ g'.segment.declared, v ∈ H.vars)
    (hb : Steady H.frame g'.temps b)
    (hlast : ∀ s v s', y s = .ok v s' → ∃ p, x s = .ok p s' ∧
      ∀ c : Config, c.value? a = some (shown p) → c.value? b = some (shown' v)) :
    Steady H.frame g'.temps b ∧ m.Computes program H y shown' g.temps (added g g') b := by
  refine ⟨hb, ?_⟩
  rw [← List.append_nil (added g g')]
  refine (h hg hframe hvars hrun).2.andThen fun s v s' hv => ?_
  obtain ⟨p, hp, hvalue⟩ := hlast s v s' hv
  exact ⟨p, hp, fun c _ hc => .nil (hvalue c hc)⟩

/-- A new temporary is made of the operand. -/
theorem Generates.intoTemp (hgrowth : Growth [] g g')
    (hvars : ∀ v ∈ g'.withTemp.segment.declared, v ∈ H.vars)
    (hlast : ∀ s v s', y s = .ok v s' → ∃ p, x s = .ok p s' ∧ ∀ c, Fresh H.frame g'.temps g'.temp c →
      Steady H.frame g'.temps a → c.value? a = some (shown p) →
        m.Finds program H.frame g'.temps last g'.temp (shown' v) c) :
    Steady H.frame (g'.temps + 1) (Operand.var g'.temp) ∧
      m.Computes program H y shown' g.temps (added g (g'.withTemp.extend last)) g'.temp := by
  have hframe' := hgrowth.frame.trans hframe
  obtain ⟨hvars, hmem⟩ := vars_of_withTemp hvars
  have htemp := isTemp_temp hframe' (Nat.le_refl _) hmem
  obtain ⟨hsteady, hcomputes⟩ := h hg hframe hvars hrun
  refine ⟨steady_nextTemp hframe', ?_⟩
  rw [added_extend hgrowth g'.withTemp rfl]
  refine hcomputes.andThen fun s v s' hv => ?_
  obtain ⟨p, hp, hfinds⟩ := hlast s v s' hv
  exact ⟨p, hp, fun c hc hvalue => (hfinds c (hc.fresh htemp) hsteady hvalue).mono hgrowth.temps⟩

end

variable (hP : Distinct program) (ht : t.Integer)

include ht in
theorem Evaluates.decides (he : e.isTruth = false) (hover : e.Over (names t limit scope))
    (hint : e.isInteger = true)
    (h : m.Evaluates program t limit scope H call e) :
    m.Decides program t limit scope H call e := by
  intro g a g' hg hframe hvars hrun
  rw [Expr.truth_of_not_isTruth he] at hrun
  obtain ⟨_, _, ⟨⟩, hrun⟩ := bind_eq_ok.mp hrun
  obtain ⟨w, g1, hcode, hrun⟩ := bind_eq_ok.mp hrun
  have hgrowth := growth_code hg hover hcode
  rw [hg.infer_eq ht hover hint, asTruth_int] at hrun
  cases htruth : immediateTruth? w with
  | some truth =>
    rw [htruth] at hrun
    cases hrun
    refine h.immediate hg hframe hcode hvars trivial fun s b s' hb => ?_
    obtain ⟨p, hp, rfl⟩ := test_eq_ok.mp hb
    exact ⟨p, hp, fun c hv => congrArg _ (congrArg _ (immediateTruth?_int htruth hv))⟩
  | none =>
    rw [htruth] at hrun
    cases hrun
    refine h.intoTemp hg hframe hcode hgrowth hvars fun s b s' hb => ?_
    obtain ⟨p, hp, rfl⟩ := test_eq_ok.mp hb
    exact ⟨p, hp, fun c hfresh _ hv => finds_truth hv hfresh⟩

include hP in
theorem Decides.evaluates (he : e.isTruth = true) (hover : e.Over (names t limit scope))
    (h : m.Decides program t limit scope H call e) :
    m.Evaluates program t limit scope H call e := by
  intro g a g' hg hframe hvars hrun
  rw [Expr.code_of_isTruth he] at hrun
  obtain ⟨w, g1, htruth, hrun⟩ := bind_eq_ok.mp hrun
  have hgrowth := growth_truth hg hover htruth
  -- what the interpreter finds is 1 or 0 by the truth
  have hbit : ∀ {s v s'}, e.eval (.integer m) call s = .ok v s' →
      e.test (.integer m) call s = .ok (v != 0) s' ∧ v = bit (v != 0) := fun hv =>
    ⟨test_eq_ok.mpr ⟨_, hv, rfl⟩, eval_of_isTruth he hv⟩
  by_cases hbool : ∃ b, w = .bool b
  · obtain ⟨b, rfl⟩ := hbool
    cases hrun
    refine h.immediate hg hframe htruth hvars trivial fun s v s' hv => ?_
    obtain ⟨htest, hv⟩ := hbit hv
    refine ⟨_, htest, fun c hc => ?_⟩
    cases hc
    rw [hv, bit_ne_zero]
    cases (v != 0) <;> rfl
  · rw [truthAsInt_of_ne fun b hb => hbool ⟨b, hb⟩] at hrun
    cases hrun
    show Steady H.frame (g1.temps + 1) (Operand.var g1.temp) ∧
      m.Computes program H _ .int g.temps (added g (g1.withTemp.extend _)) g1.temp
    refine h.intoTemp hg hframe htruth hgrowth hvars fun s v s' hv => ?_
    obtain ⟨htest, hv⟩ := hbit hv
    refine ⟨_, htest, fun c hfresh hsteady hvalue => ?_⟩
    rw [hv]
    exact finds_bit hP hvalue hsteady hfresh

/-! ## Operations -/

theorem generates_constant (k : Int64) : m.Evaluates program t limit scope H call
    (.constant (.int k)) := by
  intro g a g' _ _ _ hrun
  rw [Expr.code] at hrun
  cases hrun
  refine ⟨trivial, ?_⟩
  rw [added_self]
  refine .of_value fun s v s' hv => ?_
  rw [Expr.eval, evaluated_integer] at hv
  cases hv
  exact ⟨rfl, fun _ _ => rfl⟩

theorem generates_var {x : String} (hx : (names t limit scope).var x) :
    m.Evaluates program t limit scope H call (.var x) := by
  intro g a g' hg hframe _ hrun
  rw [Expr.code] at hrun
  obtain ⟨w, g1, hvar, hrun⟩ := bind_eq_ok.mp hrun
  cases hrun
  obtain ⟨_, hadded, rfl, _⟩ :=
    (emits_variableOf (K := ⟨names t limit scope, false, []⟩) hg.knows hx).of_ok hvar
  have hname : IsVarName x.toList := hx.1.1
  refine ⟨⟨hframe, isHeld_bareName hname _⟩, ?_⟩
  rw [hadded, hframe]
  refine .of_value fun s v s' hv => ?_
  obtain ⟨hv, rfl⟩ := eval_var_iff.mp hv
  exact ⟨rfl, fun c hc => Config.value?_of_get (hc.vars x v hname hv)⟩

section

variable {op : BinOp} {left right : Expr} (hl : left.Over (names t limit scope))
  (hr : right.Over (names t limit scope)) (hintl : left.isInteger = true)
  (hintr : right.isInteger = true)
  (ihl : m.Evaluates program t limit scope H call left)
  (ihr : m.Evaluates program t limit scope H call right)

include hl hr in
theorem growth_operands (hg : Inside t limit scope g) (hleft : left.code g = .ok a1 g1)
    (hright : right.code g1 = .ok a2 g2) : Growth [] g g2 :=
  have hgrowth := growth_code hg hl hleft
  hgrowth.trans (growth_code (hg.growth hgrowth) hr hright)

include hl hr ihl ihr in
/-- An operation on two values whose code stands one behind the other. -/
theorem computes_operands (hg : Inside t limit scope g) (hframe : g.segment.frame = H.frame)
    (hleft : left.code g = .ok a1 g1) (hright : right.code g1 = .ok a2 g2)
    (hvars : ∀ v ∈ g2.segment.declared, v ∈ H.vars) {α : Type} {x : Run Int Unit Unit α}
    {shown : α → Value} {last : List Instr} {b : Operand}
    (h : ∀ s v s', x s = .ok v s' → ∃ p s1 q, left.eval (.integer m) call s = .ok p s1 ∧
      right.eval (.integer m) call s1 = .ok q s' ∧ ∀ c, Shows H s' c → Steady H.frame g2.temps a1 →
        Steady H.frame g2.temps a2 → c.value? a1 = some (.int p) → c.value? a2 = some (.int q) →
        m.Finds program H.frame g2.temps last b (shown v) c) :
    m.Computes program H x shown g.temps (added g g2 ++ last) b := by
  have hgrowth1 := growth_code hg hl hleft
  have hg1 := hg.growth hgrowth1
  have hgrowth2 := growth_code hg1 hr hright
  have hgrowth := hgrowth1.trans hgrowth2
  obtain ⟨hsteady, hcomputes⟩ := ihl hg hframe (vars_of_growth hgrowth2 hvars) hleft
  obtain ⟨hsteady', hcomputes'⟩ := ihr hg1 (hgrowth1.frame.trans hframe) hvars hright
  rw [hgrowth1.added_trans hgrowth2, List.append_assoc]
  refine hcomputes.both hgrowth1.temps hsteady hcomputes' fun s v s' hv => ?_
  obtain ⟨p, s1, q, hp, hq, hlast⟩ := h s v s' hv
  refine ⟨p, s1, q, hp, hq, fun c hc hvp hvq => ?_⟩
  exact (hlast c hc (hsteady.mono hgrowth2.temps) hsteady' hvp hvq).mono hgrowth.temps

include hl hr ihl ihr in
/-- An operation on two values that ends in a new temporary. -/
theorem computes_temp (hg : Inside t limit scope g) (hframe : g.segment.frame = H.frame)
    (hleft : left.code g = .ok a1 g1) (hright : right.code g1 = .ok a2 g2)
    (hvars : ∀ v ∈ g2.withTemp.segment.declared, v ∈ H.vars) {α : Type} {x : Run Int Unit Unit α}
    {shown : α → Value} {last : List Instr}
    (h : ∀ s v s', x s = .ok v s' → ∃ p s1 q, left.eval (.integer m) call s = .ok p s1 ∧
      right.eval (.integer m) call s1 = .ok q s' ∧ ∀ c, Fresh H.frame g2.temps g2.temp c →
        c.value? a1.asInt = some (.int p) → c.value? a2.asInt = some (.int q) →
        m.Finds program H.frame g2.temps last g2.temp (shown v) c) :
    Steady H.frame (g2.temps + 1) (Operand.var g2.temp) ∧
      m.Computes program H x shown g.temps (added g (g2.withTemp.extend last)) g2.temp := by
  have hgrowth := growth_operands hl hr hg hleft hright
  have hframe2 := hgrowth.frame.trans hframe
  obtain ⟨hvars, hmem⟩ := vars_of_withTemp hvars
  have htemp := isTemp_temp hframe2 (Nat.le_refl _) hmem
  refine ⟨steady_nextTemp hframe2, ?_⟩
  rw [added_extend hgrowth g2.withTemp rfl]
  refine computes_operands hl hr ihl ihr hg hframe hleft hright hvars fun s v s' hv => ?_
  obtain ⟨p, s1, q, hp, hq, hfinds⟩ := h s v s' hv
  refine ⟨p, s1, q, hp, hq, fun c hc _ _ hvp hvq => ?_⟩
  exact hfinds c (hc.fresh htemp) (value?_asInt hvp) (value?_asInt hvq)

include ht hl hr hintl hintr ihl ihr in
theorem generates_arithmetic (hop : op.isArithmetic = true) (hdiv : op ≠ .div) :
    m.Evaluates program t limit scope H call (.binary op left right) := by
  intro g a g' hg hframe hvars hrun
  have hvalue : op.isValue = true := by rw [BinOp.isValue, hop, Bool.true_or]
  rw [Expr.code, if_pos hvalue] at hrun
  unfold valueWith at hrun
  obtain ⟨_, _, ⟨⟩, hrun⟩ := bind_eq_ok.mp hrun
  rw [if_pos hop] at hrun
  obtain ⟨a1, g1, hleft, hrun⟩ := bind_eq_ok.mp hrun
  obtain ⟨a2, g2, hright, hrun⟩ := bind_eq_ok.mp hrun
  have hty : op.resultTy .int .int = .int := BinOp.resultTy_int ⟨hdiv, by rintro rfl; cases hop⟩
  rw [hg.infer_eq ht hl hintl, hg.infer_eq ht hr hintr, hty, arithmetic_int] at hrun
  cases hrun
  refine computes_temp hl hr ihl ihr hg hframe hleft hright hvars fun s v s' hv => ?_
  have hshort : op.shortcut? = none := by cases op <;> first | rfl | cases hop
  obtain ⟨p, s1, q, hp, hq, hbinary⟩ := eval_binary hshort hv
  refine ⟨p, s1, q, hp, hq, fun c hfresh hvp hvq => ?_⟩
  exact .binary hvp hvq (binaryOp_arithmetic hop hbinary) hfresh (.nil (value?_update_temp hfresh _))

include ht hl hr hintl hintr ihl ihr in
theorem generates_ordering (hop : op.isOrdering = true) :
    m.Decides program t limit scope H call (.binary op left right) := by
  intro g a g' hg hframe hvars hrun
  have hvalue : op.isValue = false := by cases op <;> first | rfl | cases hop
  have hident : ¬ op.isIdentity = true := by cases op <;> first | decide | cases hop
  rw [Expr.truth, if_neg (by simp [hvalue])] at hrun
  unfold truthWith at hrun
  obtain ⟨_, _, ⟨⟩, hrun⟩ := bind_eq_ok.mp hrun
  rw [if_neg hident, if_pos hop] at hrun
  obtain ⟨a1, g1, hleft, hrun⟩ := bind_eq_ok.mp hrun
  have hty : Ty.int.widen .int = .int := by decide
  rw [hg.infer_eq ht hl hintl, hg.infer_eq ht hr hintr, hty] at hrun
  simp only [normalize_int, pure_bind] at hrun
  obtain ⟨a2, g2, hright, hrun⟩ := bind_eq_ok.mp hrun
  rw [ordering_eq] at hrun
  cases hrun
  refine computes_temp hl hr ihl ihr hg hframe hleft hright hvars fun s v s' hv => ?_
  have hshort : op.shortcut? = none := by cases op <;> first | rfl | cases hop
  obtain ⟨p, s1, q, hp, hq, rfl⟩ := test_binary hvalue hshort hv
  exact ⟨p, s1, q, hp, hq, fun c hfresh hvp hvq => finds_ordering hop hvp hvq hfresh⟩

include hP hl hr ihl ihr in
theorem generates_identity (hop : op.isIdentity = true) :
    m.Decides program t limit scope H call (.binary op left right) := by
  intro g a g' hg hframe hvars hrun
  have hvalue : op.isValue = false := by cases op <;> first | rfl | cases hop
  rw [Expr.truth, if_neg (by simp [hvalue])] at hrun
  unfold truthWith at hrun
  obtain ⟨_, _, ⟨⟩, hrun⟩ := bind_eq_ok.mp hrun
  rw [if_pos hop] at hrun
  obtain ⟨a1, g1, hleft, hrun⟩ := bind_eq_ok.mp hrun
  obtain ⟨a2, g2, hright, hrun⟩ := bind_eq_ok.mp hrun
  rw [identity_eq] at hrun
  cases hrun
  -- the three temporaries of the comparison
  obtain ⟨hvars3, hmem3⟩ := vars_of_withTemp (g := g2.withTemp.withTemp) hvars
  obtain ⟨hvars2, hmem2⟩ := vars_of_withTemp hvars3
  obtain ⟨hvars1, hmem1⟩ := vars_of_withTemp hvars2
  have hgrowth := growth_operands hl hr hg hleft hright
  have hframe2 : g2.segment.frame = H.frame := hgrowth.frame.trans hframe
  have hframe3 : g2.withTemp.segment.frame = H.frame := hframe2
  have hframe4 : g2.withTemp.withTemp.segment.frame = H.frame := hframe2
  refine ⟨steady_nextTemp hframe4, ?_⟩
  rw [added_extend hgrowth g2.withLabel.withTemp.withTemp.withTemp rfl]
  refine computes_operands hl hr ihl ihr hg hframe hleft hright hvars1 fun s v s' hv => ?_
  have hshort : op.shortcut? = none := by cases op <;> first | rfl | cases hop
  obtain ⟨p, s1, q, hp, hq, rfl⟩ := test_binary hvalue hshort hv
  refine ⟨p, s1, q, hp, hq, fun c hc hsteady hsteady' hvp hvq => ?_⟩
  exact finds_identity hP hop hvp hvq hsteady hsteady' (steady_nextTemp hframe2)
    (hc.fresh (isTemp_temp hframe2 (Nat.le_refl _) hmem1))
    (hc.fresh (isTemp_temp hframe3 (Nat.le_refl _) hmem2)) (steady_nextTemp hframe3)
    (hc.fresh (isTemp_temp hframe4 (Nat.le_refl _) hmem3))

include hP hl hr in
/-- Where the first operand decides, the code passes over the second, as the interpreter does. -/
theorem generates_logical {decided : Bool} (hop : op.shortcut? = some decided)
    (ihl : m.Decides program t limit scope H call left)
    (ihr : m.Decides program t limit scope H call right) :
    m.Decides program t limit scope H call (.binary op left right) := by
  intro g a g' hg hframe hvars hrun
  have hkind : ¬ op.isValue = true ∧ ¬ op.isIdentity = true ∧ ¬ op.isOrdering = true ∧
      (op != .and) = decided := by
    cases op with
    | and | or =>
      obtain rfl := Option.some.inj hop
      decide
    | _ => cases hop
  obtain ⟨hvalue, hident, hord, hdecided⟩ := hkind
  rw [Expr.truth, if_neg hvalue] at hrun
  unfold truthWith at hrun
  obtain ⟨_, _, ⟨⟩, hrun⟩ := bind_eq_ok.mp hrun
  rw [if_neg hident, if_neg hord] at hrun
  obtain ⟨l, b, g1, b', g2, hleft, hright, rfl, rfl⟩ := logical_ok hrun
  rw [hdecided] at hright
  -- the label and the temporary are taken before there is code for the operands
  have hg0 := hg.withLabel.withTemp
  have hgrowth1 := growth_truth hg0 hl hleft
  have hg1 := hg0.growth hgrowth1
  have hgrowth2 := growth_truth (hg1.extend _) hr hright
  have hframe0 : g.withLabel.withTemp.segment.frame = H.frame := hframe
  have hframe1 := hgrowth1.frame.trans hframe0
  have hvars2 : ∀ v ∈ g2.segment.declared, v ∈ H.vars := hvars
  have hvars1 : ∀ v ∈ g1.segment.declared, v ∈ H.vars := (vars_of_growth hgrowth2 hvars2 :)
  obtain ⟨_, hmem⟩ := vars_of_withTemp (vars_of_growth hgrowth1 hvars1)
  obtain ⟨_, hcomputes⟩ := ihl hg0 hframe0 hvars1 hleft
  obtain ⟨_, hcomputes'⟩ := ihr (hg1.extend _) hframe1 hvars2 hright
  have hle1 : g.temps + 1 ≤ g1.temps := hgrowth1.temps
  have hle2 : g1.temps ≤ g2.temps := hgrowth2.temps
  refine ⟨(steady_nextTemp hframe).mono (Nat.le_trans hle1 hle2), ?_⟩
  have hadded : added g (g2.extend [.move g.temp b', .label l]) = added g.withLabel.withTemp g1 ++
      .move g.temp b :: .jumpIfEq l g.temp (.bool decided) :: ((added (g1.extend
        [.move g.temp b, .jumpIfEq l g.temp (.bool decided)]) g2 ++ [.move g.temp b']) ++
          [.label l]) := by
    refine added_eq ?_
    rw [body_extend, hgrowth2.body, body_extend, hgrowth1.body]
    simp only [List.append_assoc, List.cons_append, List.nil_append]
    rfl
  rw [hadded]
  have htemp := isTemp_temp hframe (Nat.le_refl _) hmem
  exact .logical hP hop (Nat.le_succ _) (Nat.le_of_succ_le hle1) htemp hcomputes hcomputes'

end

theorem generates_not (hover : e.Over (names t limit scope))
    (ih : m.Decides program t limit scope H call e) :
    m.Decides program t limit scope H call (.unary .not e) := by
  intro g a g' hg hframe hvars hrun
  rw [Expr.truth] at hrun
  obtain ⟨w, g1, htruth, hrun⟩ := bind_eq_ok.mp hrun
  have hgrowth := growth_truth hg hover htruth
  by_cases hbool : ∃ b, w = .bool b
  · obtain ⟨b, rfl⟩ := hbool
    cases hrun
    refine ih.immediate hg hframe htruth hvars trivial fun s v s' hv => ⟨_, test_not hv, fun c hc => ?_⟩
    cases hc
    rw [Bool.not_not]
    rfl
  · rw [negation_of_ne fun b hb => hbool ⟨b, hb⟩] at hrun
    cases hrun
    refine ih.intoTemp hg hframe htruth hgrowth hvars
      fun s v s' hv => ⟨_, test_not hv, fun c hfresh _ hvalue => .not hvalue hfresh (.nil ?_)⟩
    rw [value?_update_temp hfresh, Bool.not_not]

include ht in
theorem generates_negate (hover : e.Over (names t limit scope)) (hint : e.isInteger = true)
    (ih : m.Evaluates program t limit scope H call e) :
    m.Evaluates program t limit scope H call (.unary .negate e) := by
  intro g a g' hg hframe hvars hrun
  rw [Expr.code] at hrun
  obtain ⟨_, _, ⟨⟩, hrun⟩ := bind_eq_ok.mp hrun
  obtain ⟨w, g1, hcode, hrun⟩ := bind_eq_ok.mp hrun
  rw [hg.infer_eq ht hover hint, UnaryOp.resultTy_int, arithmetic_int] at hrun
  cases hrun
  have hgrowth := growth_code hg hover hcode
  refine ih.intoTemp hg hframe hcode hgrowth hvars fun s v s' hv => ?_
  obtain ⟨p, hp, hround⟩ := eval_negate hv
  refine ⟨p, hp, fun c hfresh _ hvalue => ?_⟩
  have hsub : m.binaryOp (arithmeticOp .sub) (.int 0) (.int p) = some (.int v) := by
    simp only [arithmeticOp, binaryOp, Int.zero_sub, hround, Option.map_some]
  exact .binary rfl (value?_asInt hvalue) hsub hfresh (.nil (value?_update_temp hfresh _))

/-! ## Calls -/

theorem growth_pushes (hg : Inside t limit scope g)
    (hover : ∀ e ∈ args, e.Over (names t limit scope)) (h : Expr.pushes args g = .ok () g') :
    Growth [] g g' :=
  ((emits_pushes args (fun e he => (emits_expr (hover e he)).1) g hg.knows).of_ok h).toGrowth

theorem generates_pushes : ∀ {args : List Expr} {g g' : Generator}, Inside t limit scope g →
    g.segment.frame = H.frame → (∀ v ∈ g'.segment.declared, v ∈ H.vars) →
    (∀ e ∈ args, e.Over (names t limit scope)) →
    (∀ e ∈ args, m.Evaluates program t limit scope H call e) →
    Expr.pushes args g = .ok () g' →
    m.Pushes program H (Expr.evalAll (.integer m) call args) g.temps (added g g')
  | [], g, g', _, _, _, _, _, hrun => by
    rw [Expr.pushes] at hrun
    cases hrun
    rw [added_self]
    exact pushes_nil
  | e :: rest, g, g', hg, hframe, hvars, hover, ih, hrun => by
    rw [Expr.pushes] at hrun
    obtain ⟨a, g1, hcode, hrun⟩ := bind_eq_ok.mp hrun
    obtain ⟨_, _, ⟨⟩, hrun⟩ := bind_eq_ok.mp hrun
    have hrun : Expr.pushes rest (g1.extend [.push a]) = .ok () g' := hrun
    have hgrowth := growth_code hg (hover e (.head _)) hcode
    have hg1 := (hg.growth hgrowth).extend [.push a]
    have hrest := fun x hx => hover x (.tail e hx)
    have hgrowth' := growth_pushes hg1 hrest hrun
    have hvars1 : ∀ v ∈ g1.segment.declared, v ∈ H.vars := (vars_of_growth hgrowth' hvars :)
    obtain ⟨_, hcomputes⟩ := ih e (.head _) hg hframe hvars1 hcode
    have hpushes := generates_pushes hg1 (hgrowth.frame.trans hframe) hvars hrest
      (fun x hx => ih x (.tail e hx)) hrun
    have hadded : added g g' = added g g1 ++ .push a :: added (g1.extend [.push a]) g' := by
      refine added_eq ?_
      rw [hgrowth'.body, body_extend, hgrowth.body]
      simp only [List.append_assoc, List.cons_append, List.nil_append]
    rw [hadded]
    exact .cons hcomputes hgrowth.temps hpushes

theorem generates_call {name : String}
    (hanswers : m.Answers program (names t limit scope).callee call)
    (hcallee : (names t limit scope).callee name args.length)
    (hover : ∀ e ∈ args, e.Over (names t limit scope))
    (ih : ∀ e ∈ args, m.Evaluates program t limit scope H call e) :
    m.Evaluates program t limit scope H call (.call name args) := by
  intro g a g' hg hframe hvars hrun
  rw [Expr.code] at hrun
  obtain ⟨_, g2, hcall, hrun⟩ := bind_eq_ok.mp hrun
  obtain ⟨g1, hpushes, rfl⟩ := callCode_ok hcall
  cases hrun
  obtain ⟨hvars, hmem⟩ := vars_of_withTemp (g := g1) hvars
  have hgrowth := growth_pushes hg hover hpushes
  have hframe1 := hgrowth.frame.trans hframe
  have hargs := generates_pushes hg hframe hvars hover ih hpushes
  have hadded : added g ((g1.extend (callEnd name args.length)).withTemp.extend
      [.move g1.temp Var.returned]) = added g g1 ++ callEnd name args.length ++
        [.move g1.temp Var.returned] := by
    refine added_eq ?_
    rw [body_extend]
    show (g1.extend (callEnd name args.length)).segment.body.toList ++ _ = _
    rw [body_extend, hgrowth.body]
    simp only [List.append_assoc]
  refine ⟨steady_nextTemp (g := g1) hframe1, ?_⟩
  have htemp := isTemp_temp hframe1 hgrowth.temps hmem
  have hcomputes := hargs.computes hanswers hcallee htemp
  rw [← hadded] at hcomputes
  exact hcomputes

include hP ht in
/-- The code of an integer expression computes its value and its truth. -/
theorem generates_expr (hanswers : m.Answers program (names t limit scope).callee call)
    (hover : e.Over (names t limit scope)) (hint : e.isInteger = true) :
    m.Evaluates program t limit scope H call e ∧
      m.Decides program t limit scope H call e := by
  -- an expression is made for its value or for its truth, and the other is made from that
  have hcode : ∀ {e : Expr}, e.isTruth = false → e.Over (names t limit scope) → e.isInteger = true →
      m.Evaluates program t limit scope H call e → m.Evaluates program t limit scope H call e ∧
        m.Decides program t limit scope H call e :=
    fun he hover hint h => ⟨h, h.decides ht he hover hint⟩
  have htruth : ∀ {e : Expr}, e.isTruth = true → e.Over (names t limit scope) →
      m.Decides program t limit scope H call e → m.Evaluates program t limit scope H call e ∧
        m.Decides program t limit scope H call e :=
    fun he hover h => ⟨h.evaluates hP he hover, h⟩
  induction hover with
  | constant c =>
    obtain ⟨k, rfl⟩ := Expr.isInteger_constant hint
    exact hcode rfl (.constant _) hint (generates_constant k)
  | var hx => exact hcode rfl (.var hx) hint (generates_var hx)
  | @binary op left right hl hr ihl ihr =>
    obtain ⟨⟨hdiv, hconcat⟩, hintl, hintr⟩ := Expr.isInteger_binary.mp hint
    replace ihl := ihl hintl
    replace ihr := ihr hintr
    cases harith : op.isArithmetic with
    | true =>
      have hvalue : (Expr.binary op left right).isTruth = false := by
        simp [Expr.isTruth, BinOp.isValue, harith]
      exact hcode hvalue (.binary hl hr) hint
        (generates_arithmetic ht hl hr hintl hintr ihl.1 ihr.1 harith hdiv)
    | false =>
      have hvalue : (Expr.binary op left right).isTruth = true := by
        simp [Expr.isTruth, BinOp.isValue, harith, hconcat]
      refine htruth hvalue (.binary hl hr) ?_
      cases op with
      | less | lessEqual | greater | greaterEqual | equal | notEqual =>
        exact generates_ordering ht hl hr hintl hintr ihl.1 ihr.1 rfl
      | identical | notIdentical => exact generates_identity hP hl hr ihl.1 ihr.1 rfl
      | and | or => exact generates_logical hP hl hr rfl ihl.2 ihr.2
      | concat => exact absurd rfl hconcat
      | _ => cases harith
  | @unary op e hover ih =>
    have hint' : e.isInteger = true := hint
    cases op with
    | negate => exact hcode rfl (.unary hover) hint (generates_negate ht hover hint' (ih hint').1)
    | not => exact htruth rfl (.unary hover) (generates_not hover (ih hint').2)
  | @call name args hcallee hargs ih =>
    obtain ⟨_, hints⟩ := Expr.isInteger_call.mp hint
    exact hcode rfl (.call hcallee hargs) hint
      (generates_call hanswers hcallee hargs fun e he => (ih e he (hints e he)).1)

end

end Machine

end Ifj22
