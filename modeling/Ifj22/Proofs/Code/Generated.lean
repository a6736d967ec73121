import Ifj22.Proofs.Code.Emission
set_option autoImplicit false

/-!
# Code: what is generated

Operations, expressions and statements over known names are steps that succeed.  So a program whose
names its table knows has code.
-/

namespace Ifj22.Code.Generator

variable {a b : Operand}

variable {K : Context} {g g' : Generator} {args : List Expr} {targets : List Label}
  {leftCode rightCode cond : Generate Operand} {e : Expr}

/-! ## Operations -/

theorem emits_testInt (n : Nat) {value : Operand} (hvalue : g.Holds value)
    (hn : .branch .arithFloat n ∈ K.targets) :
    g.Emits K (testInt n value) [] fun _ _ => True := by
  unfold testInt
  cases value with
  | var v =>
    refine .newTemp fun t g1 h1 hdecl => ?_
    refine .emit rfl (uses_unary.mpr ⟨.inl hdecl, h1.holds hvalue⟩) fun g2 h2 => ?_
    exact .jump_last rfl hn (uses_jumpIfNeq.mpr
      ⟨holds_var.mpr (.inl (h2.declared _ hdecl)), holds_immediate rfl⟩)
  | _ => exact .pure trivial

theorem emits_mixedArithmetic (op : Binary) {t : Var} (leftTy rightTy : Ty)
    (ht : t ∈ g.segment.declared) (ha : g.Holds a) (hb : g.Holds b) :
    g.Emits K (mixedArithmetic op t a leftTy b rightTy) [] fun _ _ => True := by
  unfold mixedArithmetic
  refine .bind (emits_asNumber ha leftTy) fun a1 g1 h1 ha1 => ?_
  refine .bind (emits_asNumber (h1.holds hb) rightTy) fun b1 g2 h2 hb1 => ?_
  have ha2 := h2.holds ha1
  have ht2 := h2.declared _ (h1.declared _ ht)
  refine .reserve (r := [.branch .arithFloat (g2.labels + 1), .branch .arithEnd (g2.labels + 1)]) ?_
    (by simp) (by simp)
  refine .bind (emits_testInt _ ha2 (by simp)) fun _ g3 h3 _ => ?_
  refine .bind (emits_testInt _ (h3.holds hb1) (by simp)) fun _ g4 h4 _ => ?_
  have h4 := h3.trans h4
  refine .emit rfl (uses_binary.mpr ⟨.inl (h4.declared _ ht2), h4.holds ha2, h4.holds hb1⟩)
    fun g5 h5 => ?_
  refine .jump rfl (by simp) (uses_none rfl) fun g6 h6 => .label fun g7 h7 => ?_
  have h7 := ((h4.trans h5).trans h6).trans h7
  refine .bind (emits_normalize (h7.holds ha2) _ _) fun a3 g8 h8 ha3 => ?_
  refine .bind (emits_normalize (h8.holds (h7.holds hb1)) _ _) fun b3 g9 h9 hb3 => ?_
  refine .emit rfl (uses_binary.mpr ⟨.inl ?_, h9.holds ha3, hb3⟩) fun g10 _ => .label_last _
  exact h9.declared _ (h8.declared _ (h7.declared _ ht2))

theorem emits_arithmetic (op : BinOp) (leftTy rightTy target : Ty) (ha : g.Holds a)
    (hb : g.Holds b) :
    g.Emits K (arithmetic op a leftTy b rightTy target) [] fun a g' => g'.Holds a := by
  unfold arithmetic
  refine .newTemp fun t g1 h1 ht => .ite (fun _ => ?_) fun _ => ?_
  · refine .bind (emits_normalize (h1.holds ha) _ _) fun a2 g2 h2 ha2 => ?_
    refine .bind (emits_normalize (h2.holds (h1.holds hb)) _ _) fun b3 g3 h3 hb3 => ?_
    have ht3 := h3.declared _ (h2.declared _ ht)
    exact .emit rfl (uses_binary.mpr ⟨.inl ht3, h3.holds ha2, hb3⟩) fun g4 h4 =>
      emits_pure_var ht3 h4
  · exact .bind (emits_mixedArithmetic _ _ _ ht (h1.holds ha) (h1.holds hb)) fun _ g2 h2 _ =>
      emits_pure_var ht h2

theorem emits_ordering (op : BinOp) (ha : g.Holds a) (hb : g.Holds b) :
    g.Emits K (ordering op a b) [] fun a g' => g'.Holds a := by
  unfold ordering
  refine .newTemp fun t g1 h1 ht => ?_
  refine .emit rfl (uses_binary.mpr ⟨.inl ht, h1.holds ha, h1.holds hb⟩) fun g2 h2 => ?_
  have ht2 := h2.declared _ ht
  refine .ite (fun _ => ?_) fun _ => emits_pure_var ht h2
  exact .emit rfl (uses_unary.mpr ⟨.inl ht2, holds_var.mpr (.inl ht2)⟩) fun g3 h3 =>
    emits_pure_var ht2 h3

theorem emits_identity (op : BinOp) (ha : g.Holds a) (hb : g.Holds b) :
    g.Emits K (identity op a b) [] fun a g' => g'.Holds a := by
  unfold identity
  refine .reserve (r := [.branch .compare (g.labels + 1)]) ?_ (by simp) (by simp)
  refine .newTemp fun leftTy g1 h1 hl => .newTemp fun rightTy g2 h2 hr => ?_
  refine .newTemp fun t g3 h3 ht => ?_
  have ha3 : g3.Holds a := h3.holds (h2.holds (h1.holds ha))
  have hb3 : g3.Holds b := h3.holds (h2.holds (h1.holds hb))
  have hl3 := h3.declared _ (h2.declared _ hl)
  have hr3 := h3.declared _ hr
  refine .emit rfl (uses_unary.mpr ⟨.inl hl3, ha3⟩) fun g4 h4 => ?_
  refine .emit rfl (uses_unary.mpr ⟨.inl (h4.declared _ hr3), h4.holds hb3⟩) fun g5 h5 => ?_
  have h5 := h4.trans h5
  refine .emit rfl (uses_move.mpr ⟨.inl (h5.declared _ ht), holds_immediate rfl⟩) fun g6 h6 => ?_
  have h6 := h5.trans h6
  refine .jump rfl (by simp) (uses_jumpIfNeq.mpr ⟨holds_var.mpr (.inl (h6.declared _ hl3)),
    holds_var.mpr (.inl (h6.declared _ hr3))⟩) fun g7 h7 => ?_
  have h7 := h6.trans h7
  refine .emit rfl (uses_binary.mpr ⟨.inl (h7.declared _ ht), h7.holds ha3, h7.holds hb3⟩)
    fun g8 h8 => .label fun g9 h9 => ?_
  have ht9 := h9.declared _ (h8.declared _ (h7.declared _ ht))
  refine .ite (fun _ => ?_) fun _ => emits_pure_var ht9 (.refl _)
  exact .emit rfl (uses_unary.mpr ⟨.inl ht9, holds_var.mpr (.inl ht9)⟩) fun g10 h10 =>
    emits_pure_var ht9 h10

theorem emits_negation {value : Operand} (hvalue : g.Holds value) :
    g.Emits K (negation value) [] fun a g' => g'.Holds a := by
  unfold negation
  have hlong : g.Emits K (do
      let t ← newTemp
      emit (.unary .not t value)
      pure (Operand.var t)) [] fun a g' => g'.Holds a :=
    .newTemp fun t g1 h1 ht => .emit rfl (uses_unary.mpr ⟨.inl ht, h1.holds hvalue⟩)
      fun g2 h2 => emits_pure_var ht h2
  cases value with
  | bool b => exact .pure (holds_immediate rfl)
  | _ => exact hlong

/-- The step succeeds wherever the names are known, and yields an operand. -/
def EmitsOperand (V : Vocabulary) (m : Generate Operand) : Prop :=
  ∀ ⦃leaves : Bool⦄ ⦃targets : List Label⦄ (g : Generator), g.Knows V →
    g.Emits ⟨V, leaves, targets⟩ m [] fun a g' => g'.Holds a

/-- The step succeeds wherever the names are known; it may leave the function. -/
def EmitsCode (V : Vocabulary) (m : Generate Unit) : Prop :=
  ∀ ⦃targets : List Label⦄ (g : Generator), g.Knows V →
    g.Emits ⟨V, true, targets⟩ m [] fun _ _ => True

/-- The step succeeds wherever the names are known, and pushes the arguments of a call. -/
def EmitsArgs (V : Vocabulary) (args : List Expr) (m : Generate Unit) : Prop :=
  ∀ g : Generator, g.Knows V → Meets m g (fun _ _ => False) fun _ g' => Pushed V args g g'

variable {V : Vocabulary}

/-- Counting a number for labels changes nothing that is known. -/
theorem Knows.reserve (h : g.Knows V) : { g with labels := g.labels + 1 }.Knows V :=
  ⟨h.inScope, ⟨h.tidy.nodup, h.tidy.frame, h.tidy.named, h.tidy.marked⟩, h.var⟩

theorem emits_logical (op : BinOp) {left right : Generate Operand} (hl : EmitsOperand V left)
    (hr : EmitsOperand V right) : EmitsOperand V (logical op left right) := by
  intro _ _ g hg
  unfold logical
  refine .reserve (r := [.branch (if op = .and then .and else .or) (g.labels + 1)]) ?_ (by simp)
    (by simp)
  refine .newTemp fun t g1 h1 ht => ?_
  have hg1 := h1.knows hg.reserve
  refine .bind (hl g1 hg1) fun a g2 h2 ha => ?_
  have ht2 := h2.declared _ ht
  refine .emit rfl (uses_move.mpr ⟨.inl ht2, ha⟩) fun g3 h3 => ?_
  have ht3 := h3.declared _ ht2
  refine .jump rfl (by simp) (uses_jumpIfEq.mpr ⟨holds_var.mpr (.inl ht3), holds_immediate rfl⟩)
    fun g4 h4 => ?_
  refine .bind (hr g4 (h4.knows (h3.knows (h2.knows hg1)))) fun b g5 h5 hb => ?_
  have ht5 := h5.declared _ (h4.declared _ ht3)
  refine .emit rfl (uses_move.mpr ⟨.inl ht5, hb⟩) fun g6 h6 => ?_
  exact .label fun g7 h7 => .pure (holds_var.mpr (.inl (h7.declared _ (h6.declared _ ht5))))

/-- A call takes from the stack what has been pushed for it. -/
theorem emits_callCode {name : String} {pushes : Generate Unit}
    (hname : V.callee name args.length) (hpushes : EmitsArgs V args pushes) {leaves : Bool}
    (hg : g.Knows V) :
    g.Emits ⟨V, leaves, targets⟩ (callCode name args.length pushes) [] fun _ _ => True := by
  have hend : ∀ g1 : Generator, (do
      if name = "write" then emit (.push (.int (Int64.ofNat args.length)))
      emit .createFrame
      emit (.call (.entry name)) : Generate Unit) g1 =
        .ok () (g1.withCode (callEnd name args.length) g1.helpers) := by
    intro g1
    unfold callEnd
    split <;> rfl
  have huses : ∀ g1 : Generator, ∀ i ∈ callEnd name args.length, g1.Uses i := by
    intro g1 i hi
    rcases mem_callEnd.mp hi with ⟨_, rfl⟩ | rfl | rfl <;> exact uses_none rfl
  have hlabels : labelsOf (callEnd name args.length) = [] := by
    unfold callEnd
    split <;> rfl
  unfold callCode
  refine (meets_bind ..).mpr (Meets.imp (hpushes g hg) fun _ g1 h1 => ?_)
  obtain ⟨hgrowth, hadded⟩ := growth_withCode (g := g1) (r := []) _ (fun _ h => h)
    (by rw [hlabels]) (huses g1)
  unfold Meets
  rw [hend g1]
  refine ⟨⟨h1.toGrowth.trans hgrowth, ?_⟩, trivial⟩
  rw [h1.added_trans hgrowth, hadded]
  exact .call hname h1.piece

/-! ## Expressions -/

theorem emits_valueWith (op : BinOp) (left right : Expr) (hl : EmitsOperand V leftCode)
    (hr : EmitsOperand V rightCode) :
    EmitsOperand V (valueWith op left right leftCode rightCode) := by
  intro _ _ g hg
  unfold valueWith
  refine .get (.ite (fun _ => ?_) fun _ => ?_)
  · refine .bind (hl g hg) fun a g1 h1 ha => ?_
    refine .bind (hr g1 (h1.knows hg)) fun b g2 h2 hb => ?_
    exact emits_arithmetic op _ _ _ (h2.holds ha) hb
  · refine .bind (hl g hg) fun a g1 h1 ha => ?_
    refine .bind (emits_asText ha _) fun a2 g2 h2 ha2 => ?_
    refine .bind (hr g2 (h2.knows (h1.knows hg))) fun b g3 h3 hb => ?_
    refine .bind (emits_asText hb _) fun b4 g4 h4 hb4 => ?_
    refine .newTemp fun t g5 h5 ht => ?_
    have ha5 := h5.holds (h4.holds (h3.holds ha2))
    exact .emit rfl (uses_binary.mpr ⟨.inl ht, ha5, h5.holds hb4⟩) fun g6 h6 =>
      emits_pure_var ht h6

theorem emits_truthWith (op : BinOp) (left right : Expr) {leftTruth rightTruth : Generate Operand}
    (hl : EmitsOperand V leftCode) (hr : EmitsOperand V rightCode)
    (hlt : EmitsOperand V leftTruth) (hrt : EmitsOperand V rightTruth) :
    EmitsOperand V (truthWith op left right leftCode rightCode leftTruth rightTruth) := by
  intro _ _ g hg
  unfold truthWith
  refine .get (.ite (fun _ => ?_) fun _ => .ite (fun _ => ?_) fun _ => ?_)
  · refine .bind (hl g hg) fun a g1 h1 ha => ?_
    refine .bind (hr g1 (h1.knows hg)) fun b g2 h2 hb => ?_
    exact emits_identity op (h2.holds ha) hb
  · refine .bind (hl g hg) fun a g1 h1 ha => ?_
    refine .bind (emits_normalize ha _ _) fun a2 g2 h2 ha2 => ?_
    refine .bind (hr g2 (h2.knows (h1.knows hg))) fun b g3 h3 hb => ?_
    refine .bind (emits_normalize hb _ _) fun b4 g4 h4 hb4 => ?_
    exact emits_ordering op (h4.holds (h3.holds ha2)) hb4
  · exact emits_logical op hlt hrt g hg

theorem growth_push (ha : g.Holds a) :
    Growth [] g (g.withCode [.push a] g.helpers) ∧
      added g (g.withCode [.push a] g.helpers) = [.push a] :=
  growth_withCode _ (fun _ h => h) (.refl _) (List.forall_mem_singleton.mpr ha)

/-- An argument and then more arguments. -/
theorem Pushed.cons {g1 g2 : Generator} (hrun : e.code g = .ok a g1)
    (h : Step ⟨V, false, []⟩ [] g g1) (ha : g1.Holds a)
    (hrest : Pushed V args (g1.withCode [.push a] g1.helpers) g2) : Pushed V (e :: args) g g2 := by
  obtain ⟨hgrowth, hadded⟩ := growth_push ha
  have hpush := h.toGrowth.trans hgrowth
  refine ⟨hpush.trans hrest.toGrowth, ?_⟩
  rw [hpush.added_trans hrest.toGrowth, h.added_trans hgrowth, hadded, List.append_assoc]
  exact .arg ⟨g, g1, hrun, h.body⟩ (h.piece.mono hrest.helpers) hrest.piece

theorem emits_pushes : ∀ args : List Expr, (∀ e ∈ args, EmitsOperand V e.code) →
    EmitsArgs V args (Expr.pushes args)
  | [], _ => fun g _ => by
    rw [Expr.pushes]
    exact ⟨.refl g, by rw [added_self]; exact .none⟩
  | e :: rest, h => by
    intro g hg
    rw [Expr.pushes, meets_bind]
    have hfirst : g.Emits ⟨V, false, []⟩ e.code [] fun a g' => g'.Holds a :=
      h e (.head _) g hg
    refine Meets.intro (fun a g1 hrun => ?_) fun e g1 hrun => hfirst.of_error hrun
    obtain ⟨h1, ha⟩ := hfirst.of_ok hrun
    have hrest := emits_pushes rest (fun x hx => h x (.tail e hx)) _
      ((growth_push ha).1.knows (h1.knows hg))
    show Meets (Expr.pushes rest) (g1.withCode [.push a] g1.helpers) _ _
    exact Meets.imp hrest fun _ g2 h2 => .cons hrun h1 ha h2

/-- Expressions over known names have code, for their value and for their truth. -/
theorem emits_expr (h : e.Over V) : EmitsOperand V e.code ∧ EmitsOperand V e.truth := by
  induction h with
  | constant c =>
    have hc : ∀ g : Generator, g.Holds c.operand := fun g => holds_immediate (by cases c <;> rfl)
    refine ⟨fun _ _ g _ => by rw [Expr.code]; exact .pure (hc g), fun _ _ g _ => ?_⟩
    rw [Expr.truth]
    exact .get (emits_asTruth (hc g) _)
  | @var name hvar =>
    refine ⟨fun _ _ g hg => ?_, fun _ _ g hg => ?_⟩
    · rw [Expr.code]
      exact .bind (emits_variableOf hg hvar) fun v g1 _ hv => .pure (holds_var.mpr (.inl hv.2.2))
    · rw [Expr.truth]
      exact .get (.bind (emits_variableOf hg hvar) fun v g1 _ hv =>
        emits_asTruth (holds_var.mpr (.inl hv.2.2)) _)
  | @binary op left right _ _ ihl ihr =>
    have hvalue := emits_valueWith op left right ihl.1 ihr.1
    have htruth := emits_truthWith op left right ihl.1 ihr.1 ihl.2 ihr.2
    refine ⟨fun _ _ g hg => ?_, fun _ _ g hg => ?_⟩
    · rw [Expr.code]
      exact .ite (fun _ => hvalue g hg) fun _ =>
        .bind (htruth g hg) fun a g1 _ ha => emits_truthAsInt ha
    · rw [Expr.truth]
      exact .ite (fun _ => .get (.bind (hvalue g hg) fun a g1 _ ha => emits_asTruth ha _))
        fun _ => htruth g hg
  | @unary op operand _ ih =>
    cases op with
    | negate =>
      have hzero : ∀ g : Generator, g.Holds (.int 0) := fun g => holds_immediate rfl
      refine ⟨fun _ _ g hg => ?_, fun _ _ g hg => ?_⟩
      · rw [Expr.code]
        exact .get (.bind (ih.1 g hg) fun a g1 _ ha => emits_arithmetic _ _ _ _ (hzero g1) ha)
      · rw [Expr.truth]
        exact .get (.bind (ih.1 g hg) fun a g1 _ ha =>
          .bind (emits_arithmetic _ _ _ _ (hzero g1) ha) fun b g2 _ hb => emits_asTruth hb _)
    | not =>
      refine ⟨fun _ _ g hg => ?_, fun _ _ g hg => ?_⟩
      · rw [Expr.code]
        exact .bind (ih.2 g hg) fun a g1 _ ha =>
          .bind (emits_negation ha) fun b g2 _ hb => emits_truthAsInt hb
      · rw [Expr.truth]
        exact .bind (ih.2 g hg) fun a g1 _ ha => emits_negation ha
  | @call name args hname _ ih =>
    have hargs := emits_pushes args fun e he => (ih e he).1
    refine ⟨fun _ _ g hg => ?_, fun _ _ g hg => ?_⟩
    · rw [Expr.code]
      refine .bind (emits_callCode hname hargs hg) fun _ g1 _ _ => .newTemp fun t g2 h2 ht => ?_
      exact .emit rfl (uses_move.mpr ⟨.inl ht, holds_var.mpr (.inr (.inl rfl))⟩) fun g3 h3 =>
        emits_pure_var ht h3
    · rw [Expr.truth]
      refine .get (.bind (emits_callCode hname hargs hg) fun _ g1 _ _ => .newTemp fun t g2 h2 ht => ?_)
      exact .emit rfl (uses_move.mpr ⟨.inl ht, holds_var.mpr (.inr (.inl rfl))⟩) fun g3 h3 =>
        emits_asTruth (holds_var.mpr (.inl (h3.declared _ ht))) _

/-! ## Statements -/

theorem emits_ifElseCode {thenCode elseCode : Generate Unit} (hc : EmitsOperand V cond)
    (ht : EmitsCode V thenCode) (he : EmitsCode V elseCode) :
    EmitsCode V (ifElseCode cond thenCode elseCode) := by
  intro _ g hg
  unfold ifElseCode
  refine .reserve (r := [.branch .ifElse (g.labels + 1), .branch .ifEnd (g.labels + 1)]) ?_
    (by simp) (by simp)
  refine .bind (hc _ hg.reserve) fun a g1 h1 ha => ?_
  refine .jump rfl (by simp) (uses_jumpIfEq.mpr ⟨ha, holds_immediate rfl⟩) fun g2 h2 => ?_
  have hg2 := h2.knows (h1.knows hg.reserve)
  refine .bind (ht g2 hg2) fun _ g3 h3 _ => ?_
  refine .jump rfl (by simp) (uses_none rfl) fun g4 h4 => ?_
  refine .label fun g5 h5 => .bind (he g5 ?_) fun _ g6 _ _ => .label_last _
  exact h5.knows (h4.knows (h3.knows hg2))

theorem emits_whileLoopCode {body : Generate Unit} (hc : EmitsOperand V cond)
    (hb : EmitsCode V body) : EmitsCode V (whileLoopCode cond body) := by
  intro _ g hg
  unfold whileLoopCode
  refine .reserve (r := [.branch .whileStart (g.labels + 1), .branch .whileEnd (g.labels + 1)]) ?_
    (by simp) (by simp)
  refine .label fun g1 h1 => ?_
  have hg1 := h1.knows hg.reserve
  refine .bind (hc g1 hg1) fun a g2 h2 ha => ?_
  refine .jump rfl (by simp) (uses_jumpIfEq.mpr ⟨ha, holds_immediate rfl⟩) fun g3 h3 => ?_
  refine .bind (hb g3 (h3.knows (h2.knows hg1))) fun _ g4 _ _ => ?_
  exact .jump rfl (by simp) (uses_none rfl) fun g5 _ => .label_last _

theorem emits_leave : g.Emits ⟨V, true, targets⟩ (do
    emit .popFrame
    emit .ret) [] fun _ _ => True := by
  obtain ⟨hgrowth, hadded⟩ := growth_withCode (g := g) (r := []) [.popFrame, .ret]
    (fun _ h => h) (.refl _) (by
      simp only [List.forall_mem_cons]
      exact ⟨uses_none rfl, uses_none rfl, List.forall_mem_nil _⟩)
  have hs : Step ⟨V, true, targets⟩ [] g _ := ⟨hgrowth, by rw [hadded]; exact .leave⟩
  exact .of_step rfl hs trivial

theorem emits_returnCode {value : Generate (Option Operand)}
    (hv : ∀ (targets : List Label) (g : Generator), g.Knows V →
      g.Emits ⟨V, true, targets⟩ value [] fun a g' => ∀ v, a = some v → g'.Holds v) :
    EmitsCode V (returnCode value) := by
  intro _ g hg
  unfold returnCode
  refine .bind (hv _ g hg) fun a g1 _ ha => .get (.ite (fun _ => ?_) fun hfun => ?_)
  · exact .emit_last rfl (uses_none rfl)
  · cases a with
    | none => exact emits_leave
    | some v =>
      have hresult : g1.Has Var.result := .inr (.inr ⟨rfl, by
        cases hf : g1.function with
        | none => exact absurd (by rw [hf]; rfl) hfun
        | some f => rfl⟩)
      exact .emit rfl (uses_move.mpr ⟨hresult, ha v rfl⟩) fun g2 _ => emits_leave

theorem emits_codes {body : List Stmt} (h : ∀ s ∈ body, EmitsCode V s.code) :
    EmitsCode V (Stmt.codes body) := by
  induction body with
  | nil => intro _ g _; rw [Stmt.codes]; exact .pure trivial
  | cons s rest ih =>
    intro _ g hg
    rw [Stmt.codes]
    refine .bind (h s (.head _) g hg) fun _ g1 h1 _ => ?_
    exact ih (fun x hx => h x (.tail s hx)) g1 (h1.knows hg)

/-- Statements over known names have code. -/
theorem emits_stmt {s : Stmt} (h : s.Over V) : EmitsCode V s.code := by
  induction h with
  | @assign target value ht hv =>
    intro _ g hg
    rw [Stmt.code]
    refine .bind ((emits_expr hv).1 g hg) fun a g1 h1 ha => ?_
    refine .bind (emits_variableOf (h1.knows hg) ht) fun v g2 h2 hv => ?_
    exact .emit_last rfl (uses_move.mpr ⟨.inl hv.2.2, h2.holds ha⟩)
  | @expr value hv =>
    have hvalue : EmitsCode V (do let _ ← value.code) := fun _ g hg =>
      .bind ((emits_expr hv).1 g hg) fun _ _ _ _ => .pure trivial
    cases hv with
    | @call name args hname hargs =>
      rw [Stmt.code]
      have hpushes := emits_pushes args fun e he => (emits_expr (hargs e he)).1
      exact fun _ g hg => emits_callCode hname hpushes hg
    | _ => simpa only [Stmt.code] using hvalue
  | @ret value h =>
    rw [Stmt.code]
    refine emits_returnCode fun _ g hg => ?_
    cases value with
    | none => exact .pure fun v hv => by cases hv
    | some e =>
      rw [Option.mapM_some, map_eq_pure_bind]
      exact .bind ((emits_expr (h e rfl)).1 g hg) fun a g1 _ ha => .pure fun v hv => by
        cases hv
        exact ha
  | block _ ih =>
    rw [Stmt.code]
    exact emits_codes ih
  | @ifElse cond thenBody elseBody hc _ _ iht ihe =>
    cases elseBody with
    | none =>
      rw [Stmt.code]
      exact emits_ifElseCode (emits_expr hc).2 (emits_codes iht) fun _ g _ => .pure trivial
    | some elseBody =>
      rw [Stmt.code]
      exact emits_ifElseCode (emits_expr hc).2 (emits_codes iht) (emits_codes (ihe elseBody rfl))
  | whileLoop hc _ ih =>
    rw [Stmt.code]
    exact emits_whileLoopCode (emits_expr hc).2 (emits_codes ih)

end Ifj22.Code.Generator
