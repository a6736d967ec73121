import Ifj22.Code.Program
import Ifj22.Proofs.Tree.Read
set_option autoImplicit false

/-!
# Code: generating code from trees

`Expr.code`, `Expr.truth` and `Stmt.code` generate code from a tree as the generator does from the
arena that holds it.  The generator never changes the arena, so the two are the same step.
-/

namespace Ifj22

open Code Code.Generator

variable {a : Arena} {slots : List Slot} {args : List Expr} {fuel : Nat} {e : Expr}
  {body : List Stmt}

/-- The operand of a constant. -/
def Constant.operand : Constant → Operand
  | .int value => .int value
  | .float value => .float value
  | .str value => .str value
  | .null => .nil

namespace Code.Generator

/-! ## Steps that are given their parts -/

/-- A binary operation that yields a value: arithmetic or concatenation. -/
def valueWith (op : BinOp) (left right : Expr) (leftCode rightCode : Generate Operand) :
    Generate Operand := do
  let env := (← get).env
  if op.isArithmetic then
    let a ← leftCode
    let b ← rightCode
    arithmetic op a (left.infer env) b (right.infer env)
      (op.resultTy (left.infer env) (right.infer env))
  else
    let a ← leftCode
    let a ← asText a (left.infer env)
    let b ← rightCode
    let b ← asText b (right.infer env)
    let t ← newTemp
    emit (.binary .concat t a b)
    pure t

/-- A binary operation that yields a truth value: a comparison or a logical operation. -/
def truthWith (op : BinOp) (left right : Expr)
    (leftCode rightCode leftTruth rightTruth : Generate Operand) : Generate Operand := do
  let env := (← get).env
  if op.isIdentity then
    let a ← leftCode
    let b ← rightCode
    identity op a b
  else if op.isOrdering then
    let target := (left.infer env).widen (right.infer env)
    let a ← leftCode
    let a ← normalize a (left.infer env) target
    let b ← rightCode
    let b ← normalize b (right.infer env) target
    ordering op a b
  else logical op leftTruth rightTruth

/-- A call, given how to push its arguments and how many there are. -/
def callCode (name : String) (n : Nat) (pushes : Generate Unit) : Generate Unit := do
  pushes
  if name = "write" then emit (.push (.int (Int64.ofNat n)))
  emit .createFrame
  emit (.call (.entry name))

/-- A conditional, given its condition and its branches. -/
def ifElseCode (cond : Generate Operand) (thenCode elseCode : Generate Unit) : Generate Unit := do
  let n ← newLabel
  let value ← cond
  emit (.jumpIfEq (.branch .ifElse n) value (.bool false))
  thenCode
  emit (.jump (.branch .ifEnd n))
  emit (.label (.branch .ifElse n))
  elseCode
  emit (.label (.branch .ifEnd n))

/-- A loop, given its condition and its body. -/
def whileLoopCode (cond : Generate Operand) (body : Generate Unit) : Generate Unit := do
  let n ← newLabel
  emit (.label (.branch .whileStart n))
  let value ← cond
  emit (.jumpIfEq (.branch .whileEnd n) value (.bool false))
  body
  emit (.jump (.branch .whileStart n))
  emit (.label (.branch .whileEnd n))

/-- A return, given its value. -/
def returnCode (value : Generate (Option Operand)) : Generate Unit := do
  let value ← value
  if (← get).function.isNone then emit (.exit (.int 0))
  else
    value.forM fun value => emit (.move Var.result value)
    emit .popFrame
    emit .ret

end Code.Generator

/-- The operator yields a value rather than a truth value. -/
def BinOp.isValue (op : BinOp) : Bool := op.isArithmetic || op == .concat

/-! ## Expressions -/

mutual

/-- An operand that holds the value of the expression. -/
def Expr.code : Expr → Generate Operand
  | .constant c => pure c.operand
  | .var name => do
    let v ← variableOf name
    pure v
  | .binary op left right =>
    if op.isValue then valueWith op left right left.code right.code
    else do
      let cond ← truthWith op left right left.code right.code left.truth right.truth
      truthAsInt cond
  | .unary .negate operand => do
    let env := (← get).env
    let value ← operand.code
    arithmetic .sub (.int 0) .int value (operand.infer env)
      (UnaryOp.resultTy .negate (operand.infer env))
  | .unary .not operand => do
    let value ← operand.truth
    let cond ← negation value
    truthAsInt cond
  | .call name args => do
    callCode name args.length (Expr.pushes args)
    let t ← newTemp
    emit (.move t Var.returned)
    pure t

/-- An operand that holds the truth of the expression. -/
def Expr.truth : Expr → Generate Operand
  | .constant c => do
    let env := (← get).env
    asTruth c.operand ((Expr.constant c).infer env)
  | .var name => do
    let env := (← get).env
    let v ← variableOf name
    asTruth v (env.varTy name)
  | .binary op left right =>
    if op.isValue then do
      let env := (← get).env
      let value ← valueWith op left right left.code right.code
      asTruth value ((Expr.binary op left right).infer env)
    else truthWith op left right left.code right.code left.truth right.truth
  | .unary .negate operand => do
    let env := (← get).env
    let value ← operand.code
    let value ← arithmetic .sub (.int 0) .int value (operand.infer env)
      (UnaryOp.resultTy .negate (operand.infer env))
    asTruth value ((Expr.unary .negate operand).infer env)
  | .unary .not operand => do
    let value ← operand.truth
    negation value
  | .call name args => do
    let env := (← get).env
    callCode name args.length (Expr.pushes args)
    let t ← newTemp
    emit (.move t Var.returned)
    asTruth t (env.callTy name)

/-- Pushes the values of the expressions. -/
def Expr.pushes : List Expr → Generate Unit
  | [] => pure ()
  | e :: rest => do
    let value ← e.code
    emit (.push value)
    Expr.pushes rest

end

/-- The generator of an arena and of a tree are the same step, at a place and with enough levels. -/
def CodesAlike (a : Arena) (e : Expr) (id : Nat) : Prop :=
  ∀ fuel, 2 * id + 2 ≤ fuel → exprAt a fuel id = e.code ∧ conditionAt a fuel id = e.truth

theorem get_bind_const {α : Type} (m : Generate α) : (get >>= fun _ => m) = m := rfl

theorem get_bind_get {α : Type} (f : Generator → Generator → Generate α) :
    (get >>= fun g => get >>= fun g' => f g g') = get >>= fun g => f g g := rfl

theorem pushes_of_slots (heach : List.Forall₂ (fun s e => CodesAlike a e s.id) slots args)
    (hfuel : ∀ s ∈ slots, 2 * s.id + 3 ≤ fuel) :
    (slots.map (·.id)).forM (pushAt a fuel) = Expr.pushes args := by
  induction heach with
  | nil => rfl
  | @cons s e slots args he _ ih =>
    have hle := hfuel s (.head _)
    obtain ⟨fuel, rfl⟩ := exists_fuel hle
    have hpush : pushAt a (fuel + 1) s.id = e.code >>= fun value => emit (.push value) := by
      rw [pushAt, (he fuel (by omega)).1]
    show (pushAt a (fuel + 1) s.id >>= fun _ => (slots.map (·.id)).forM (pushAt a (fuel + 1))) = _
    rw [hpush, ih fun t ht => hfuel t (.tail s ht), Expr.pushes, bind_assoc]

theorem callWith_of_slots (name : String)
    (heach : List.Forall₂ (fun s e => CodesAlike a e s.id) slots args)
    (hfuel : ∀ s ∈ slots, 2 * s.id + 3 ≤ fuel) :
    callWith name (pushAt a fuel) (slots.map (·.id)) =
      callCode name args.length (Expr.pushes args) := by
  rw [callWith, pushes_of_slots heach hfuel, List.length_map, heach.length_eq, callCode]

theorem codesAlike_binary {op : BinOp} {left right : Expr} {id i j : Nat}
    (hn : a.node id = .binary op i j) (hi : i < id) (hj : j < id) (ihl : CodesAlike a left i)
    (ihr : CodesAlike a right j) (hl : ∀ env, a.infer env i = left.infer env)
    (hr : ∀ env, a.infer env j = right.infer env)
    (hinfer : ∀ env, a.infer env id = (Expr.binary op left right).infer env) :
    CodesAlike a (.binary op left right) id := by
  intro fuel hfuel
  obtain ⟨k, rfl⟩ : ∃ k, fuel = k + 2 := ⟨fuel - 2, by omega⟩
  have hvalue : ∀ m, 2 * id + 1 ≤ m + 1 → op.isValue = true →
      exprAt a (m + 1) id = valueWith op left right left.code right.code := by
    intro m hm hop
    rw [exprAt, hn, valueWith]
    simp only [(ihl m (by omega)).1, (ihr m (by omega)).1, hl, hr, hinfer, Expr.infer]
    cases op <;> first | rfl | exact absurd hop (by decide)
  have htruth : ∀ m, 2 * id + 1 ≤ m + 1 → op.isValue = false → conditionAt a (m + 1) id =
      truthWith op left right left.code right.code left.truth right.truth := by
    intro m hm hop
    obtain ⟨hlc, hlt⟩ := ihl m (by omega)
    obtain ⟨hrc, hrt⟩ := ihr m (by omega)
    rw [conditionAt, hn, truthWith]
    simp only [hlc, hlt, hrc, hrt, hl, hr]
    cases op <;> first | rfl | exact absurd hop (by decide)
  rw [Expr.code, Expr.truth]
  cases hop : op.isValue with
  | true =>
    refine ⟨hvalue (k + 1) (by omega) hop, ?_⟩
    rw [conditionAt, hn]
    simp only [hvalue k (by omega) hop, hinfer]
    cases op <;> first | rfl | exact absurd hop (by decide)
  | false =>
    refine ⟨?_, htruth (k + 1) (by omega) hop⟩
    rw [exprAt, hn]
    simp only [htruth k (by omega) hop]
    cases op <;> first | rfl | exact absurd hop (by decide)

/-- The generator goes over an arena as it goes over the tree that the arena holds. -/
theorem codesAlike : ∀ {lo id : Nat}, e.At a lo id → CodesAlike a e id := by
  induction e with
  | constant c =>
    intro lo id h fuel hfuel
    have hinfer := h.infer_eq
    obtain ⟨k, rfl⟩ : ∃ k, fuel = k + 2 := ⟨fuel - 2, by omega⟩
    have hn := h.1
    have hcode : ∀ m, exprAt a (m + 1) id = (Expr.constant c).code := by
      intro m
      rw [exprAt, hn, Expr.code]
      cases c <;> rfl
    refine ⟨hcode _, ?_⟩
    rw [conditionAt, hn, hcode, Expr.truth]
    simp only [hinfer]
    cases c <;> rfl
  | var name =>
    intro lo id h fuel hfuel
    have hinfer := h.infer_eq
    obtain ⟨k, rfl⟩ : ∃ k, fuel = k + 2 := ⟨fuel - 2, by omega⟩
    have hn := h.1
    have hcode : ∀ m, exprAt a (m + 1) id = (Expr.var name).code := by
      intro m
      rw [exprAt, hn, Expr.code]
      simp only [get_bind_const]
    refine ⟨hcode _, ?_⟩
    rw [conditionAt, hn, hcode, Expr.truth, Expr.code]
    simp only [hinfer, Expr.infer, bind_assoc, pure_bind]
  | binary op left right ihl ihr =>
    intro lo id h
    have hinfer := h.infer_eq
    obtain ⟨i, j, hn, hl, hr, hj⟩ := h
    have hij := hr.le
    exact codesAlike_binary hn (by omega) hj (ihl hl) (ihr hr) hl.infer_eq hr.infer_eq hinfer
  | unary op operand ih =>
    intro lo id h fuel hfuel
    have hinfer := h.infer_eq
    obtain ⟨i, hn, ho, hi⟩ := h
    obtain ⟨k, rfl⟩ : ∃ k, fuel = k + 2 := ⟨fuel - 2, by omega⟩
    have hs := ih ho (k + 1) (by omega)
    have hs' := ih ho k (by omega)
    cases op with
    | negate =>
      have hcode : ∀ m, exprAt a m i = operand.code →
          exprAt a (m + 1) id = (Expr.unary .negate operand).code := by
        intro m hm
        rw [exprAt, hn, Expr.code]
        simp only [hm, ho.infer_eq, hinfer, Expr.infer]
      refine ⟨hcode _ hs.1, ?_⟩
      rw [conditionAt, hn, hcode k hs'.1, Expr.truth, Expr.code]
      simp only [hinfer, Expr.infer, bind_assoc]
      exact get_bind_get _
    | not =>
      constructor
      · rw [exprAt, hn, Expr.code]
        simp only [get_bind_const]
        rw [conditionAt, hn]
        simp only [hs'.2, get_bind_const, bind_assoc]
      · rw [conditionAt, hn, Expr.truth]
        simp only [hs.2, get_bind_const]
  | call name args ih =>
    intro lo id h fuel hfuel
    have hinfer := h.infer_eq
    have hid := h.lt_size
    obtain ⟨link, hn, hargs⟩ := h
    obtain ⟨slots, hlinks, heach⟩ := argsAt_iff.mp hargs
    have hroots := hlinks.arguments_eq (Nat.le_of_lt hid)
    have halike : List.Forall₂ (fun s e => CodesAlike a e s.id) slots args := by
      refine List.forall₂_iff_get.mpr ⟨heach.length_eq, fun n h1 h2 => ?_⟩
      exact ih _ (List.get_mem ..) (heach.get h1 h2)
    obtain ⟨k, rfl⟩ : ∃ k, fuel = k + 2 := ⟨fuel - 2, by omega⟩
    have hcode : ∀ m, 2 * id + 1 ≤ m + 1 → exprAt a (m + 1) id = (Expr.call name args).code := by
      intro m hm
      rw [exprAt, hn, Expr.code]
      simp only [hroots]
      rw [callWith_of_slots name halike fun s hs => by have := hlinks.bounds s hs; omega]
      simp only [get_bind_const]
    refine ⟨hcode _ (by omega), ?_⟩
    rw [conditionAt, hn, hcode k (by omega), Expr.truth, Expr.code]
    simp only [hinfer, Expr.infer, bind_assoc, pure_bind]

/-! ## Statements -/

mutual

/-- Generates a statement. -/
def Stmt.code : Stmt → Generate Unit
  | .assign target value => do
    let value ← value.code
    let v ← variableOf target
    emit (.move v value)
  | .expr (.call name args) => callCode name args.length (Expr.pushes args)
  | .expr value => do
    let _ ← value.code
  | .ret value => returnCode (value.mapM Expr.code)
  | .block body => Stmt.codes body
  | .ifElse cond thenBody none => ifElseCode cond.truth (Stmt.codes thenBody) (pure ())
  | .ifElse cond thenBody (some elseBody) =>
    ifElseCode cond.truth (Stmt.codes thenBody) (Stmt.codes elseBody)
  | .whileLoop cond body => whileLoopCode cond.truth (Stmt.codes body)
  | .function name params _ body => functionWith (fun _ => Stmt.codes body) name params 0

/-- Generates the statements of a list in order. -/
def Stmt.codes : List Stmt → Generate Unit
  | [] => pure ()
  | s :: rest => do
    s.code
    Stmt.codes rest

end

section

variable {a : Arena} {lo id : Nat}

theorem Expr.At.expr_eq (h : e.At a lo id) : expr a id = e.code := by
  have hid := h.lt_size
  exact (codesAlike h (depth a) (by unfold depth; omega)).1

theorem Expr.At.condition_eq (h : e.At a lo id) : condition a id = e.truth := by
  have hid := h.lt_size
  exact (codesAlike h (depth a) (by unfold depth; omega)).2

theorem ArgsAt.call_eq {hi : Nat} {link : Option Nat} (name : String) (h : ArgsAt a args lo hi link)
    (hhi : hi < a.size) : call a name link = callCode name args.length (Expr.pushes args) := by
  obtain ⟨slots, hlinks, heach⟩ := argsAt_iff.mp h
  rw [call, hlinks.arguments_eq (Nat.le_of_lt hhi)]
  refine callWith_of_slots name (heach.imp fun s e he => codesAlike he) fun s hs => ?_
  have := hlinks.bounds s hs
  unfold depth
  omega

theorem codes_of_slots (heach : List.Forall₂ (fun s t => t.At a s.lo s.id) slots body)
    (hfuel : ∀ s ∈ slots, s.id < fuel)
    (hstep : ∀ {s : Stmt} {lo id : Nat}, s.At a lo id → id < fuel → stmtAt a fuel id = s.code) :
    (slots.map (·.id)).forM (stmtAt a fuel) = Stmt.codes body := by
  induction heach with
  | nil => rfl
  | @cons s t slots body ht _ ih =>
    have hfirst := hstep ht (hfuel s (.head _))
    have hrest := ih fun u hu => hfuel u (.tail s hu)
    show (stmtAt a fuel s.id >>= fun _ => (slots.map (·.id)).forM (stmtAt a fuel)) = _
    rw [hfirst, hrest, Stmt.codes]

/-- The statement at a place and its tree are generated by the same step. -/
theorem stmtAt_eq {s : Stmt} (h : s.At a lo id) (hfuel : id < fuel) :
    stmtAt a fuel id = s.code := by
  induction fuel generalizing s lo id with
  | zero => cases hfuel
  | succ fuel ih =>
    -- a list in a statement is held as a block is
    have hlist {body : List Stmt} {lo i : Nat} (hat : ListAt a body none lo i) (hi : i < fuel) :
        stmtAt a fuel i = Stmt.codes body := (ih (s := .block body) hat hi).trans (by rw [Stmt.code])
    cases s with
    | assign target value =>
      obtain ⟨i, hn, hv, hi⟩ := h
      rw [stmtAt, hn, Stmt.code]
      simp only [hv.expr_eq]
    | expr value =>
      have hid := Expr.At.lt_size h
      have hcode := Expr.At.expr_eq h
      cases value with
      | call name args =>
        obtain ⟨link, hn, hargs⟩ := h
        rw [stmtAt, hn, Stmt.code]
        exact hargs.call_eq name hid
      | constant c =>
        rw [stmtAt, h.1]
        cases c <;> simp only [Constant.node, Stmt.code, hcode]
      | var name =>
        rw [stmtAt, h.1]
        simp only [Stmt.code, hcode]
      | binary op left right =>
        obtain ⟨i, j, hn, _⟩ := h
        rw [stmtAt, hn]
        simp only [Stmt.code, hcode]
      | unary op operand =>
        obtain ⟨i, hn, _⟩ := h
        rw [stmtAt, hn]
        simp only [Stmt.code, hcode]
    | ret value =>
      cases value with
      | none => rw [stmtAt, h.1, Stmt.code]; rfl
      | some e =>
        obtain ⟨i, hn, he, hi⟩ := h
        rw [stmtAt, hn, Stmt.code]
        simp only [returnStmt, returnCode, Option.mapM_some, he.expr_eq]
    | block body =>
      have hsize := ListAt.lt_size h
      obtain ⟨prev, last, hn⟩ := ListAt.isLink h
      obtain ⟨slots, hlinks, heach⟩ := listAt_iff.mp h
      rw [stmtAt, hn, Stmt.code]
      dsimp only
      rw [hlinks.statements_eq hsize]
      refine codes_of_slots heach (fun s hs => ?_) ih
      have := (hlinks.bounds s hs).2
      omega
    | ifElse cond thenBody elseBody =>
      cases elseBody with
      | none =>
        obtain ⟨k, i, hn, hc, ht, hi⟩ := h
        rw [stmtAt, hn, Stmt.code]
        simp only [ifElseWith, ifElseCode, hc.condition_eq, hlist ht (by omega), Option.forM]
      | some elseBody =>
        obtain ⟨k, i, j, hn, hc, ht, he, hj⟩ := h
        have hile := he.le
        rw [stmtAt, hn, Stmt.code]
        simp only [ifElseWith, ifElseCode, hc.condition_eq, Option.forM, hlist ht (by omega),
          hlist he (by omega)]
    | whileLoop cond body =>
      obtain ⟨k, i, hn, hc, hb, hi⟩ := h
      rw [stmtAt, hn, Stmt.code]
      simp only [whileLoopWith, whileLoopCode, hc.condition_eq, hlist hb (by omega)]
    | function name params declared body =>
      obtain ⟨i, hn, hb, hi⟩ := h
      rw [stmtAt, hn, Stmt.code]
      simp only [functionWith, hlist hb (by omega)]

end

/-- The code of a program that holds statements. -/
def Stmt.listing (body : List Stmt) : Generate Listing := do
  Stmt.codes body
  emit (.exit (.int 0))
  pure (← get).listing

/-- Generating the code of a program is generating the code of its statements. -/
theorem Program.Holds.program_eq {p : Program} (h : p.Holds body) :
    Generator.program p = Stmt.listing body := by
  have hcode := stmtAt_eq (s := .block body) h (ListAt.lt_size h)
  rw [Generator.program, hcode, Stmt.code, Stmt.listing]

end Ifj22
