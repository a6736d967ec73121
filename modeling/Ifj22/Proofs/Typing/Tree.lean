import Ifj22.Proofs.Outcome
import Ifj22.Proofs.Tree.Read
import Ifj22.Typing.Program
set_option autoImplicit false

/-!
# Typing: checking trees

The checker walks over an arena and converts constants in place.  `Stmt.check` is the same walk over a
tree: it yields the converted tree and leaves the arena alone.  `Mirrors` relates the two; they make
the same changes to the tables, fail with the same errors, and the arena ends up with the converted
tree.  What is proved of the checker further on is proved of the walk over the tree.
-/

namespace Ifj22

variable {a : Arena} {c : Checker} {fuel id lo : Nat} {e : Expr} {p : Prop} {slots : List Slot}

/-! ## The walk over a tree -/

/-- The constant converted to the target type, if there is a conversion that changes it. -/
def Constant.coerce (target : Ty) (c : Constant) : Constant :=
  ((c.node.coerce? target).bind (·.constant?)).getD c

/-- Converts an operand that is a constant. -/
def Expr.coerce (target? : Option Ty) (e : Expr) : Expr :=
  match target?, e with
  | some target, .constant c => .constant (c.coerce target)
  | _, e => e

namespace Checker

/-- The type and tree of an expression whose value is used. -/
def value (expr : Check (Ty × Expr)) : Check (Ty × Expr) := do
  let v ← expr
  if v.1.isVoid then throw (.semantic .voidValue) else pure v

/-- The type of a binary operation on operands of the given types. -/
def operands (op : BinOp) (leftTy rightTy : Ty) : Check Ty :=
  if (op.isArithmetic || op.isOrdering) && (leftTy.isStringOnly || rightTy.isStringOnly) then
    throw (.mistyped (.operands op leftTy rightTy))
  else pure (op.resultTy leftTy rightTy)

end Checker

open Checker

mutual

/-- Checks an expression, and yields its type and the converted tree. -/
def Expr.check : Expr → Check (Ty × Expr)
  | .constant c => pure (c.ty, .constant c)
  | .var name => do
    match (← get).varTy? name with
    | some ty => pure (ty, .var name)
    | none => throw (.undefined (.unassigned name))
  | .binary op left right => do
    let l ← value left.check
    let r ← value right.check
    let ty ← operands op l.1 r.1
    pure (ty, .binary op (l.2.coerce (operandTarget? op ty)) (r.2.coerce (operandTarget? op ty)))
  | .unary op operand => do
    let v ← value operand.check
    if op = .negate ∧ v.1.isStringOnly then throw (.mistyped .negatedString)
    else pure (op.resultTy v.1, .unary op v.2)
  | .call name args => do
    let vs ← Expr.checkArgs args
    let ty ← Checker.call name (vs.map (·.1))
    pure (ty, .call name (vs.map (·.2)))

/-- Checks the arguments of a call. -/
def Expr.checkArgs : List Expr → Check (List (Ty × Expr))
  | [] => pure []
  | e :: rest => do
    let v ← value e.check
    let vs ← Expr.checkArgs rest
    pure (v :: vs)

end

mutual

/-- Checks a statement, and yields the converted tree. -/
def Stmt.check : Stmt → Check Stmt
  | .assign target e => do
    let v ← value e.check
    assigned target v.1
    pure (.assign target v.2)
  | .expr e => do
    let v ← e.check
    pure (.expr v.2)
  | .ret none => do
    returned none
    pure (.ret none)
  | .ret (some e) => do
    let v ← value e.check
    returned (some v.1)
    pure (.ret (some v.2))
  | .block body => do
    let body ← Stmt.checkList body
    pure (.block body)
  | .ifElse cond thenBody none => do
    let c ← value cond.check
    let thenBody ← Stmt.checkList thenBody
    pure (.ifElse c.2 thenBody none)
  | .ifElse cond thenBody (some elseBody) => do
    let c ← value cond.check
    let thenBody ← Stmt.checkList thenBody
    let elseBody ← Stmt.checkList elseBody
    pure (.ifElse c.2 thenBody (some elseBody))
  | .whileLoop cond body => do
    let c ← value cond.check
    let body ← Stmt.checkList body
    pure (.whileLoop c.2 body)
  | .function name params declared body => do
    enter name declared
    let body ← Stmt.checkList body
    leave name declared
    pure (.function name params declared body)

/-- Checks the statements of a list. -/
def Stmt.checkList : List Stmt → Check (List Stmt)
  | [] => pure []
  | s :: rest => do
    let s ← s.check
    let rest ← Stmt.checkList rest
    pure (s :: rest)

end

/-- Declares a function. -/
def Stmt.hoist : Stmt → Check Unit
  | .function name params declared _ => declareFunction name params declared
  | _ => pure ()

/-! ## Two runs side by side -/

namespace Checker

variable {α β γ δ : Type}

/-- Taken from the same tables, the step on an arena fails as the step on a tree does, or both end
in the same tables, and what the two yield is related. -/
def Mirrors (a : Arena) (c : Checker) (m : Check α) (m' : Check β)
    (R : α → Arena → β → Prop) : Prop :=
  match m' c with
  | .ok y c' => ∃ x a', m { c with arena := a } = .ok x { c' with arena := a' } ∧ R x a' y
  | .error e _ => ∃ s, m { c with arena := a } = .error e s

/-- The step does not look at the arena. -/
def Blind (m : Check α) : Prop :=
  ∀ a c, Mirrors a c m m fun x a' y => x = y ∧ a' = a

namespace Mirrors

variable {a : Arena} {c : Checker}

theorem imp {m : Check α} {m' : Check β} {R S : α → Arena → β → Prop}
    (h : Mirrors a c m m' R) (himp : ∀ x a' y, R x a' y → S x a' y) : Mirrors a c m m' S := by
  unfold Mirrors at *
  split
  · rename_i y c' heq
    rw [heq] at h
    obtain ⟨x, a', hrun, hr⟩ := h
    exact ⟨x, a', hrun, himp x a' y hr⟩
  · rename_i e c' heq
    rw [heq] at h
    exact h

theorem bind {m : Check α} {m' : Check β} {f : α → Check γ} {f' : β → Check δ}
    {R : α → Arena → β → Prop} {S : γ → Arena → δ → Prop} (h : Mirrors a c m m' R)
    (hf : ∀ x a' y c', R x a' y → Mirrors a' c' (f x) (f' y) S) :
    Mirrors a c (m >>= f) (m' >>= f') S := by
  unfold Mirrors at h
  cases hrun' : m' c with
  | error e c' =>
    rw [hrun'] at h
    obtain ⟨s, hrun⟩ := h
    have hbind' : (m' >>= f') c = .error e c' := by simp only [Bind.bind, EStateM.bind, hrun']
    have hbind : (m >>= f) { c with arena := a } = .error e s := by
      simp only [Bind.bind, EStateM.bind, hrun]
    unfold Mirrors
    rw [hbind']
    exact ⟨s, hbind⟩
  | ok y c' =>
    rw [hrun'] at h
    obtain ⟨x, a', hrun, hr⟩ := h
    have hbind' : (m' >>= f') c = f' y c' := by simp only [Bind.bind, EStateM.bind, hrun']
    have hbind : (m >>= f) { c with arena := a } = f x { c' with arena := a' } := by
      simp only [Bind.bind, EStateM.bind, hrun]
    have hnext := hf x a' y c' hr
    unfold Mirrors at *
    rw [hbind', hbind]
    exact hnext

theorem bind_right {m : Check α} {m' : Check β} {f' : β → Check δ} {R : α → Arena → β → Prop}
    {S : α → Arena → δ → Prop} (h : Mirrors a c m m' R)
    (hf : ∀ x a' y c', R x a' y → Mirrors a' c' (Pure.pure x) (f' y) S) :
    Mirrors a c m (m' >>= f') S := by
  have hbind := h.bind hf
  rwa [bind_pure] at hbind

theorem pure {x : α} {y : β} {R : α → Arena → β → Prop} (h : R x a y) :
    Mirrors a c (Pure.pure x) (Pure.pure y) R :=
  ⟨x, a, rfl, h⟩

theorem throw (e : CompileError) (R : α → Arena → β → Prop) :
    Mirrors a c (MonadExcept.throw e : Check α) (MonadExcept.throw e : Check β) R :=
  ⟨_, rfl⟩

theorem ite [Decidable p] {m n : Check α} {m' n' : Check β} {R : α → Arena → β → Prop}
    (ht : p → Mirrors a c m m' R) (hf : ¬ p → Mirrors a c n n' R) :
    Mirrors a c (if p then m else n) (if p then m' else n') R := by
  split
  · exact ht ‹_›
  · exact hf ‹_›

/-- A look at the arena happens on one side only. -/
theorem get {f : Checker → Check α} {m' : Check β} {R : α → Arena → β → Prop}
    (h : Mirrors a c (f { c with arena := a }) m' R) : Mirrors a c (MonadState.get >>= f) m' R :=
  h

/-- A look at the tables happens on both sides. -/
theorem get_get {f : Checker → Check α} {f' : Checker → Check β} {R : α → Arena → β → Prop}
    (h : Mirrors a c (f { c with arena := a }) (f' c) R) :
    Mirrors a c (MonadState.get >>= f) (MonadState.get >>= f') R :=
  h

end Mirrors

/-! ## Steps that look at the tables only -/

/-- The step neither looks at the arena nor changes it, also where it fails. -/
def Passive (m : Check α) : Prop :=
  ∀ a c, m { c with arena := a } = match m c with
    | .ok x c' => .ok x { c' with arena := a }
    | .error e c' => .error e { c' with arena := a }

namespace Passive

theorem blind {m : Check α} (h : Passive m) : Blind m := by
  intro a c
  unfold Mirrors
  rw [h a c]
  cases m c with
  | ok x c' => exact ⟨x, a, rfl, rfl, rfl⟩
  | error e c' => exact ⟨_, rfl⟩

theorem pure (x : α) : Passive (Pure.pure x) := fun _ _ => rfl

theorem throw (e : CompileError) : Passive (MonadExcept.throw e : Check α) := fun _ _ => rfl

theorem modifyTable (f : SymbolTable → SymbolTable) : Passive (modifyTable f) := fun _ _ => rfl

theorem bind {m : Check α} {f : α → Check β} (hm : Passive m) (hf : ∀ x, Passive (f x)) :
    Passive (m >>= f) := by
  intro a c
  simp only [Bind.bind, EStateM.bind]
  rw [hm a c]
  cases m c with
  | ok x c' => exact hf x a c'
  | error e c' => rfl

theorem get {f : Checker → Check α} (hf : ∀ c, Passive (f c))
    (hsame : ∀ a c, f { c with arena := a } = f c) : Passive (MonadState.get >>= f) := by
  intro a c
  rw [get_bind, get_bind, hsame]
  exact hf c a c

theorem ite [Decidable p] {m m' : Check α} (ht : Passive m) (hf : Passive m') :
    Passive (if p then m else m') := by
  split
  · exact ht
  · exact hf

theorem forM {ι : Type} {f : ι → Check PUnit} (hf : ∀ i, Passive (f i)) :
    ∀ items : List ι, Passive (items.forM f)
  | [] => .pure _
  | i :: rest => (hf i).bind fun _ => forM hf rest

end Passive

theorem passive_call (name : String) (args : List Ty) : Passive (call name args) := by
  refine .get (fun c => ?_) fun _ _ => rfl
  split
  · exact .throw _
  · rename_i callee _
    have hdone : Passive (modifyTable (·.markCalled name) >>= fun _ => pure callee.callType) :=
      (Passive.modifyTable _).bind fun _ => .pure _
    refine .ite (.throw _) (.ite (.ite (.throw _) ?_) hdone)
    split
    · exact .throw _
    · exact hdone

theorem passive_assigned (name : String) (ty : Ty) : Passive (assigned name ty) := by
  refine .get (fun c => ?_) fun _ _ => rfl
  split
  · exact .modifyTable _
  · split
    · exact .modifyTable _
    · exact .throw _

theorem passive_returned (ty : Option Ty) : Passive (returned ty) := by
  refine .get (fun c => ?_) fun _ _ => rfl
  split
  · exact .pure _
  · refine .bind (fun _ _ => rfl) fun _ => ?_
    split
    · exact .ite (.throw _) (.ite (.pure _) (.throw _))
    · exact .ite (.pure _) (.throw _)
    · exact .modifyTable _

theorem passive_enter (name : String) (declared : Option Ty) : Passive (enter name declared) :=
  fun _ _ => rfl

theorem passive_leave (name : String) (declared : Option Ty) : Passive (leave name declared) := by
  refine .get (fun c => .bind (fun _ _ => rfl) fun _ => ?_) fun _ _ => rfl
  split
  · exact .ite (.throw _) (.pure _)
  · exact .modifyTable _

theorem passive_declareParam (function : String) (param : Param) :
    Passive (declareParam function param) := by
  refine .get (fun c => .ite (.throw _) ?_) fun _ _ => rfl
  split
  · exact .modifyTable _
  · exact .throw _

theorem passive_declareFunction (name : String) (params : List Param) (declared : Option Ty) :
    Passive (declareFunction name params declared) := by
  refine .get (fun c => ?_) fun _ _ => rfl
  split
  · exact .throw _
  · exact (Passive.modifyTable _).bind fun _ => .forM (passive_declareParam name) params

theorem passive_hoist (s : Stmt) : Passive s.hoist := by
  cases s with
  | function name params declared body => exact passive_declareFunction name params declared
  | _ => exact .pure _

/-! ## Expressions -/

/-- The expression at a place has been checked: the arena holds the converted tree, and has changed
inside the range of the tree only. -/
def CheckedExpr (a : Arena) (lo id : Nat) (ty : Ty) (a' : Arena) (v : Ty × Expr) : Prop :=
  v.1 = ty ∧ v.2.At a' lo id ∧ a.Differs (Slot.mk lo id).Has a'

theorem mirrors_used {m : Check Ty} {m' : Check (Ty × Expr)}
    (h : Mirrors a c m m' (CheckedExpr a lo id)) :
    Mirrors a c (used m) (value m') (CheckedExpr a lo id) := by
  refine h.bind fun ty a' v c' hv => ?_
  obtain ⟨rfl, hrest⟩ := hv
  exact .ite (fun _ => .throw _ _) fun _ => .pure ⟨rfl, hrest⟩

/-- Only constants are converted, and they become constants. -/
theorem constant_of_coerce? {n m : Node} {target : Ty} (h : n.coerce? target = some m) :
    ∃ c d : Constant, n = c.node ∧ m = d.node := by
  unfold Node.coerce? at h
  split at h
  · rename_i value
    split at h
    · exact ⟨.int value, .float _, rfl, (Option.some.inj h).symm⟩
    · split at h
      · exact ⟨.int value, .str _, rfl, (Option.some.inj h).symm⟩
      · cases h
  · rename_i value
    split at h
    · exact ⟨.float value, .str _, rfl, (Option.some.inj h).symm⟩
    · cases h
  · split at h
    · exact ⟨.null, .str _, rfl, (Option.some.inj h).symm⟩
    · cases h
  · cases h

theorem eq_constant_of_node (h : e.At a lo id) {c : Constant} (hn : a.node id = c.node) :
    e = .constant c := by
  cases e with
  | constant d => rw [Constant.node_injective (h.1.symm.trans hn)]
  | var name => rw [h.1] at hn; cases c <;> cases hn
  | binary op left right => obtain ⟨i, j, hn', _⟩ := h; rw [hn'] at hn; cases c <;> cases hn
  | unary op operand => obtain ⟨i, hn', _⟩ := h; rw [hn'] at hn; cases c <;> cases hn
  | call name args => obtain ⟨link, hn', _⟩ := h; rw [hn'] at hn; cases c <;> cases hn

/-- Converting the constant at a place converts the tree there. -/
theorem coerceAt_at (h : e.At a lo id) (target : Ty) :
    ∃ a' : Arena, (∀ c : Checker, coerceAt target id { c with arena := a } =
        .ok ⟨⟩ { c with arena := a' }) ∧
      (e.coerce (some target)).At a' lo id ∧ a.Differs (· = id) a' := by
  cases hc : (a.node id).coerce? target with
  | none =>
    refine ⟨a, fun s => ?_, ?_, .refl _ a⟩
    · simp only [coerceAt, modify_apply, hc]
    · have hsame : e.coerce (some target) = e := by
        cases e with
        | constant c =>
          rw [h.1] at hc
          simp only [Expr.coerce, Constant.coerce, hc, Option.bind_none, Option.getD_none]
        | _ => rfl
      rw [hsame]
      exact h
  | some node =>
    obtain ⟨c, d, hn, rfl⟩ := constant_of_coerce? hc
    have hlo := h.le
    have hsize := h.lt_size
    obtain rfl := eq_constant_of_node h hn
    rw [hn] at hc
    refine ⟨a.set id d.node, fun s => ?_, ⟨?_, hlo⟩, .set a id _⟩
    · simp only [coerceAt, modify_apply, hn, hc]
    · simp only [Constant.coerce, hc, Option.bind_some, Constant.constant?_node, Option.getD_some]
      rw [Arena.node_set, if_pos ⟨rfl, hsize⟩]

/-- The operands of a binary operation are converted where they stand. -/
theorem mirrors_binary {op : BinOp} {left right : Expr} {i j : Nat} (hl : left.At a lo i)
    (hr : right.At a (i + 1) j) (leftTy rightTy : Ty) :
    Mirrors a c (Checker.binary op i j leftTy rightTy) (operands op leftTy rightTy)
      fun ty a' ty' => ty = ty' ∧
        (left.coerce (operandTarget? op ty')).At a' lo i ∧
        (right.coerce (operandTarget? op ty')).At a' (i + 1) j ∧
        a.Differs (fun k => k = i ∨ k = j) a' := by
  have hli := hl.le
  have hrj := hr.le
  unfold Checker.binary operands
  refine .ite (fun _ => ⟨_, rfl⟩) fun _ => ?_
  dsimp only
  cases htarget : operandTarget? op (op.resultTy leftTy rightTy) with
  | none =>
    refine .pure ⟨rfl, ?_, ?_, .refl _ a⟩
    · rw [htarget]
      exact hl
    · rw [htarget]
      exact hr
  | some target =>
    obtain ⟨a1, hrun1, hl1, hd1⟩ := coerceAt_at hl target
    have hr1 : right.At a1 (i + 1) j := hr.of_differs hd1 fun k hk => by omega
    obtain ⟨a2, hrun2, hr2, hd2⟩ := coerceAt_at hr1 target
    refine ⟨op.resultTy leftTy rightTy, a2, ?_, rfl, ?_, ?_, ?_⟩
    · show (coerceAt target i >>= fun _ => coerceAt target j >>= fun _ => _)
        { c with arena := a } = _
      simp only [Bind.bind, EStateM.bind, hrun1, hrun2]
      rfl
    · rw [htarget]
      exact hl1.of_differs hd2 fun k hk => by omega
    · rw [htarget]
      exact hr2
    · exact (hd1.mono fun k hk => .inl hk).trans (hd2.mono fun k hk => .inr hk)

/-- The arguments of a call are checked one after the other, each in its slot. -/
theorem mirrors_checkArgs :
    ∀ {args : List Expr} {a : Arena} (c : Checker),
      List.Forall₂ (fun s e => e.At a s.lo s.id) slots args →
      slots.Pairwise Slot.Before → (∀ s ∈ slots, s.id < fuel) →
      (∀ e ∈ args, ∀ (a : Arena) (c : Checker) (lo id : Nat), e.At a lo id → id < fuel →
        Mirrors a c (expr fuel id) e.check (CheckedExpr a lo id)) →
      Mirrors a c ((slots.map (·.id)).mapM fun v => used (expr fuel v)) (Expr.checkArgs args)
        fun tys a' vs => vs.map (·.1) = tys ∧
          List.Forall₂ (fun s e => e.At a' s.lo s.id) slots (vs.map (·.2)) ∧
          a.Differs (fun i => ∃ s ∈ slots, s.Has i) a' := by
  induction slots with
  | nil =>
    intro args a c heach _ _ _
    cases heach
    exact .pure ⟨rfl, .nil, .refl _ a⟩
  | cons s slots ih =>
    intro args a c heach hpair hfuel hstep
    obtain ⟨hbefore, hpair⟩ := List.pairwise_cons.mp hpair
    cases heach with
    | @cons _ e _ args he hrest =>
      rw [List.map_cons, List.mapM_cons]
      have hfirst := hstep e (.head _) a c _ _ he (hfuel s (.head _))
      refine (mirrors_used hfirst).bind ?_
      rintro ty a1 v c1 ⟨rfl, hv, hd1⟩
      have hrest1 := local_expr.behind hrest hd1 hbefore
      refine (ih c1 hrest1 hpair (fun t ht => hfuel t (.tail s ht))
        (fun e he => hstep e (.tail _ he))).bind ?_
      rintro tys a2 vs c2 ⟨rfl, hvs, hd2⟩
      exact .pure ⟨rfl, local_expr.cons hv hd1 hvs hd2 hbefore⟩

/-- Checking the expression at a place mirrors checking its tree. -/
theorem mirrors_expr : ∀ (a : Arena) (c : Checker) (lo id : Nat),
    e.At a lo id → id < fuel → Mirrors a c (expr fuel id) e.check (CheckedExpr a lo id) := by
  induction e generalizing fuel with
  | constant k =>
    intro a c lo id h hfuel
    obtain ⟨fuel, rfl⟩ := exists_fuel hfuel
    refine .get ?_
    have hn := h.1
    dsimp only
    rw [hn]
    cases k <;> exact .pure ⟨rfl, h, .refl _ a⟩
  | var name =>
    intro a c lo id h hfuel
    obtain ⟨fuel, rfl⟩ := exists_fuel hfuel
    refine .get ?_
    dsimp only
    rw [h.1]
    refine .get_get ?_
    show Mirrors a c (match c.varTy? name with | some ty => _ | none => _) _ _
    cases c.varTy? name with
    | none => exact .throw _ _
    | some ty => exact .pure ⟨rfl, h, .refl _ a⟩
  | binary op left right ihl ihr =>
    intro a c lo id h hfuel
    obtain ⟨fuel, rfl⟩ := exists_fuel hfuel
    obtain ⟨i, j, hn, hl, hr, hj⟩ := h
    have hli := hl.le
    have hrj := hr.le
    refine .get ?_
    dsimp only
    rw [hn]
    refine (mirrors_used (ihl a c lo i hl (by omega))).bind ?_
    rintro _ a1 l c1 ⟨rfl, hl1, hd1⟩
    have hr1 := hr.behind hd1 (Nat.lt_succ_self i)
    refine (mirrors_used (ihr a1 c1 (i + 1) j hr1 (by omega))).bind ?_
    rintro _ a2 r c2 ⟨rfl, hr2, hd2⟩
    have hl2 := hl1.ahead hd2 (Nat.lt_succ_self i)
    refine (mirrors_binary hl2 hr2 l.1 r.1).bind_right ?_
    rintro ty a3 _ c3 ⟨rfl, hl3, hr3, hd3⟩
    have hd : a.Differs (Slot.mk lo j).Has a3 := by
      refine ((hd1.widen (Nat.le_refl lo) (by omega)).trans (hd2.widen (by omega)
        (Nat.le_refl j))).trans (hd3.mono ?_)
      rintro k (rfl | rfl)
      · exact ⟨hli, Nat.le_of_succ_le hrj⟩
      · exact ⟨Nat.le_trans hli (Nat.le_of_succ_le hrj), Nat.le_refl _⟩
    refine .pure ⟨rfl, ⟨i, j, ?_, hl3, hr3, hj⟩, hd.widen (Nat.le_refl lo) (by omega)⟩
    rw [hd.node_behind hj, hn]
  | unary op operand ih =>
    intro a c lo id h hfuel
    obtain ⟨fuel, rfl⟩ := exists_fuel hfuel
    obtain ⟨i, hn, ho, hi⟩ := h
    refine .get ?_
    dsimp only
    rw [hn]
    refine (mirrors_used (ih a c lo i ho (by omega))).bind ?_
    rintro _ a1 v c1 ⟨rfl, hv, hd⟩
    refine .ite (fun _ => ⟨_, rfl⟩) fun _ => ?_
    refine .pure ⟨rfl, ⟨i, ?_, hv, hi⟩, hd.widen (Nat.le_refl lo) (by omega)⟩
    rw [hd.node_behind hi, hn]
  | call name args ih =>
    intro a c lo id h hfuel
    obtain ⟨fuel, rfl⟩ := exists_fuel hfuel
    have hsize := h.lt_size
    obtain ⟨link, hn, hargs⟩ := h
    obtain ⟨slots, hlinks, heach⟩ := argsAt_iff.mp hargs
    have hbounds := hlinks.bounds
    refine .get ?_
    dsimp only
    rw [hn]
    refine .get ?_
    dsimp only
    rw [hlinks.arguments_eq (by omega)]
    have hfuels : ∀ s ∈ slots, s.id < fuel := fun s hs => by
      have := (hbounds s hs).2
      omega
    refine (mirrors_checkArgs c heach hlinks.pairwise hfuels ?_).bind ?_
    · exact fun e he a c lo id => ih e he a c lo id
    · rintro _ a1 vs c1 ⟨rfl, hvs, hd⟩
      refine ((passive_call name (vs.map (·.1))).blind a1 c1).bind_right ?_
      rintro ty _ _ c2 ⟨rfl, rfl⟩
      have hslots : ∀ k, (∃ s ∈ slots, s.Has k) → lo ≤ k ∧ k < id := by
        rintro k ⟨s, hs, hhas⟩
        have hb := hbounds s hs
        unfold Slot.Has at hhas
        omega
      refine .pure ⟨rfl, ⟨link, ?_, argsAt_iff.mpr ⟨slots, ?_, hvs⟩⟩, hd.mono fun k hk => ?_⟩
      · rw [hd.node_eq id fun hk => ?_, hn]
        exact Nat.lt_irrefl id (hslots id hk).2
      · exact hlinks.of_differs hd fun k hk _ _ => hk
      · exact ⟨(hslots k hk).1, Nat.le_of_lt (hslots k hk).2⟩

/-! ## Statements -/

/-- The statement at a place has been checked. -/
def CheckedStmt (a : Arena) (lo id : Nat) (_ : PUnit) (a' : Arena) (s : Stmt) : Prop :=
  s.At a' lo id ∧ a.Differs (Slot.mk lo id).Has a'

/-- The statement list at a place has been checked. -/
def CheckedList (a : Arena) (lo id : Nat) (_ : PUnit) (a' : Arena) (body : List Stmt) : Prop :=
  ListAt a' body none lo id ∧ a.Differs (Slot.mk lo id).Has a'

theorem mirrors_checkList :
    ∀ {body : List Stmt} {a : Arena} (c : Checker),
      List.Forall₂ (fun s t => t.At a s.lo s.id) slots body →
      slots.Pairwise Slot.Before → (∀ s ∈ slots, s.id < fuel) →
      (∀ t ∈ body, ∀ (a : Arena) (c : Checker) (lo id : Nat), t.At a lo id → id < fuel →
        Mirrors a c (stmt fuel id) t.check (CheckedStmt a lo id)) →
      Mirrors a c ((slots.map (·.id)).forM (stmt fuel)) (Stmt.checkList body)
        fun _ a' body' => List.Forall₂ (fun s t => t.At a' s.lo s.id) slots body' ∧
          a.Differs (fun i => ∃ s ∈ slots, s.Has i) a' := by
  induction slots with
  | nil =>
    intro body a c heach _ _ _
    cases heach
    exact .pure ⟨.nil, .refl _ a⟩
  | cons s slots ih =>
    intro body a c heach hpair hfuel hstep
    obtain ⟨hbefore, hpair⟩ := List.pairwise_cons.mp hpair
    cases heach with
    | @cons _ t _ body ht hrest =>
      have hfirst := hstep t (.head _) a c _ _ ht (hfuel s (.head _))
      refine Mirrors.bind hfirst ?_
      rintro _ a1 t' c1 ⟨ht', hd1⟩
      have hrest1 := local_stmt.behind hrest hd1 hbefore
      refine (ih c1 hrest1 hpair (fun u hu => hfuel u (.tail s hu))
        (fun u hu => hstep u (.tail _ hu))).bind_right ?_
      rintro _ a2 body' c2 ⟨hbody', hd2⟩
      exact .pure (local_stmt.cons ht' hd1 hbody' hd2 hbefore)

/-- Checking the statement at a place mirrors checking its tree. -/
def StmtMirrors (s : Stmt) : Prop :=
  ∀ {fuel : Nat} (a : Arena) (c : Checker) (lo id : Nat), s.At a lo id → id < fuel →
    Mirrors a c (stmt fuel id) s.check (CheckedStmt a lo id)

/-- Checking the list at a place mirrors checking its statements, if that holds of each of them. -/
theorem mirrors_list {body : List Stmt} (hstep : ∀ t ∈ body, StmtMirrors t)
    (h : ListAt a body none lo id) (hfuel : id < fuel) :
    Mirrors a c (stmt fuel id) (Stmt.checkList body) (CheckedList a lo id) := by
  have hsize := h.lt_size
  obtain ⟨prev, last, hn⟩ := h.isLink
  obtain ⟨slots, hlinks, heach⟩ := listAt_iff.mp h
  have hbounds := hlinks.bounds
  obtain ⟨fuel, rfl⟩ := exists_fuel hfuel
  have hfuels : ∀ s ∈ slots, s.id < fuel := fun s hs => by
    have := (hbounds s hs).2
    omega
  refine .get ?_
  dsimp only
  rw [hn]
  dsimp only
  rw [hlinks.statements_eq hsize]
  refine (mirrors_checkList c heach hlinks.pairwise hfuels
    fun t ht a c lo id => hstep t ht a c lo id).imp ?_
  rintro _ a' body' ⟨hbody', hd⟩
  refine ⟨listAt_iff.mpr ⟨slots, ?_, hbody'⟩, hd.mono ?_⟩
  · exact hlinks.of_differs hd fun k hk _ _ => hk
  · rintro k ⟨s, hs, hhas⟩
    have hb := hbounds s hs
    exact ⟨Nat.le_trans hb.1 hhas.1, Nat.le_trans hhas.2 (Nat.le_of_lt hb.2)⟩

/-- An expression that stands as a statement is checked for its effects only. -/
theorem stmt_expr (h : e.At a lo id) (fuel : Nat) (c : Checker) :
    stmt (fuel + 1) id { c with arena := a } =
      (expr (fuel + 1) id >>= fun _ => pure ⟨⟩) { c with arena := a } := by
  have hkind := h.kind_eq
  rw [stmt, get_bind]
  generalize a.node id = n at hkind ⊢
  cases n <;> first | rfl | cases hkind

/-- A statement of one value: the value is checked, and what is done with its type does not look at
the arena. -/
theorem mirrors_value {next : Ty → Check PUnit} {f : Expr → Stmt} {i : Nat} (he : e.At a lo i)
    (hi : i < id) (hfuel : i < fuel) (hnext : ∀ ty, Passive (next ty))
    (hf : ∀ {e' : Expr} {a' : Arena}, a'.node id = a.node id → e'.At a' lo i →
      (f e').At a' lo id) :
    Mirrors a c (used (expr fuel i) >>= next)
      (value e.check >>= fun v => next v.1 >>= fun _ => pure (f v.2)) (CheckedStmt a lo id) := by
  refine (mirrors_used (mirrors_expr a c lo i he hfuel)).bind ?_
  rintro _ a1 v c1 ⟨rfl, hv, hd⟩
  refine ((hnext v.1).blind a1 c1).bind_right ?_
  rintro _ _ _ c2 ⟨_, rfl⟩
  exact .pure ⟨hf (hd.node_behind hi) hv, hd.widen (Nat.le_refl lo) (Nat.le_of_lt hi)⟩

theorem mirrors_assign (target : String) (e : Expr) : StmtMirrors (.assign target e) := by
  intro fuel a c lo id h hfuel
  obtain ⟨i, hn, he, hi⟩ := h
  obtain ⟨fuel, rfl⟩ := exists_fuel hfuel
  refine .get ?_
  dsimp only
  rw [hn]
  exact mirrors_value (f := .assign target) he hi (by omega) (passive_assigned target)
    fun hn' he' => ⟨i, hn'.trans hn, he', hi⟩

theorem mirrors_ret (value : Option Expr) : StmtMirrors (.ret value) := by
  intro fuel a c lo id h hfuel
  obtain ⟨fuel, rfl⟩ := exists_fuel hfuel
  cases value with
  | none =>
    have hn := h.1
    refine .get ?_
    dsimp only
    rw [hn]
    refine Mirrors.bind_right ((passive_returned none).blind a c) ?_
    rintro _ _ _ c1 ⟨_, rfl⟩
    exact .pure ⟨h, .refl _ _⟩
  | some e =>
    obtain ⟨i, hn, he, hi⟩ := h
    refine .get ?_
    dsimp only
    rw [hn]
    dsimp only
    rw [Option.mapM_some, bind_map_left]
    exact mirrors_value (f := fun e => .ret (some e)) he hi (by omega)
      (fun ty => passive_returned (some ty)) fun hn' he' => ⟨i, hn'.trans hn, he', hi⟩

/-- A condition and the statements behind it. -/
theorem mirrors_guarded {rest : Check β} {f : Expr → List Stmt → Check γ}
    {R : β → Arena → γ → Prop} {body : List Stmt} {k i : Nat} (hbody : ∀ t ∈ body, StmtMirrors t)
    (hc : e.At a lo k) (hb : ListAt a body none (k + 1) i) (hfuel : i < fuel)
    (hrest : ∀ (cond : Expr) (body : List Stmt) (a' : Arena) (c' : Checker), cond.At a' lo k →
      ListAt a' body none (k + 1) i → a.Differs (Slot.mk lo i).Has a' →
      Mirrors a' c' rest (f cond body) R) :
    Mirrors a c (used (expr fuel k) >>= fun _ => stmt fuel i >>= fun _ => rest)
      (value e.check >>= fun v => Stmt.checkList body >>= fun body => f v.2 body) R := by
  have hle := hc.le
  have hlt := hb.le
  refine (mirrors_used (mirrors_expr a c lo k hc (by omega))).bind ?_
  rintro _ a1 v c1 ⟨rfl, hv, hd1⟩
  refine (mirrors_list hbody (hb.behind hd1 (Nat.lt_succ_self k)) hfuel).bind ?_
  rintro _ a2 body' c2 ⟨hb2, hd2⟩
  exact hrest v.2 body' a2 c2 (hv.ahead hd2 (Nat.lt_succ_self k)) hb2
    ((hd1.widen (Nat.le_refl lo) (by omega)).trans (hd2.widen (by omega) (Nat.le_refl i)))

theorem mirrors_ifElse {cond : Expr} {thenBody : List Stmt} {elseBody : Option (List Stmt)}
    (hthen : ∀ t ∈ thenBody, StmtMirrors t)
    (helse : ∀ body, elseBody = some body → ∀ t ∈ body, StmtMirrors t) :
    StmtMirrors (.ifElse cond thenBody elseBody) := by
  intro fuel a c lo id h hfuel
  obtain ⟨fuel, rfl⟩ := exists_fuel hfuel
  cases elseBody with
  | none =>
    obtain ⟨k, i, hn, hc, ht, hi⟩ := h
    refine .get ?_
    dsimp only
    rw [hn]
    have hlt : i < fuel := by omega
    refine mirrors_guarded (f := fun cond body => pure (Stmt.ifElse cond body none)) hthen hc ht hlt
      fun cond' body' a1 c1 hc1 ht1 hd => ?_
    exact .pure ⟨⟨k, i, (hd.node_behind hi).trans hn, hc1, ht1, hi⟩,
      hd.widen (Nat.le_refl lo) (by omega)⟩
  | some elseBody =>
    obtain ⟨k, i, j, hn, hc, ht, he, hj⟩ := h
    have hkle := hc.le
    have hile := ht.le
    have hjle := he.le
    refine .get ?_
    dsimp only
    rw [hn]
    have hlt : i < fuel := by omega
    refine mirrors_guarded (f := fun cond body => Stmt.checkList elseBody >>= fun elseBody =>
      pure (Stmt.ifElse cond body (some elseBody))) hthen hc ht hlt
      fun cond' body' a1 c1 hc1 ht1 hd1 => ?_
    have he1 := he.behind hd1 (Nat.lt_succ_self i)
    refine (mirrors_list (helse elseBody rfl) he1 (by omega)).bind_right ?_
    rintro _ a2 elseBody' c2 ⟨he2, hd2⟩
    have hd : a.Differs (Slot.mk lo j).Has a2 :=
      (hd1.widen (Nat.le_refl lo) (by omega)).trans (hd2.widen (by omega) (Nat.le_refl j))
    refine .pure ⟨⟨k, i, j, (hd.node_behind hj).trans hn, ?_, ?_, he2, hj⟩,
      hd.widen (Nat.le_refl lo) (by omega)⟩
    · exact hc1.ahead hd2 (by omega)
    · exact ht1.ahead hd2 (Nat.lt_succ_self i)

theorem mirrors_whileLoop {cond : Expr} {body : List Stmt} (hbody : ∀ t ∈ body, StmtMirrors t) :
    StmtMirrors (.whileLoop cond body) := by
  intro fuel a c lo id h hfuel
  obtain ⟨fuel, rfl⟩ := exists_fuel hfuel
  obtain ⟨k, i, hn, hc, hb, hi⟩ := h
  refine .get ?_
  dsimp only
  rw [hn]
  dsimp only
  rw [← bind_pure_unit (x := stmt fuel i)]
  have hlt : i < fuel := by omega
  refine mirrors_guarded (f := fun cond body => pure (Stmt.whileLoop cond body)) hbody hc hb hlt
    fun cond' body' a1 c1 hc1 hb1 hd => ?_
  exact .pure ⟨⟨k, i, (hd.node_behind hi).trans hn, hc1, hb1, hi⟩,
    hd.widen (Nat.le_refl lo) (by omega)⟩

theorem mirrors_function {name : String} {params : List Param} {declared : Option Ty}
    {body : List Stmt} (hbody : ∀ t ∈ body, StmtMirrors t) :
    StmtMirrors (.function name params declared body) := by
  intro fuel a c lo id h hfuel
  obtain ⟨fuel, rfl⟩ := exists_fuel hfuel
  obtain ⟨i, hn, hb, hi⟩ := h
  refine .get ?_
  dsimp only
  rw [hn]
  refine ((passive_enter name declared).blind a c).bind ?_
  rintro _ _ _ c1 ⟨_, rfl⟩
  refine (mirrors_list hbody hb (by omega)).bind ?_
  rintro _ a2 body' c2 ⟨hb2, hd⟩
  refine ((passive_leave name declared).blind a2 c2).bind_right ?_
  rintro _ _ _ c3 ⟨_, rfl⟩
  exact .pure ⟨⟨i, (hd.node_behind hi).trans hn, hb2, hi⟩, hd.widen (Nat.le_refl lo) (by omega)⟩

theorem mirrors_stmt (s : Stmt) : StmtMirrors s := by
  induction s with
  | assign target e => exact mirrors_assign target e
  | ret value => exact mirrors_ret value
  | ifElse cond thenBody elseBody iht ihe => exact mirrors_ifElse iht ihe
  | whileLoop cond body ih => exact mirrors_whileLoop ih
  | function name params declared body ih => exact mirrors_function ih
  | expr e =>
    intro fuel a c lo id h hfuel
    obtain ⟨fuel, rfl⟩ := exists_fuel hfuel
    unfold Mirrors
    rw [stmt_expr h]
    refine (mirrors_expr a c lo id h hfuel).bind ?_
    rintro _ a1 v c1 ⟨rfl, hv, hd⟩
    exact .pure ⟨hv, hd⟩
  | block body ih =>
    intro fuel a c lo id h hfuel
    refine (mirrors_list ih h hfuel).bind_right ?_
    rintro _ a1 body' c1 ⟨hb, hd⟩
    exact .pure ⟨hb, hd⟩

end Checker

end Ifj22
