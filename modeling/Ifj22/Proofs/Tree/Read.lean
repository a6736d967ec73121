import Ifj22.Proofs.Tree.Slot
import Ifj22.Typing.Infer
set_option autoImplicit false

/-!
# Tree: reading a tree off an arena

`Program.tree?` follows the places of a program and yields its tree, if the nodes form one.  Of an
arena that holds a tree it yields that tree (`Program.Holds.tree?_eq`), so an arena holds at most
one.  The type of an expression is a function of its tree as well (`Expr.At.infer_eq`).
-/

namespace Ifj22

variable {a : Arena} {e : Expr} {id lo : Nat} {body : List Stmt}

namespace Arena

/-- The expression at a place, followed `fuel` levels down. -/
def exprAt? (a : Arena) : Nat → NodeId → Option Expr
  | 0, _ => none
  | fuel + 1, id =>
    match a.node id with
    | .var name => some (.var name)
    | .binary op left right => do
      let left ← a.exprAt? fuel left
      let right ← a.exprAt? fuel right
      pure (.binary op left right)
    | .unary op operand => (a.exprAt? fuel operand).map (.unary op)
    | .call name args => ((a.arguments args).mapM (a.exprAt? fuel)).map (.call name)
    | node => node.constant?.map .constant

/-- The expression at a place. -/
def expr? (a : Arena) (id : NodeId) : Option Expr := a.exprAt? a.size id

/-- The statement list at a place, given how to read a statement. -/
def listWith? (a : Arena) (stmt : NodeId → Option Stmt) (id : NodeId) : Option (List Stmt) :=
  match a.node id with
  | .sequence _ _ => (a.statements id).mapM stmt
  | _ => none

/-- The statement at a place, followed `fuel` levels down. -/
def stmtAt? (a : Arena) : Nat → NodeId → Option Stmt
  | 0, _ => none
  | fuel + 1, id =>
    match a.node id with
    | .sequence _ _ => (a.listWith? (a.stmtAt? fuel) id).map .block
    | .assign target value => (a.expr? value).map (.assign target)
    | .ret none => some (.ret none)
    | .ret (some value) => (a.expr? value).map fun value => .ret (some value)
    | .ifElse cond thenBody none => do
      let cond ← a.expr? cond
      let thenBody ← a.listWith? (a.stmtAt? fuel) thenBody
      pure (.ifElse cond thenBody none)
    | .ifElse cond thenBody (some elseBody) => do
      let cond ← a.expr? cond
      let thenBody ← a.listWith? (a.stmtAt? fuel) thenBody
      let elseBody ← a.listWith? (a.stmtAt? fuel) elseBody
      pure (.ifElse cond thenBody (some elseBody))
    | .whileLoop cond body => do
      let cond ← a.expr? cond
      let body ← a.listWith? (a.stmtAt? fuel) body
      pure (.whileLoop cond body)
    | .function name params declared body =>
      (a.listWith? (a.stmtAt? fuel) body).map (.function name params declared)
    | _ => (a.expr? id).map .expr

end Arena

/-- The statements of a program, if its nodes form a tree. -/
def Program.tree? (p : Program) : Option (List Stmt) :=
  p.arena.listWith? (p.arena.stmtAt? p.arena.size) p.root

/-! ## An arena that holds a tree reads as that tree -/

/-- What can be read off every slot of a list can be read off the list. -/
theorem mapM_of_slots {α : Type} {read : Nat → Option α} {slots : List Slot} {members : List α}
    (h : List.Forall₂ (fun s x => read s.id = some x) slots members) :
    (slots.map (·.id)).mapM read = some members := by
  induction h with
  | nil => rfl
  | cons h _ ih => simp [List.mapM_cons, h, ih]

theorem Expr.At.exprAt?_eq (h : e.At a lo id) (fuel : Nat) (hfuel : id < fuel) :
    a.exprAt? fuel id = some e := by
  induction fuel generalizing e lo id with
  | zero => cases hfuel
  | succ fuel ih =>
    cases e with
    | constant c =>
      have hn := h.1
      cases c <;> simp [Arena.exprAt?, hn, Constant.node, Node.constant?]
    | var name => simp [Arena.exprAt?, h.1]
    | binary op left right =>
      obtain ⟨i, j, hn, hl, hr, hj⟩ := h
      have := hr.le
      simp [Arena.exprAt?, hn, ih hl (by omega), ih hr (by omega)]
    | unary op operand =>
      obtain ⟨i, hn, ho, hi⟩ := h
      simp [Arena.exprAt?, hn, ih ho (by omega)]
    | call name args =>
      have hsize := h.lt_size
      obtain ⟨link, hn, hargs⟩ := h
      obtain ⟨slots, hlinks, heach⟩ := argsAt_iff.mp hargs
      have hread : List.Forall₂ (fun s e => a.exprAt? fuel s.id = some e) slots args := by
        refine List.forall₂_iff_get.mpr ⟨heach.length_eq, fun k h1 h2 => ?_⟩
        have := hlinks.bounds _ (List.get_mem slots ⟨k, h1⟩)
        exact ih ((List.forall₂_iff_get.mp heach).2 k h1 h2) (by omega)
      simp only [Arena.exprAt?, hn]
      rw [hlinks.arguments_eq (by omega), mapM_of_slots hread]
      rfl

theorem Expr.At.expr?_eq (h : e.At a lo id) :
    a.expr? id = some e := h.exprAt?_eq a.size h.lt_size

theorem ListAt.listWith?_eq (h : ListAt a body none lo id) (read : Nat → Option Stmt)
    (hread : ∀ {s : Stmt} {lo' i : Nat}, s.At a lo' i → i < id → read i = some s) :
    a.listWith? read id = some body := by
  obtain ⟨prev, stmt, hn⟩ := h.isLink
  obtain ⟨slots, hlinks, heach⟩ := listAt_iff.mp h
  have hslots : List.Forall₂ (fun s t => read s.id = some t) slots body := by
    refine List.forall₂_iff_get.mpr ⟨heach.length_eq, fun k h1 h2 => ?_⟩
    have hlt := hlinks.bounds _ (List.get_mem slots ⟨k, h1⟩)
    exact hread ((List.forall₂_iff_get.mp heach).2 k h1 h2) hlt.2
  simp only [Arena.listWith?, hn]
  rw [hlinks.statements_eq h.lt_size, mapM_of_slots hslots]

theorem Stmt.At.stmtAt?_eq {s : Stmt} (h : s.At a lo id) (fuel : Nat) (hfuel : id < fuel) :
    a.stmtAt? fuel id = some s := by
  induction fuel generalizing s lo id with
  | zero => cases hfuel
  | succ fuel ih =>
    -- the lists in the statement lie below its root
    have hlist {body : List Stmt} {lo i : Nat} (hat : ListAt a body none lo i) (hi : i ≤ id) :
        a.listWith? (a.stmtAt? fuel) i = some body :=
      hat.listWith?_eq _ fun hs hlt => ih hs (by omega)
    cases s with
    | assign target value =>
      obtain ⟨i, hn, hv, _⟩ := h
      simp [Arena.stmtAt?, hn, hv.expr?_eq]
    | expr value =>
      have hkind := h.kind_eq
      rw [Arena.stmtAt?, Expr.At.expr?_eq (e := value) h]
      generalize a.node id = n at hkind ⊢
      cases n <;> first | rfl | cases hkind
    | ret value =>
      cases value with
      | none => simp [Arena.stmtAt?, h.1]
      | some value =>
        obtain ⟨i, hn, hv, _⟩ := h
        simp [Arena.stmtAt?, hn, hv.expr?_eq]
    | block body =>
      obtain ⟨prev, stmt, hn⟩ := ListAt.isLink h
      simp [Arena.stmtAt?, hn, hlist h (Nat.le_refl id)]
    | ifElse cond thenBody elseBody =>
      cases elseBody with
      | none =>
        obtain ⟨c, i, hn, hc, ht, hi⟩ := h
        simp [Arena.stmtAt?, hn, hc.expr?_eq, hlist ht (by omega)]
      | some elseBody =>
        obtain ⟨c, i, j, hn, hc, ht, he, hj⟩ := h
        have hij := he.le
        simp [Arena.stmtAt?, hn, hc.expr?_eq, hlist ht (by omega), hlist he (by omega)]
    | whileLoop cond body =>
      obtain ⟨c, i, hn, hc, hb, hi⟩ := h
      simp [Arena.stmtAt?, hn, hc.expr?_eq, hlist hb (by omega)]
    | function name params declared body =>
      obtain ⟨i, hn, hb, hi⟩ := h
      simp [Arena.stmtAt?, hn, hlist hb (by omega)]

/-- A program that holds statements reads as those statements. -/
theorem Program.Holds.tree?_eq {p : Program} (h : p.Holds body) : p.tree? = some body := by
  have hsize := ListAt.lt_size h
  exact ListAt.listWith?_eq h _ fun hat hi => hat.stmtAt?_eq _ (Nat.lt_trans hi hsize)

/-! ## Types -/

/-- The type of a constant. -/
def Constant.ty : Constant → Ty
  | .int _ => .int
  | .float _ => .float
  | .str _ => .string
  | .null => .null

/-- The type of an expression. -/
def Expr.infer (env : TypeEnv) : Expr → Ty
  | .constant c => c.ty
  | .var name => env.varTy name
  | .binary op left right => op.resultTy (left.infer env) (right.infer env)
  | .unary op operand => op.resultTy (operand.infer env)
  | .call name _ => env.callTy name

theorem Expr.At.inferAt_eq (h : e.At a lo id) (env : TypeEnv) (fuel : Nat) (hfuel : id < fuel) :
    a.inferAt env fuel id = e.infer env := by
  induction fuel generalizing e lo id with
  | zero => cases hfuel
  | succ fuel ih =>
    cases e with
    | constant c =>
      have hn := h.1
      cases c <;> simp [Arena.inferAt, hn, Constant.node, Expr.infer, Constant.ty]
    | var name => simp [Arena.inferAt, h.1, Expr.infer]
    | binary op left right =>
      obtain ⟨i, j, hn, hl, hr, hj⟩ := h
      have := hr.le
      simp [Arena.inferAt, hn, Expr.infer, ih hl (by omega), ih hr (by omega)]
    | unary op operand =>
      obtain ⟨i, hn, ho, hi⟩ := h
      simp [Arena.inferAt, hn, Expr.infer, ih ho (by omega)]
    | call name args =>
      obtain ⟨link, hn, _⟩ := h
      simp [Arena.inferAt, hn, Expr.infer]

/-- The type of an expression in an arena is the type of its tree. -/
theorem Expr.At.infer_eq (h : e.At a lo id) (env : TypeEnv) :
    a.infer env id = e.infer env := h.inferAt_eq env a.size h.lt_size

end Ifj22
