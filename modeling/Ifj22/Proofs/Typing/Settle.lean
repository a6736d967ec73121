import Ifj22.Proofs.Tree.Read
import Ifj22.Typing.Settle
set_option autoImplicit false

/-!
# Typing: settling over trees

`Stmt.settle` is one round of settling over a tree, the same as a round over the arena that holds it,
and the same as one over the list of its assignments and returns.
-/

namespace Ifj22

variable {a : Arena} {body : List Stmt} {lo : Nat}

/-! ## Rounds over a tree -/

open SymbolTable

mutual

/-- One round over a statement. -/
def Stmt.settle : Option SettleScope → Stmt → StateM SymbolTable Bool
  | scope, .assign target value => do
    let ty := value.infer (TypeEnv.ofScope (← get) (scope.map (·.name)))
    match scope with
    | some f => widenLocal f.name target ty
    | none => widenSymbol target ty
  | _, .expr _ => pure false
  | none, .ret _ => pure false
  | some f, .ret value =>
    if f.inferred then do
      let ty := (value.map (Expr.infer (TypeEnv.ofScope (← get) (some f.name)))).getD .null
      widenSymbol f.name ty
    else pure false
  | scope, .block body => Stmt.settleList scope body
  | scope, .ifElse _ thenBody none => Stmt.settleList scope thenBody
  | scope, .ifElse _ thenBody (some elseBody) => do
    let first ← Stmt.settleList scope thenBody
    let others ← Stmt.settleList scope elseBody
    pure (first || others)
  | scope, .whileLoop _ body => Stmt.settleList scope body
  | _, .function name _ declared body => Stmt.settleList (some ⟨name, declared.isNone⟩) body

/-- One round over the statements of a list. -/
def Stmt.settleList : Option SettleScope → List Stmt → StateM SymbolTable Bool
  | _, [] => pure false
  | scope, s :: rest => do
    let first ← s.settle scope
    let others ← Stmt.settleList scope rest
    pure (first || others)

end

/-- Rounds over the statements of a program until one changes nothing, at most `fuel` of them. -/
def Stmt.settleRounds (body : List Stmt) : Nat → SymbolTable → SymbolTable
  | 0, t => t
  | fuel + 1, t =>
    let (changed, t) := (Stmt.settleList none body).run t
    if changed then settleRounds body fuel t else t

/-! ## Stores -/

/-- A statement whose value a round adds to a type, with the function that it stands in. -/
inductive Store where
  | assign (scope : Option SettleScope) (target : String) (value : Expr)
  | ret (scope : Option SettleScope) (value : Option Expr)

def Store.scope : Store → Option SettleScope
  | .assign scope .. | .ret scope _ => scope

def Store.stmt : Store → Stmt
  | .assign _ target value => .assign target value
  | .ret _ value => .ret value

def Store.settle (u : Store) : StateM SymbolTable Bool := u.stmt.settle u.scope

mutual

/-- The stores of a statement, in the order of a round. -/
def Stmt.stores : Option SettleScope → Stmt → List Store
  | scope, .assign target value => [.assign scope target value]
  | _, .expr _ => []
  | scope, .ret value => [.ret scope value]
  | scope, .block body => Stmt.storesOf scope body
  | scope, .ifElse _ thenBody none => Stmt.storesOf scope thenBody
  | scope, .ifElse _ thenBody (some elseBody) =>
    Stmt.storesOf scope thenBody ++ Stmt.storesOf scope elseBody
  | scope, .whileLoop _ body => Stmt.storesOf scope body
  | _, .function name _ declared body => Stmt.storesOf (some ⟨name, declared.isNone⟩) body

def Stmt.storesOf : Option SettleScope → List Stmt → List Store
  | _, [] => []
  | scope, s :: rest => s.stores scope ++ Stmt.storesOf scope rest

end

namespace Stmt

variable {scope : Option SettleScope} {s : Stmt} {P : Store → Prop}

theorem forall_storesOf :
    (∀ u ∈ storesOf scope body, P u) ↔ ∀ s ∈ body, ∀ u ∈ s.stores scope, P u := by
  induction body with
  | nil => simp [storesOf]
  | cons s rest ih => rw [storesOf, List.forall_mem_append, ih, List.forall_mem_cons]

theorem forall_stores_ifElse {cond : Expr} {thenBody : List Stmt} {elseBody : Option (List Stmt)} :
    (∀ u ∈ (ifElse cond thenBody elseBody).stores scope, P u) ↔
      (∀ s ∈ thenBody, ∀ u ∈ s.stores scope, P u) ∧
        ∀ body, elseBody = some body → ∀ s ∈ body, ∀ u ∈ s.stores scope, P u := by
  cases elseBody with
  | none => simp [stores, forall_storesOf]
  | some elseBody =>
    rw [stores, List.forall_mem_append, forall_storesOf, forall_storesOf]
    simp

theorem anyChange_append (us vs : List Store) : anyChange Store.settle (us ++ vs) = (do
    let first ← anyChange Store.settle us
    let others ← anyChange Store.settle vs
    pure (first || others)) := by
  induction us with
  | nil => simp only [List.nil_append, anyChange, pure_bind, Bool.false_or, bind_pure]
  | cons u us ih => simp only [List.cons_append, anyChange, ih, bind_assoc, pure_bind, Bool.or_assoc]

theorem anyChange_singleton (u : Store) : anyChange Store.settle [u] = u.settle := by
  simp [anyChange]

mutual

/-- A round over a statement is one over its stores. -/
theorem settle_eq_stores (scope : Option SettleScope) :
    ∀ s : Stmt, s.settle scope = anyChange Store.settle (s.stores scope)
  | .assign target value => (anyChange_singleton (.assign scope target value)).symm
  | .expr _ => by rw [Stmt.settle, stores, anyChange]
  | .ret value => (anyChange_singleton (.ret scope value)).symm
  | .block body => settleList_eq_stores scope body
  | .ifElse _ thenBody none => settleList_eq_stores scope thenBody
  | .ifElse _ thenBody (some elseBody) => by
    rw [Stmt.settle, stores, anyChange_append, settleList_eq_stores, settleList_eq_stores]
  | .whileLoop _ body => settleList_eq_stores scope body
  | .function _ _ _ body => settleList_eq_stores _ body

theorem settleList_eq_stores (scope : Option SettleScope) :
    ∀ body : List Stmt, settleList scope body = anyChange Store.settle (storesOf scope body)
  | [] => rfl
  | s :: rest => by
    rw [settleList, storesOf, anyChange_append, settle_eq_stores, settleList_eq_stores]

end

end Stmt

/-! ## Rounds over an arena -/

theorem settleList_of_slots {scope : Option SettleScope} {fuel : Nat} {slots : List Slot}
    (heach : List.Forall₂ (fun s t => t.At a s.lo s.id) slots body)
    (hfuel : ∀ s ∈ slots, s.id < fuel) (hstep : ∀ t ∈ body, ∀ lo id, t.At a lo id → id < fuel →
      settleAt a scope fuel id = t.settle scope) :
    anyChange (settleAt a scope fuel) (slots.map (·.id)) = Stmt.settleList scope body := by
  induction heach with
  | nil => rfl
  | @cons s t slots body ht _ ih =>
    have hfirst := hstep t (.head _) _ _ ht (hfuel s (.head _))
    have hrest := ih (fun u hu => hfuel u (.tail s hu)) fun u hu => hstep u (.tail t hu)
    rw [List.map_cons, anyChange, Stmt.settleList, hfirst, hrest]

/-- A round over the list at a place is a round over its statements, if that holds of each. -/
theorem settleAt_list (scope : Option SettleScope) {fuel : Nat} {id : Nat}
    (h : ListAt a body none lo id) (hfuel : id < fuel)
    (hstep : ∀ t ∈ body, ∀ fuel lo id, t.At a lo id → id < fuel →
      settleAt a scope fuel id = t.settle scope) :
    settleAt a scope fuel id = Stmt.settleList scope body := by
  have hsize := h.lt_size
  obtain ⟨prev, last, hn⟩ := h.isLink
  obtain ⟨slots, hlinks, heach⟩ := listAt_iff.mp h
  obtain ⟨fuel, rfl⟩ := exists_fuel hfuel
  rw [settleAt, hn]
  dsimp only
  rw [hlinks.statements_eq hsize]
  refine settleList_of_slots heach (fun s hs => ?_) fun t ht => hstep t ht fuel
  have := (hlinks.bounds s hs).2
  omega

/-- A round over the statement at a place is a round over its tree. -/
theorem settleAt_eq {s : Stmt} : ∀ {scope : Option SettleScope} (fuel lo id : Nat),
    s.At a lo id → id < fuel → settleAt a scope fuel id = s.settle scope := by
  induction s with
  | assign target e =>
    intro scope fuel lo id h hfuel
    obtain ⟨i, hn, he, hi⟩ := h
    obtain ⟨fuel, rfl⟩ := exists_fuel hfuel
    rw [settleAt, hn, Stmt.settle]
    cases scope <;> simp only [he.infer_eq]
  | expr e =>
    intro scope fuel lo id h hfuel
    obtain ⟨fuel, rfl⟩ := exists_fuel hfuel
    have hkind := h.kind_eq
    rw [settleAt, Stmt.settle]
    generalize a.node id = n at hkind ⊢
    cases n <;> first | rfl | cases hkind
  | ret value =>
    intro scope fuel lo id h hfuel
    obtain ⟨fuel, rfl⟩ := exists_fuel hfuel
    cases value with
    | none =>
      rw [settleAt, h.1]
      cases scope with
      | none => rw [Stmt.settle]
      | some f =>
        rw [Stmt.settle]
        rfl
    | some e =>
      obtain ⟨i, hn, he, hi⟩ := h
      rw [settleAt, hn]
      cases scope with
      | none => rw [Stmt.settle]
      | some f =>
        rw [Stmt.settle]
        simp only [Option.map_some, he.infer_eq]
  | block body ih =>
    intro scope fuel lo id h hfuel
    exact settleAt_list _ h hfuel fun t ht => ih t ht
  | ifElse cond thenBody elseBody iht ihe =>
    intro scope fuel lo id h hfuel
    obtain ⟨fuel, rfl⟩ := exists_fuel hfuel
    cases elseBody with
    | none =>
      obtain ⟨k, i, hn, _, ht, hi⟩ := h
      have hthen := settleAt_list scope ht (by omega : i < fuel) fun t ht => iht t ht
      rw [settleAt, hn, Stmt.settle]
      simp only [Option.toList_none, anyChange, hthen, pure_bind, Bool.or_false, bind_pure]
    | some elseBody =>
      obtain ⟨k, i, j, hn, _, ht, he, hj⟩ := h
      have hile := he.le
      have hthen := settleAt_list scope ht (by omega : i < fuel) fun t ht => iht t ht
      have helse := settleAt_list scope he (by omega : j < fuel)
        fun t ht => ihe elseBody rfl t ht
      rw [settleAt, hn, Stmt.settle]
      simp only [Option.toList_some, anyChange, hthen, helse, pure_bind, Bool.or_false, bind_pure]
  | whileLoop cond body ih =>
    intro scope fuel lo id h hfuel
    obtain ⟨fuel, rfl⟩ := exists_fuel hfuel
    obtain ⟨k, i, hn, _, hb, hi⟩ := h
    rw [settleAt, hn, Stmt.settle]
    exact settleAt_list _ hb (by omega) fun t ht => ih t ht
  | function name params declared body ih =>
    intro scope fuel lo id h hfuel
    obtain ⟨fuel, rfl⟩ := exists_fuel hfuel
    obtain ⟨i, hn, hb, hi⟩ := h
    rw [settleAt, hn, Stmt.settle]
    exact settleAt_list _ hb (by omega) fun t ht => ih t ht

/-- A round over an arena is a round over its statements. -/
theorem settleRound_eq {root : NodeId} (h : ListAt a body none lo root) :
    settleRound a root = Stmt.settleList none body :=
  settleAt_list _ h h.lt_size fun _ _ => settleAt_eq

/-- Settling over an arena is settling over its statements. -/
theorem settle_eq {root : NodeId} (h : ListAt a body none lo root) (t : SymbolTable) :
    t.settle a root = Stmt.settleRounds body (6 * t.symbolCount + 1) t := by
  have hrounds : ∀ (fuel : Nat) (t : SymbolTable),
      SymbolTable.settleRounds a root fuel t = Stmt.settleRounds body fuel t := by
    intro fuel
    induction fuel with
    | zero => exact fun _ => rfl
    | succ fuel ih =>
      intro t
      rw [SymbolTable.settleRounds, Stmt.settleRounds, settleRound_eq h]
      cases (Stmt.settleList none body).run t
      simp only [ih]
  exact hrounds _ t

end Ifj22
