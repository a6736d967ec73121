import Ifj22.Proofs.Typing.Program
import Ifj22.Proofs.Typing.Settled
set_option autoImplicit false

/-!
# Typing: the steps of the walk

What a step of the checker does when it succeeds.  Checking an expression only notes which functions
have been called, and finds the type that `infer` gives under the tables of that moment.  The types
in the tables are those of values, except that a function may be void or not yet known; `Valued`
says so, and every step of the walk keeps it.
-/

namespace Ifj22

variable {v : Ty × Expr} {ty : Ty} {name x : String} {u : Unit} {declared : Option Ty}
  {t t' : SymbolTable} {scope : Option String} {e : Expr} {s : Symbol (Option LocalTable)}
  {body : List Stmt}

/-! ## Steps that succeed -/

namespace Checker

variable {c c' : Checker}

theorem value_eq_ok {m : Check (Ty × Expr)} (h : value m c = .ok v c') :
    m c = .ok v c' ∧ v.1 ≠ .void := by
  obtain ⟨v', c1, hm, h⟩ := bind_eq_ok.mp h
  split at h
  · cases h
  · rename_i hvoid
    cases h
    exact ⟨hm, by simpa [Ty.isVoid] using hvoid⟩

theorem operands_eq_ok {op : BinOp} {left right : Ty} (h : operands op left right c = .ok ty c') :
    c' = c ∧ ty = op.resultTy left right ∧
      (op.isArithmetic = true → left.isStringOnly = false ∧ right.isStringOnly = false) := by
  unfold operands at h
  split at h
  · cases h
  · rename_i hstring
    cases h
    refine ⟨rfl, rfl, fun hop => ?_⟩
    simpa [hop] using hstring

theorem call_eq_ok {args : List Ty} (h : call name args c = .ok ty c') :
    c' = { c with table := c.table.markCalled name } ∧
      ∃ callee, c.table.find? name = some callee ∧ ty = callee.callType := by
  have hmeets : Meets (call name args) c (fun _ _ => True) fun ty c' =>
      c' = { c with table := c.table.markCalled name } ∧
        ∃ callee, c.table.find? name = some callee ∧ ty = callee.callType := by
    unfold call
    rw [meets_bind, meets_get]
    cases hfind : c.table.find? name with
    | none => exact trivial
    | some callee =>
      dsimp only
      refine meets_ite (fun _ => trivial) fun _ => ?_
      refine meets_ite (fun _ => ?_) fun _ => ⟨rfl, callee, rfl, rfl⟩
      refine meets_ite (fun _ => trivial) fun _ => ?_
      cases badArgument? 1 args callee.params with
      | none => exact ⟨rfl, callee, rfl, rfl⟩
      | some bad => exact trivial
  exact hmeets.of_ok h

/-- An assignment widens the type of its variable in the scope of the walk. -/
theorem assigned_eq_ok (h : assigned name ty c = .ok u c') :
    c'.enclosing = c.enclosing ∧
      (c.scope = none ∧ c'.table = c.table.declare name ty ∨
        ∃ f, c.scope = some f ∧ c.table.declareLocal? f name ty = some c'.table) := by
  unfold assigned at h
  obtain ⟨_, _, hget, h⟩ := bind_eq_ok.mp h
  cases hget
  unfold scope
  cases henc : c.enclosing with
  | none =>
    rw [henc] at h
    cases h
    exact ⟨henc, .inl ⟨rfl, rfl⟩⟩
  | some f =>
    rw [henc] at h
    dsimp only at h
    cases hdeclare : c.table.declareLocal? f.name name ty with
    | none =>
      rw [hdeclare] at h
      cases h
    | some t =>
      rw [hdeclare] at h
      cases h
      exact ⟨henc, .inr ⟨f.name, rfl, hdeclare⟩⟩

/-- A return widens the type of the function that the walk is in, unless it is declared. -/
theorem returned_eq_ok {ty : Option Ty} (h : returned ty c = .ok u c') :
    c'.enclosing = c.enclosing.map (fun f => { f with returned := true }) ∧
      c'.table = match c.enclosing with
        | some ⟨name, none, _⟩ => c.table.includeTy name (ty.getD .null)
        | _ => c.table := by
  unfold returned at h
  obtain ⟨_, _, hget, h⟩ := bind_eq_ok.mp h
  cases hget
  cases henc : c.enclosing with
  | none =>
    rw [henc] at h
    cases h
    exact ⟨henc, rfl⟩
  | some f =>
    rw [henc] at h
    obtain ⟨_, c1, hmodify, h⟩ := bind_eq_ok.mp h
    cases hmodify
    obtain ⟨name, declared, seen⟩ := f
    cases declared with
    | none =>
      cases h
      exact ⟨rfl, rfl⟩
    | some declared =>
      cases ty with
      | none =>
        dsimp only at h
        split at h
        · cases h
          exact ⟨rfl, rfl⟩
        · cases h
      | some got =>
        dsimp only at h
        split at h
        · cases h
        · split at h
          · cases h
            exact ⟨rfl, rfl⟩
          · cases h

/-- Leaving a function without a declared type makes its type null if it is still empty. -/
theorem leave_eq_ok (h : leave name declared c = .ok u c') :
    c'.enclosing = none ∧ c'.table = match declared with
      | some _ => c.table
      | none => c.table.modify name fun s => if s.ty.isEmpty then { s with ty := .null } else s := by
  unfold leave at h
  obtain ⟨_, _, hget, h⟩ := bind_eq_ok.mp h
  cases hget
  obtain ⟨_, _, hmodify, h⟩ := bind_eq_ok.mp h
  cases hmodify
  cases declared with
  | none =>
    cases h
    exact ⟨rfl, rfl⟩
  | some ty =>
    dsimp only at h
    split at h
    · cases h
    · cases h
      exact ⟨rfl, rfl⟩

/-! ## Expressions -/

theorem varTy?_eq (c : Checker) (x : String) : c.varTy? x = c.table.varTy? c.scope x := by
  unfold Checker.varTy? Checker.scope
  cases c.enclosing <;> rfl

theorem scope_eq (h : c'.enclosing = c.enclosing) : c'.scope = c.scope := by
  unfold scope
  rw [h]

end Checker

namespace SymbolTable

theorem var_of_varTy? (h : t.varTy? scope x = some ty) : (t.vocabulary scope).var x := by
  cases scope with
  | none =>
    obtain ⟨s, hs, _⟩ := Option.map_eq_some_iff.mp h
    exact ⟨s, hs⟩
  | some f =>
    obtain ⟨s, hs, _⟩ := Option.map_eq_some_iff.mp h
    exact ⟨s, hs⟩

theorem varTy_ofScope (h : t.varTy? scope x = some ty) :
    (TypeEnv.ofScope t scope).varTy x = ty := by
  obtain ⟨ty', hty', hinfer⟩ := varTy_of_var (var_of_varTy? h)
  rw [hinfer]
  exact Option.some.inj (hty'.symm.trans h)

end SymbolTable

/-- The types of the environment where the walk is. -/
def Checker.env (c : Checker) : TypeEnv := TypeEnv.ofScope c.table c.scope

/-- The walk is where it was, and the tables know the same types. -/
structure Checker.Stays (c c' : Checker) : Prop where
  enclosing : c'.enclosing = c.enclosing
  agrees : c.table.Agrees c'.table

namespace Checker.Stays

variable {c c' c'' : Checker}

theorem refl (c : Checker) : c.Stays c := ⟨rfl, .refl _⟩

theorem trans (h1 : c.Stays c') (h2 : c'.Stays c'') : c.Stays c'' :=
  ⟨h2.enclosing.trans h1.enclosing, h1.agrees.trans h2.agrees⟩

theorem env (h : c.Stays c') : c'.env = c.env := by
  unfold Checker.env
  rw [scope_eq h.enclosing, h.agrees.ofScope]

end Checker.Stays

open Checker

/-! ## Walks that succeed -/

/-- The walk has passed the expressions, whose names are spelled as the lexer spells them, and found
their types and converted trees. -/
inductive Expr.Walked : Checker → List Expr → List (Ty × Expr) → Checker → Prop
  | nil (c : Checker) : Walked c [] [] c
  | cons {c c1 c' : Checker} {e : Expr} {rest : List Expr} {v : Ty × Expr} {vs : List (Ty × Expr)}
    (h : Walked c [e] [v] c1) (hvoid : v.1 ≠ .void) (hrest : Walked c1 rest vs c') :
    Walked c (e :: rest) (v :: vs) c'
  | constant (c : Checker) (k : Constant) : Walked c [.constant k] [(k.ty, .constant k)] c
  | var {c : Checker} {x : String} {ty : Ty} (hx : IsVarName x.toList)
    (hty : c.table.varTy? c.scope x = some ty) : Walked c [.var x] [(ty, .var x)] c
  | binary {c c1 c' : Checker} {op : BinOp} {left right : Expr} {l r : Ty × Expr}
    (hl : Walked c [left] [l] c1) (hr : Walked c1 [right] [r] c')
    (hvoid : l.1 ≠ .void ∧ r.1 ≠ .void)
    (hstring : op.isArithmetic = true → l.1.isStringOnly = false ∧ r.1.isStringOnly = false) :
    Walked c [.binary op left right] [(op.resultTy l.1 r.1, .binary op
      (l.2.coerce (operandTarget? op (op.resultTy l.1 r.1)))
      (r.2.coerce (operandTarget? op (op.resultTy l.1 r.1))))] c'
  | unary {c c' : Checker} {op : UnaryOp} {operand : Expr} {v : Ty × Expr}
    (h : Walked c [operand] [v] c') (hvoid : v.1 ≠ .void)
    (hstring : op = .negate → v.1.isStringOnly = false) :
    Walked c [.unary op operand] [(op.resultTy v.1, .unary op v.2)] c'
  | call {c c1 c' : Checker} {name : String} {args : List Expr} {vs : List (Ty × Expr)} {ty : Ty}
    (hargs : Walked c args vs c1) (hcall : Checker.call name (vs.map (·.1)) c1 = .ok ty c') :
    Walked c [.call name args] [(ty, .call name (vs.map (·.2)))] c'

theorem Expr.walkedAll {args : List Expr} (hstep : ∀ e ∈ args, ∀ {c c' : Checker} {v : Ty × Expr},
      e.check c = .ok v c' → Expr.Walked c [e] [v] c') :
    ∀ {c c' : Checker} {vs : List (Ty × Expr)}, Expr.checkArgs args c = .ok vs c' →
      Expr.Walked c args vs c' := by
  induction args with
  | nil =>
    intro c c' vs h
    cases h
    exact .nil c
  | cons e rest ih =>
    intro c c' vs h
    obtain ⟨v, c1, hv, h⟩ := bind_eq_ok.mp h
    obtain ⟨_, c2, hrest, h⟩ := bind_eq_ok.mp h
    cases h
    obtain ⟨hcheck, hvoid⟩ := value_eq_ok hv
    exact .cons (hstep e (.head _) hcheck) hvoid
      (ih (fun e he => hstep e (.tail _ he)) hrest)

/-- A check of an expression that succeeds is a walk over it. -/
theorem Expr.walked (hspelled : e.Over .spelled) : ∀ {c c' : Checker} {v : Ty × Expr},
    e.check c = .ok v c' → Expr.Walked c [e] [v] c' := by
  induction hspelled with
  | constant k =>
    intro c c' v h
    cases h
    exact .constant c k
  | @var x hx =>
    intro c c' v h
    obtain ⟨_, _, ⟨⟩, h⟩ := bind_eq_ok.mp h
    cases hty : c.varTy? x with
    | none =>
      rw [hty] at h
      cases h
    | some ty =>
      rw [hty] at h
      cases h
      exact .var hx (c.varTy?_eq x ▸ hty)
  | binary _ _ ihl ihr =>
    intro c c' v h
    obtain ⟨l, c1, hl, h⟩ := bind_eq_ok.mp h
    obtain ⟨r, c2, hr, h⟩ := bind_eq_ok.mp h
    obtain ⟨ty, c3, hop, h⟩ := bind_eq_ok.mp h
    cases h
    obtain ⟨hl, hvoid⟩ := value_eq_ok hl
    obtain ⟨hr, hvoid'⟩ := value_eq_ok hr
    obtain ⟨rfl, rfl, hstring⟩ := operands_eq_ok hop
    exact .binary (ihl hl) (ihr hr) ⟨hvoid, hvoid'⟩ hstring
  | unary _ ih =>
    intro c c' v h
    obtain ⟨o, c1, ho, h⟩ := bind_eq_ok.mp h
    obtain ⟨ho, hvoid⟩ := value_eq_ok ho
    split at h
    · cases h
    · rename_i hstring
      cases h
      exact .unary (ih ho) hvoid (by simpa using hstring)
  | call _ _ ih =>
    intro c c' v h
    obtain ⟨vs, c1, hargs, h⟩ := bind_eq_ok.mp h
    obtain ⟨ty, c2, hcall, h⟩ := bind_eq_ok.mp h
    cases h
    exact .call (Expr.walkedAll ih hargs) hcall

/-- A call is walked over as its arguments, and then called. -/
theorem Expr.Walked.of_call {c c' : Checker} {args : List Expr}
    (h : Expr.Walked c [.call name args] [v] c') :
    ∃ vs c1 ty, Expr.Walked c args vs c1 ∧ Checker.call name (vs.map (·.1)) c1 = .ok ty c' ∧
      v = (ty, .call name (vs.map (·.2))) := by
  generalize hes : [Expr.call name args] = es, hvs : [v] = vs at h
  induction h with
  | call hargs hcall =>
    cases hes
    cases hvs
    exact ⟨_, _, _, hargs, hcall, rfl⟩
  | cons _ _ hrest ih =>
    cases hes
    cases hvs
    cases hrest
    exact ih rfl rfl
  | _ => cases hes

/-- The walk has passed the statement and converted it; a list stands as the block of its
statements. -/
inductive Stmt.Walked : Checker → Stmt → Stmt → Checker → Prop
  | assign {c c1 c' : Checker} {x : String} {e : Expr} {v : Ty × Expr} (hx : IsVarName x.toList)
    (he : Expr.Walked c [e] [v] c1) (hvoid : v.1 ≠ .void) (h : assigned x v.1 c1 = .ok () c') :
    Walked c (.assign x e) (.assign x v.2) c'
  | expr {c c' : Checker} {e : Expr} {v : Ty × Expr} (he : Expr.Walked c [e] [v] c') :
    Walked c (.expr e) (.expr v.2) c'
  | retNone {c c' : Checker} (h : returned none c = .ok () c') :
    Walked c (.ret none) (.ret none) c'
  | ret {c c1 c' : Checker} {e : Expr} {v : Ty × Expr} (he : Expr.Walked c [e] [v] c1)
    (hvoid : v.1 ≠ .void) (h : returned (some v.1) c1 = .ok () c') :
    Walked c (.ret (some e)) (.ret (some v.2)) c'
  | nil (c : Checker) : Walked c (.block []) (.block []) c
  | cons {c c1 c' : Checker} {s s' : Stmt} {rest rest' : List Stmt} (h : Walked c s s' c1)
    (hrest : Walked c1 (.block rest) (.block rest') c') :
    Walked c (.block (s :: rest)) (.block (s' :: rest')) c'
  | ifThen {c c1 c' : Checker} {e : Expr} {v : Ty × Expr} {body body' : List Stmt}
    (he : Expr.Walked c [e] [v] c1) (h : Walked c1 (.block body) (.block body') c') :
    Walked c (.ifElse e body none) (.ifElse v.2 body' none) c'
  | ifElse {c c1 c2 c' : Checker} {e : Expr} {v : Ty × Expr} {body body' other other' : List Stmt}
    (he : Expr.Walked c [e] [v] c1) (h : Walked c1 (.block body) (.block body') c2)
    (hother : Walked c2 (.block other) (.block other') c') :
    Walked c (.ifElse e body (some other)) (.ifElse v.2 body' (some other')) c'
  | whileLoop {c c1 c' : Checker} {e : Expr} {v : Ty × Expr} {body body' : List Stmt}
    (he : Expr.Walked c [e] [v] c1) (h : Walked c1 (.block body) (.block body') c') :
    Walked c (.whileLoop e body) (.whileLoop v.2 body') c'

theorem Stmt.walkedAll (hstep : ∀ s ∈ body, ∀ {c c' : Checker} {s' : Stmt},
      s.check c = .ok s' c' → Stmt.Walked c s s' c') :
    ∀ {c c' : Checker} {body' : List Stmt}, Stmt.checkList body c = .ok body' c' →
      Stmt.Walked c (.block body) (.block body') c' := by
  induction body with
  | nil =>
    intro c c' body' h
    cases h
    exact .nil c
  | cons s rest ih =>
    intro c c' body' h
    obtain ⟨s', c1, hs, h⟩ := bind_eq_ok.mp h
    obtain ⟨rest', c2, hrest, h⟩ := bind_eq_ok.mp h
    cases h
    exact .cons (hstep s (.head _) hs) (ih (fun u hu => hstep u (.tail s hu)) hrest)

/-- A check of a statement that succeeds is a walk over it. -/
theorem Stmt.walked {s : Stmt} (hspelled : s.Over .spelled) : ∀ {c c' : Checker} {s' : Stmt},
    s.check c = .ok s' c' → Stmt.Walked c s s' c' := by
  induction hspelled with
  | assign hx he =>
    intro c c' s' h
    obtain ⟨v, c1, hv, h⟩ := bind_eq_ok.mp h
    obtain ⟨⟨⟩, c2, hassigned, h⟩ := bind_eq_ok.mp h
    cases h
    obtain ⟨hcheck, hvoid⟩ := value_eq_ok hv
    exact .assign hx (Expr.walked he hcheck) hvoid hassigned
  | expr he =>
    intro c c' s' h
    obtain ⟨v, c1, hv, h⟩ := bind_eq_ok.mp h
    cases h
    exact .expr (Expr.walked he hv)
  | @ret value he =>
    intro c c' s' h
    cases value with
    | none =>
      obtain ⟨⟨⟩, c1, hreturned, h⟩ := bind_eq_ok.mp h
      cases h
      exact .retNone hreturned
    | some e =>
      obtain ⟨v, c1, hv, h⟩ := bind_eq_ok.mp h
      obtain ⟨⟨⟩, c2, hreturned, h⟩ := bind_eq_ok.mp h
      cases h
      obtain ⟨hcheck, hvoid⟩ := value_eq_ok hv
      exact .ret (Expr.walked (he e rfl) hcheck) hvoid hreturned
  | block _ ih =>
    intro c c' s' h
    obtain ⟨body', c1, hbody, h⟩ := bind_eq_ok.mp h
    cases h
    exact Stmt.walkedAll ih hbody
  | @ifElse cond thenBody elseBody he _ _ iht ihe =>
    intro c c' s' h
    cases elseBody with
    | none =>
      obtain ⟨v, c1, hv, h⟩ := bind_eq_ok.mp h
      obtain ⟨then', c2, hthen, h⟩ := bind_eq_ok.mp h
      cases h
      exact .ifThen (Expr.walked he (value_eq_ok hv).1) (Stmt.walkedAll iht hthen)
    | some elseBody =>
      obtain ⟨v, c1, hv, h⟩ := bind_eq_ok.mp h
      obtain ⟨then', c2, hthen, h⟩ := bind_eq_ok.mp h
      obtain ⟨else', c3, helse, h⟩ := bind_eq_ok.mp h
      cases h
      exact .ifElse (Expr.walked he (value_eq_ok hv).1) (Stmt.walkedAll iht hthen)
        (Stmt.walkedAll (ihe elseBody rfl) helse)
  | whileLoop he _ ih =>
    intro c c' s' h
    obtain ⟨v, c1, hv, h⟩ := bind_eq_ok.mp h
    obtain ⟨body', c2, hbody, h⟩ := bind_eq_ok.mp h
    cases h
    exact .whileLoop (Expr.walked he (value_eq_ok hv).1) (Stmt.walkedAll ih hbody)

variable {c c' : Checker} {es : List Expr} {vs : List (Ty × Expr)}

/-- The body of a function is walked over between entering and leaving it. -/
theorem Stmt.walked_function {params : List Param} {s' : Stmt}
    (hspelled : ∀ s ∈ body, s.Over .spelled)
    (h : (Stmt.function name params declared body).check c = .ok s' c') :
    ∃ body' c1, s' = .function name params declared body' ∧
      Stmt.Walked { c with enclosing := some ⟨name, declared, false⟩ } (.block body) (.block body')
        c1 ∧ leave name declared c1 = .ok () c' := by
  obtain ⟨_, _, ⟨⟩, h⟩ := bind_eq_ok.mp h
  obtain ⟨body', c1, hbody, h⟩ := bind_eq_ok.mp h
  obtain ⟨⟨⟩, c2, hleave, h⟩ := bind_eq_ok.mp h
  cases h
  exact ⟨body', c1, rfl, Stmt.walkedAll (fun s hs => Stmt.walked (hspelled s hs)) hbody, hleave⟩

/-! ## Expressions -/

namespace Expr.Walked

/-- Checking expressions changes no type, and finds the types that the tables give them. -/
theorem stays (h : Expr.Walked c es vs c') :
    c.Stays c' ∧ c.table.Grows c'.table ∧ vs.map (·.1) = es.map (Expr.infer c.env) := by
  induction h with
  | nil | constant => exact ⟨.refl _, .refl _, rfl⟩
  | var _ hty =>
    exact ⟨.refl _, .refl _, congrArg (fun ty => [ty]) (SymbolTable.varTy_ofScope hty).symm⟩
  | cons _ _ _ ih ihrest =>
    obtain ⟨hstays, hgrows, hty⟩ := ih
    obtain ⟨hstays', hgrows', htys⟩ := ihrest
    rw [hstays.env] at htys
    exact ⟨hstays.trans hstays', hgrows.trans hgrows',
      congrArg₂ List.cons (List.cons.inj hty).1 htys⟩
  | @binary _ _ _ op _ _ _ _ _ _ _ _ ihl ihr =>
    obtain ⟨hstays, hgrows, hl⟩ := ihl
    obtain ⟨hstays', hgrows', hr⟩ := ihr
    rw [hstays.env] at hr
    exact ⟨hstays.trans hstays', hgrows.trans hgrows',
      congrArg₂ (fun a b => [op.resultTy a b]) (List.cons.inj hl).1 (List.cons.inj hr).1⟩
  | @unary _ _ op _ _ _ _ _ ih =>
    obtain ⟨hstays, hgrows, hv⟩ := ih
    exact ⟨hstays, hgrows, congrArg (fun a => [op.resultTy a]) (List.cons.inj hv).1⟩
  | @call c c1 c' name _ _ _ _ hcall ih =>
    obtain ⟨hstays, hgrows, _⟩ := ih
    obtain ⟨rfl, callee, hcallee, rfl⟩ := call_eq_ok hcall
    refine ⟨hstays.trans ⟨rfl, SymbolTable.agrees_markCalled _ _⟩,
      hgrows.trans (SymbolTable.grows_markCalled _ _), ?_⟩
    show [callee.callType] = [c.env.callTy name]
    rw [← hstays.env, Checker.env, SymbolTable.callTy_ofScope, SymbolTable.callTy, hcallee]
    rfl

theorem onward (h : Expr.Walked c es vs c') : c.Onward c' :=
  ⟨h.stays.2.1, scope_eq h.stays.1.enclosing⟩

theorem infer (h : Expr.Walked c [e] [v] c') : v.1 = e.infer c.env := (List.cons.inj h.stays.2.2).1

/-- The tables know the names of the expressions by then. -/
theorem known (h : Expr.Walked c es vs c') : ∀ e ∈ es, e.Over c'.vocabulary := by
  induction h with
  | nil => exact nofun
  | constant _ k => exact List.forall_mem_singleton.mpr (.constant k)
  | var _ hty => exact List.forall_mem_singleton.mpr (.var (SymbolTable.var_of_varTy? hty))
  | cons _ _ hrest ih ihrest =>
    exact List.forall_mem_cons.mpr ⟨hrest.onward.expr (List.forall_mem_singleton.mp ih), ihrest⟩
  | binary _ hr _ _ ihl ihr =>
    rw [List.forall_mem_singleton] at ihl ihr ⊢
    exact .binary (hr.onward.expr ihl) ihr
  | unary _ _ _ ih =>
    rw [List.forall_mem_singleton] at ih ⊢
    exact .unary ih
  | call hargs hcall ih =>
    obtain ⟨hon, hcallee⟩ := (checks_call _ _).of_ok hcall
    rw [hargs.stays.2.2, List.length_map] at hcallee
    exact List.forall_mem_singleton.mpr (.call hcallee fun e he => hon.expr (ih e he))

end Expr.Walked

/-! ## Types of values -/

namespace Ty

theorem isValue_int : int.IsValue := ⟨by decide, by decide⟩

theorem isValue_float : float.IsValue := ⟨by decide, by decide⟩

theorem isValue_string : string.IsValue := ⟨by decide, by decide⟩

theorem isValue_null : null.IsValue := ⟨by decide, by decide⟩

theorem isValue_any : any.IsValue := ⟨by decide, by decide⟩

/-- A sum, difference or product is a number. -/
theorem arithmetic_cases (a b : Ty) :
    a.arithmetic b = .int ∨ a.arithmetic b = .float ∨ a.arithmetic b = .int ∪ .float := by
  simp only [arithmetic]
  generalize (a.numericKinds.contains int && b.numericKinds.contains int) = both
  generalize (a.numericKinds ∪ b.numericKinds).contains float = either
  cases both <;> cases either <;> decide

theorem isValue_arithmetic (a b : Ty) : (a.arithmetic b).IsValue := by
  obtain h | h | h := arithmetic_cases a b <;> rw [h] <;> exact ⟨by decide, by decide⟩

theorem isValue_binary (op : BinOp) (a b : Ty) : (op.resultTy a b).IsValue := by
  cases op with
  | div => exact isValue_float
  | concat => exact isValue_string
  | add | sub | mul => exact isValue_arithmetic a b
  | _ => exact isValue_int

theorem isValue_unary (op : UnaryOp) (a : Ty) : (op.resultTy a).IsValue := by
  cases op with
  | negate => exact isValue_arithmetic _ a
  | not => exact isValue_int

theorem isValue_constant (k : Constant) : k.ty.IsValue := by
  cases k with
  | int => exact isValue_int
  | float => exact isValue_float
  | str => exact isValue_string
  | null => exact isValue_null

/-- Whether a single kind is in a union. -/
theorem contains_union {kind : Ty} {i : Nat} (h : ∀ a : Ty, a.contains kind = a.bits.getLsbD i)
    (a b : Ty) : (a ∪ b).contains kind = (a.contains kind || b.contains kind) := by
  simp only [h, union_def, BitVec.getLsbD_or]

theorem contains_void (a : Ty) : a.contains void = a.bits.getLsbD 4 := by
  obtain ⟨bits⟩ := a
  revert bits
  decide

theorem contains_void_union (a b : Ty) :
    (a ∪ b).contains void = (a.contains void || b.contains void) := contains_union contains_void a b

theorem eq_never_of_subset {a : Ty} (h : a.subset never = true) : a = never := by
  rw [subset_iff, union_def, show never.bits = 0#6 from rfl, BitVec.or_zero] at h
  exact h

theorem union_ne_never (a : Ty) {b : Ty} (hb : b ≠ never) : a ∪ b ≠ never := fun hnever =>
  hb (eq_never_of_subset (hnever ▸ subset_union_right a b))

theorem isValue_union {a b : Ty} (ha : a.contains void = false) (hb : b.IsValue) :
    (a ∪ b).IsValue :=
  ⟨union_ne_never a hb.1, by rw [contains_void_union, ha, hb.2]; rfl⟩

end Ty

/-! ## Widening one entry -/

namespace SymbolTable

/-- The type of one name of a scope has been widened, and no other type has changed. -/
def Widens (scope : Option String) (name : String) (ty : Ty) (t t' : SymbolTable) : Prop :=
  ∀ sc x, t'.varTy? sc x = if sc = scope ∧ x = name then
    some ((t.varTy? scope name).getD .never ∪ ty) else t.varTy? sc x

theorem varTy?_none (t : SymbolTable) (x : String) :
    t.varTy? none x = (Table.find? t x).map (·.ty) := rfl

theorem varTy?_some_eq {f : String} (h : t'.locals? f = t.locals? f) (x : String) :
    t'.varTy? (some f) x = t.varTy? (some f) x := by
  simp only [varTy?, local?, h]

theorem widens_declare (t : SymbolTable) (name : String) (ty : Ty) :
    t.Widens none name ty (Table.declare t name ty) := by
  intro sc x
  cases sc with
  | none =>
    show (Table.find? (Table.declare t name ty) x).map (·.ty) = _
    rw [Table.find?_declare]
    by_cases hx : x = name
    · rw [if_pos hx, if_pos ⟨rfl, hx⟩, varTy?]
      cases t.find? name <;> rfl
    · rw [if_neg hx, if_neg fun h => hx h.2]
      rfl
  | some f =>
    rw [if_neg fun h => by cases h.1]
    refine varTy?_some_eq ?_ x
    unfold locals?
    rw [Table.find?_declare]
    by_cases hf : f = name
    · rw [if_pos hf, hf]
      cases t.find? name <;> rfl
    · rw [if_neg hf]

theorem widens_includeTy (hs : t.find? name = some s) (ty : Ty) :
    t.Widens none name ty (Table.includeTy t name ty) := by
  intro sc x
  have hfind : ∀ x, Table.find? (Table.includeTy t name ty) x =
      if x = name then (t.find? x).map fun s => { s with ty := s.ty ∪ ty } else t.find? x :=
    Table.find?_modify t name fun _ => rfl
  cases sc with
  | none =>
    show (Table.find? (Table.includeTy t name ty) x).map (·.ty) = _
    rw [hfind]
    by_cases hx : x = name
    · rw [if_pos hx, if_pos ⟨rfl, hx⟩, varTy?, hx, hs]
      rfl
    · rw [if_neg hx, if_neg fun h => hx h.2]
      rfl
  | some f =>
    rw [if_neg fun h => by cases h.1]
    refine varTy?_some_eq ?_ x
    unfold locals?
    rw [hfind]
    by_cases hf : f = name
    · rw [if_pos hf, hf, hs]
      rfl
    · rw [if_neg hf]

theorem varTy?_modifyLocals? {function : String} {f : LocalTable → LocalTable}
    (h : t.modifyLocals? function f = some t') (x : String) :
    t'.varTy? none x = t.varTy? none x := by
  obtain ⟨_, rfl⟩ := modifyLocals?_eq_some h
  simp only [varTy?_none]
  refine Table.map_find?_modify t function ?_ ?_ x
  · exact fun _ => rfl
  · exact fun _ => rfl

theorem widens_declareLocal? {function : String} (h : t.declareLocal? function name ty = some t') :
    t.Widens (some function) name ty t' := by
  intro sc x
  cases sc with
  | none =>
    rw [if_neg fun h => by cases h.1]
    exact varTy?_modifyLocals? h x
  | some f =>
    by_cases hf : f = function
    · subst hf
      have hlocal := congrArg (Option.map Prod.fst) (local?_declareLocal? h x)
      by_cases hx : x = name
      · rw [if_pos ⟨rfl, hx⟩]
        simpa [varTy?, hx, Option.map_map, Function.comp_def] using hlocal
      · rw [if_neg fun h => hx h.2]
        simpa [varTy?, hx, Option.map_map, Function.comp_def] using hlocal
    · rw [if_neg fun h => hf (Option.some.inj h.1)]
      simp only [varTy?, local?_modifyLocals? h, if_neg hf]

end SymbolTable

/-! ## Tables of values -/

/-- Variables have the types of values.  A function whose name is in `V` is void; the type of any
other one has no void in it, but may still be empty. -/
structure SymbolTable.Valued (V : String → Prop) (t : SymbolTable) : Prop where
  names : ∀ {x}, V x → ¬ IsVarName x.toList
  void : ∀ {x ty}, t.varTy? none x = some ty → V x → ty = .void
  plain : ∀ {x ty}, t.varTy? none x = some ty → ¬ V x → ty.contains .void = false
  var : ∀ {scope x ty}, IsVarName x.toList → t.varTy? scope x = some ty → ty.IsValue

namespace SymbolTable.Valued

variable {V : String → Prop} {t t' : SymbolTable}

theorem of_agrees (h : t.Valued V) (hsame : t.Agrees t') : t'.Valued V where
  names := h.names
  void hty := h.void (by rwa [hsame.varTy?] at hty)
  plain hty := h.plain (by rwa [hsame.varTy?] at hty)
  var hx hty := h.var hx (by rwa [hsame.varTy?] at hty)

/-- Widening an entry that is no void function by the type of a value. -/
theorem of_widens (h : t.Valued V) (hwidens : t.Widens scope name ty t') (hty : ty.IsValue)
    (hname : scope = none → ¬ V name) : t'.Valued V where
  names := h.names
  void {x ty'} hfind hv := by
    rw [hwidens] at hfind
    split at hfind
    · rename_i hsame
      exact absurd (hsame.2 ▸ hv) (hname hsame.1.symm)
    · exact h.void hfind hv
  plain {x ty'} hfind hv := by
    rw [hwidens] at hfind
    split at hfind
    · rename_i hsame
      obtain ⟨rfl, rfl⟩ := hsame
      rw [← Option.some.inj hfind]
      refine (Ty.isValue_union ?_ hty).2
      cases hold : t.varTy? none x with
      | none => decide
      | some old => exact h.plain hold hv
    · exact h.plain hfind hv
  var {sc x ty'} hx hfind := by
    rw [hwidens] at hfind
    split at hfind
    · rename_i hsame
      obtain ⟨rfl, rfl⟩ := hsame
      rw [← Option.some.inj hfind]
      refine Ty.isValue_union ?_ hty
      cases hold : t.varTy? sc x with
      | none => decide
      | some old => exact (h.var hx hold).2
    · exact h.var hx hfind

end SymbolTable.Valued

/-- What has been checked has the type of a value, or none. -/
theorem Expr.Walked.isValue {V : String → Prop} (h : Expr.Walked c es vs c')
    (hvalued : c.table.Valued V) : ∀ v ∈ vs, v.1 = .void ∨ v.1.IsValue := by
  induction h with
  | nil => exact nofun
  | constant _ k => exact List.forall_mem_singleton.mpr (.inr (Ty.isValue_constant k))
  | var hx hty => exact List.forall_mem_singleton.mpr (.inr (hvalued.var hx hty))
  | cons h _ _ ih ihrest =>
    exact List.forall_mem_cons.mpr ⟨ih hvalued _ (.head _),
      ihrest (hvalued.of_agrees h.stays.1.agrees)⟩
  | binary => exact List.forall_mem_singleton.mpr (.inr (Ty.isValue_binary ..))
  | unary => exact List.forall_mem_singleton.mpr (.inr (Ty.isValue_unary ..))
  | @call _ c1 _ name _ _ _ hargs hcall _ =>
    refine List.forall_mem_singleton.mpr ?_
    obtain ⟨_, callee, hcallee, rfl⟩ := call_eq_ok hcall
    have hvalued := hvalued.of_agrees hargs.stays.1.agrees
    have hty : c1.table.varTy? none name = some callee.ty := by
      rw [SymbolTable.varTy?_none, hcallee]
      rfl
    unfold Symbol.callType
    split
    · exact .inr Ty.isValue_any
    · rename_i hempty
      by_cases hv : V name
      · exact .inl (hvalued.void hty hv)
      · exact .inr ⟨by simpa [Ty.isEmpty] using hempty, hvalued.plain hty hv⟩

/-! ### After the functions have been declared -/

theorem not_isVarName_of_isName {l : List Char} (h : IsName l) : ¬ IsVarName l := by
  cases l with
  | nil => exact fun hv => hv
  | cons c rest =>
    rintro ⟨rfl, _⟩
    exact absurd h.1 (by decide)

namespace SymbolTable

theorem builtin_of_find? (h : builtins.find? x = some s) :
    ∃ b ∈ builtinList, b.name = x ∧ s = b.symbol := by
  obtain ⟨b, hb, rfl⟩ := List.mem_map.mp (List.mem_of_find?_eq_some h)
  exact ⟨b, hb, Table.find?_name h, rfl⟩

/-- What is known of a name once the functions have been declared: it is a function of the program
or of the language. -/
theorem Hoists.find?_cases (h : builtins.Hoists t body) (hs : t.find? x = some s) :
    (∃ params declared b, Stmt.function x params declared b ∈ body ∧ s.ty = declared.getD .never) ∨
      ∃ b ∈ builtinList, b.name = x ∧ s = b.symbol := by
  by_cases hmem : x ∈ body.filterMap Stmt.functionName?
  · obtain ⟨stmt, hstmt, hname⟩ := List.mem_filterMap.mp hmem
    cases stmt with
    | function name params declared b =>
      obtain rfl := Option.some.inj hname
      obtain ⟨s', hs', _, _, _, hty, _⟩ := (h.head name params declared b hstmt).symbol
      obtain rfl := Option.some.inj (hs'.symm.trans hs)
      exact .inl ⟨params, declared, b, hstmt, hty⟩
    | _ => cases hname
  · rw [h.others x hmem] at hs
    exact .inr (builtin_of_find? hs)

/-- The table before the walk: only functions are in it. -/
theorem Hoists.not_isVarName (h : builtins.Hoists t body)
    (hspelled : ∀ s ∈ body, s.OverTop .spelled) (hs : t.find? x = some s) :
    ¬ IsVarName x.toList := by
  have hbuiltin : ∀ b ∈ builtinList, b.name.toList.head? ≠ some '$' := by decide
  obtain ⟨_, _, _, hmem, _⟩ | ⟨b, hb, rfl, _⟩ := h.find?_cases hs
  · exact not_isVarName_of_isName (hspelled _ hmem).head.1
  · intro hvar
    refine hbuiltin b hb ?_
    cases hl : b.name.toList with
    | nil =>
      rw [hl] at hvar
      exact hvar.elim
    | cons c rest =>
      rw [hl] at hvar
      rw [hvar.1]
      rfl

/-- Before the walk the parameters have types of values. -/
theorem Hoists.valued (h : builtins.Hoists t body) (hspelled : ∀ s ∈ body, s.OverTop .spelled) :
    t.Valued fun x => t.varTy? none x = some .void := by
  have hhead : ∀ {name params declared b}, Stmt.function name params declared b ∈ body →
      Lexicon.spelled.head name params declared := fun hmem => (hspelled _ hmem).head
  have hret : ∀ b ∈ builtinList, b.ret = .void ∨ b.ret.contains .void = false := by decide
  refine ⟨fun {x} hx => ?_, fun hty hv => Option.some.inj (hty.symm.trans hv), ?_, ?_⟩
  · obtain ⟨s, hs, _⟩ := Option.map_eq_some_iff.mp hx
    exact h.not_isVarName hspelled hs
  · intro x ty hty hv
    obtain ⟨s, hs, rfl⟩ := Option.map_eq_some_iff.mp hty
    obtain ⟨params, declared, b, hmem, hdeclared⟩ | ⟨b, hb, rfl, rfl⟩ := h.find?_cases hs
    · rw [hdeclared] at hty ⊢
      cases declared with
      | none => decide
      | some ty =>
        obtain hvoid | hvalue := (hhead hmem).2.2 ty rfl
        · exact absurd (hvoid ▸ hty) hv
        · exact hvalue.2
    · obtain hvoid | hplain := hret b hb
      · exact absurd (hvoid ▸ hty) hv
      · exact hplain
  · intro scope x ty hx hty
    cases scope with
    | none =>
      obtain ⟨s, hs, _⟩ := Option.map_eq_some_iff.mp hty
      exact absurd hx (h.not_isVarName hspelled hs)
    | some f =>
      obtain ⟨l, hl, rfl⟩ := Option.map_eq_some_iff.mp hty
      obtain ⟨locals, hlocals, hfind⟩ := Option.bind_eq_some_iff.mp hl
      obtain ⟨s, hs, hsl⟩ := Option.bind_eq_some_iff.mp hlocals
      obtain ⟨params, declared, b, hmem, _⟩ | ⟨b, hb, rfl, rfl⟩ := h.find?_cases hs
      · have hparam := (h.head f params declared b hmem).locals x
        rw [hl] at hparam
        obtain ⟨p, hp, heq⟩ := Option.map_eq_some_iff.mp hparam.symm
        have hpty : p.ty = l.ty := congrArg Prod.fst heq
        rw [← hpty]
        exact ((hhead hmem).2.1 p (List.mem_of_find?_eq_some hp)).2
      · cases hsl

end SymbolTable

/-! ## Statements that change a type -/

namespace Checker

variable {c c' : Checker}

theorem assigned_widens (h : assigned name ty c = .ok u c') :
    c'.enclosing = c.enclosing ∧ c.table.Widens c.scope name ty c'.table := by
  obtain ⟨henc, ⟨hscope, htable⟩ | ⟨f, hscope, htable⟩⟩ := assigned_eq_ok h
  · rw [hscope, htable]
    exact ⟨henc, SymbolTable.widens_declare _ _ _⟩
  · rw [hscope]
    exact ⟨henc, SymbolTable.widens_declareLocal? htable⟩

/-- The function that the walk is in, if its type is not declared. -/
def openFunction (c : Checker) : Option String :=
  c.enclosing.bind fun f => if f.declared = none then some f.name else none

theorem scope_of_openFunction {f : String} (h : c.openFunction = some f) : c.scope = some f := by
  obtain ⟨g, hg, hf⟩ := Option.bind_eq_some_iff.mp h
  unfold scope
  rw [hg]
  split at hf
  · exact hf
  · cases hf

theorem returned_widens (hk : c.Known) {ty : Option Ty} (h : returned ty c = .ok u c') :
    c'.scope = c.scope ∧ c'.openFunction = c.openFunction ∧
      match c.openFunction with
      | some f => c.table.Widens none f (ty.getD .null) c'.table
      | none => c'.table = c.table := by
  obtain ⟨henc, htable⟩ := returned_eq_ok h
  unfold scope openFunction
  rw [henc, htable]
  cases hf : c.enclosing with
  | none => exact ⟨rfl, rfl, rfl⟩
  | some f =>
    obtain ⟨name, declared, seen⟩ := f
    obtain ⟨s, hs, _⟩ := hk _ hf
    cases declared with
    | none => exact ⟨rfl, rfl, SymbolTable.widens_includeTy hs _⟩
    | some declared => exact ⟨rfl, rfl, rfl⟩

/-- The tables of the walk are those of values, and the function it is in is known; if its type is
not declared, it is not void. -/
structure Ready (V : String → Prop) (c : Checker) : Prop where
  known : c.Known
  valued : c.table.Valued V
  inferred : ∀ f, c.openFunction = some f → ¬ V f

/-- The walk has moved on and is ready again. -/
structure Leads (V : String → Prop) (c c' : Checker) : Prop where
  onward : c.Onward c'
  ready : c'.Ready V
  openFunction : c'.openFunction = c.openFunction

variable {V : String → Prop} {c'' : Checker}

theorem Leads.refl (h : c.Ready V) : c.Leads V c := ⟨.refl c, h, rfl⟩

theorem Leads.trans (h1 : c.Leads V c') (h2 : c'.Leads V c'') : c.Leads V c'' :=
  ⟨h1.onward.trans h2.onward, h2.ready, h2.openFunction.trans h1.openFunction⟩

theorem leads_walked (h : Expr.Walked c es vs c') (hready : c.Ready V) : c.Leads V c' := by
  have hstays := h.stays.1
  have hopen : c'.openFunction = c.openFunction := by
    unfold Checker.openFunction
    rw [hstays.enclosing]
  exact ⟨h.onward, ⟨h.onward.known hready.known, hready.valued.of_agrees hstays.agrees,
    fun f hf => hready.inferred f (hopen ▸ hf)⟩, hopen⟩

theorem leads_assigned (hready : c.Ready V) (hname : IsVarName name.toList) (hty : ty.IsValue)
    (h : assigned name ty c = .ok u c') : c.Leads V c' := by
  obtain ⟨henc, hwidens⟩ := assigned_widens h
  obtain ⟨hon, _⟩ := (checks_assigned hready.known name ty).of_ok h
  have hopen : c'.openFunction = c.openFunction := by
    unfold Checker.openFunction
    rw [henc]
  exact ⟨hon, ⟨hon.known hready.known,
    hready.valued.of_widens hwidens hty fun _ hv => hready.valued.names hv hname,
    fun f hf => hready.inferred f (hopen ▸ hf)⟩, hopen⟩

theorem leads_returned (hready : c.Ready V) {ty : Option Ty} (h : returned ty c = .ok u c')
    (hty : (ty.getD .null).IsValue) : c.Leads V c' := by
  obtain ⟨_, hopen, htable⟩ := returned_widens hready.known h
  obtain ⟨hon, _⟩ := (checks_returned ty).of_ok h
  refine ⟨hon, ⟨hon.known hready.known, ?_, fun f hf => hready.inferred f (hopen ▸ hf)⟩, hopen⟩
  split at htable
  · rename_i f hf
    exact hready.valued.of_widens htable hty fun _ => hready.inferred f hf
  · rw [htable]
    exact hready.valued

/-- The type of a value that is used. -/
theorem isValue_walked (hready : c.Ready V) (h : Expr.Walked c [e] [v] c') (hvoid : v.1 ≠ .void) :
    v.1.IsValue :=
  (h.isValue hready.valued v (.head _)).resolve_left hvoid

/-- Leaving a function adds null to its type if that is inferred and still empty. -/
theorem leave_widens (h : leave name declared c = .ok u c') :
    c'.enclosing = none ∧
      (c.table.Agrees c'.table ∧ (declared = none → c.table.varTy? none name ≠ some .never) ∨
        declared = none ∧ c.table.varTy? none name = some .never ∧
          c.table.Widens none name .null c'.table) := by
  obtain ⟨henc, htable⟩ := leave_eq_ok h
  refine ⟨henc, ?_⟩
  rw [htable]
  cases declared with
  | some ty => exact .inl ⟨.refl _, fun hnone => by cases hnone⟩
  | none =>
    dsimp only
    have hfind := Table.find?_modify c.table name
      (f := fun s => if s.ty.isEmpty then { s with ty := .null } else s)
      (fun s => by split <;> rfl)
    by_cases hempty : c.table.varTy? none name = some .never
    · obtain ⟨s, hs, hty⟩ := Option.map_eq_some_iff.mp hempty
      refine .inr ⟨rfl, hempty, fun sc x => ?_⟩
      rw [← SymbolTable.widens_includeTy hs .null sc x]
      refine SymbolTable.Agrees.varTy? (SymbolTable.Same.agrees fun y => ?_) sc x
      rw [hfind, Table.includeTy, Table.find?_modify]
      · by_cases hy : y = name
        · rw [if_pos hy, if_pos hy, hy, hs, Option.map_some, Option.map_some, hty]
          rfl
        · rw [if_neg hy, if_neg hy]
      · exact fun _ => rfl
    · refine .inl ⟨fun x => ?_, fun _ => hempty⟩
      rw [hfind]
      by_cases hx : x = name
      · rw [if_pos hx, hx]
        cases hs : c.table.find? name with
        | none => rfl
        | some s =>
          rw [SymbolTable.varTy?_none, hs] at hempty
          have hty : s.ty.isEmpty = false := by simpa [Ty.isEmpty] using hempty
          simp [hty]
      · rw [if_neg hx]

/-- The walk enters a function that is known. -/
theorem Ready.enter (hready : c.Ready V)
    (hknown : ∃ s, c.table.find? name = some s ∧ s.isFunction = true)
    (hopen : declared = none → ¬ V name) :
    ({ c with enclosing := some ⟨name, declared, false⟩ } : Checker).Ready V := by
  refine ⟨?_, hready.valued, ?_⟩
  · intro f hf
    cases hf
    exact hknown
  · intro f hf
    unfold openFunction at hf
    simp only [Option.bind_some] at hf
    split at hf
    · rw [← Option.some.inj hf]
      exact hopen ‹_›
    · cases hf

/-- The walk leaves a function and is ready at the top level. -/
theorem Ready.leave (hready : c.Ready V) (hopen : declared = none → ¬ V name)
    (h : leave name declared c = .ok u c') : c'.Ready V := by
  obtain ⟨henc, htable⟩ := leave_widens h
  refine ⟨fun f hf => ?_, ?_, fun f hf => ?_⟩
  · rw [henc] at hf
    cases hf
  · obtain ⟨hagrees, _⟩ | ⟨hnone, _, hwidens⟩ := htable
    · exact hready.valued.of_agrees hagrees
    · exact hready.valued.of_widens hwidens Ty.isValue_null fun _ => hopen hnone
  · unfold openFunction at hf
    rw [henc] at hf
    cases hf

end Checker

end Ifj22
