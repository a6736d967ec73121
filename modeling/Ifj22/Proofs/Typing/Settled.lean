import Ifj22.Proofs.Typing.Accepted
import Ifj22.Proofs.Typing.Settle
set_option autoImplicit false

/-!
# Typing: settled tables

The weight of a table counts the members of all its types.  A round that changes something makes the
table heavier, and a table has at most six members for every symbol; so one of the rounds changes
nothing, and settling ends with it.  After a round without a change every value that is assigned fits
its variable.
-/

namespace Ifj22

-- the zero of a sum is that of core, whatever algebra is imported
attribute [local instance (high)] Zero.ofOfNat0

variable {t t' t'' : SymbolTable} {scope : Option SettleScope} {body : List Stmt}

/-! ## Weight -/

/-- The number of members. -/
def Ty.weight (a : Ty) : Nat := (List.range 6).countP a.bits.getLsbD

namespace Ty

theorem weight_le (a : Ty) : a.weight ≤ 6 := List.countP_le_length

theorem weight_le_union (a b : Ty) : a.weight ≤ (a ∪ b).weight := by
  refine List.countP_mono_left fun i _ h => ?_
  simp [union_def, h]

/-- A kind that was missing adds to the weight. -/
theorem weight_lt_union {a b : Ty} (h : b.subset a = false) : a.weight < (a ∪ b).weight := by
  -- a kind of `b` that `a` lacks is a bit that the union gains
  have hbit : ∃ i ∈ List.range 6, b.bits.getLsbD i = true ∧ a.bits.getLsbD i = false := by
    apply Classical.byContradiction
    intro hnone
    have hsub : b.subset a = true := by
      simp only [subset, contains, beq_iff_eq]
      apply BitVec.eq_of_getLsbD_eq
      intro i hi
      rw [BitVec.getLsbD_and]
      cases hb : b.bits.getLsbD i with
      | false => simp
      | true =>
        cases ha : a.bits.getLsbD i with
        | true => rfl
        | false => exact absurd ⟨i, List.mem_range.mpr hi, hb, ha⟩ hnone
    rw [h] at hsub
    cases hsub
  obtain ⟨i, hi, hb, ha⟩ := hbit
  unfold weight
  generalize List.range 6 = bits at hi
  induction bits with
  | nil => cases hi
  | cons j bits ih =>
    rw [List.countP_cons, List.countP_cons]
    have hle : bits.countP a.bits.getLsbD ≤ bits.countP (a ∪ b).bits.getLsbD := by
      refine List.countP_mono_left fun i _ h => ?_
      simp [union_def, h]
    rcases List.mem_cons.mp hi with rfl | hi
    · have hu : (a ∪ b).bits.getLsbD i = true := by simp [union_def, hb]
      rw [ha, hu]
      simp only [Bool.false_eq_true, if_false, if_true]
      omega
    · have := ih hi
      cases haj : a.bits.getLsbD j with
      | false =>
        simp only [Bool.false_eq_true, if_false]
        omega
      | true =>
        have hu : (a ∪ b).bits.getLsbD j = true := by simp [union_def, haj]
        rw [hu]
        simp only [if_true]
        omega

end Ty

namespace Table

variable {Locals : Type}

/-- The members of the types of all symbols, and what the symbols carry. -/
def weight (w : Locals → Nat) (t : Table Locals) : Nat :=
  (t.symbols.map fun s => s.ty.weight + w s.locals).sum

/-- A change that makes no symbol lighter makes no table lighter, and one that makes the symbol of
its name heavier makes the table heavier. -/
theorem weight_modify (w : Locals → Nat) (t : Table Locals) (name : String)
    {f : Symbol Locals → Symbol Locals}
    (hf : ∀ s, s.ty.weight + w s.locals ≤ (f s).ty.weight + w (f s).locals) :
    t.weight w ≤ (t.modify name f).weight w ∧
      ∀ s, t.find? name = some s →
        s.ty.weight + w s.locals < (f s).ty.weight + w (f s).locals →
        t.weight w < (t.modify name f).weight w := by
  simp only [weight, modify, find?]
  induction t.symbols with
  | nil => simp
  | cons s symbols ih =>
    obtain ⟨ihle, ihlt⟩ := ih
    have hs := hf s
    rw [List.map_cons, List.map_cons, List.map_cons, List.sum_cons, List.sum_cons]
    by_cases hname : s.name = name
    · rw [if_pos hname]
      refine ⟨by omega, fun s' hs' hlt => ?_⟩
      rw [List.find?_cons_of_pos (by simpa using hname)] at hs'
      obtain rfl := Option.some.inj hs'
      omega
    · rw [if_neg hname]
      refine ⟨by omega, fun s' hs' hlt => ?_⟩
      rw [List.find?_cons_of_neg (by simpa using hname)] at hs'
      have := ihlt s' hs' hlt
      omega

theorem length_modify (t : Table Locals) (name : String) (f : Symbol Locals → Symbol Locals) :
    (t.modify name f).symbols.length = t.symbols.length := by
  simp [modify]

end Table

namespace SymbolTable

/-- The weight of a local table. -/
def localWeight (l : Option LocalTable) : Nat := (l.map (Table.weight fun _ => 0)).getD 0

/-- The members of all types of a table and of its local tables. -/
def weight (t : SymbolTable) : Nat := Table.weight localWeight t

theorem weight_le (t : SymbolTable) : t.weight ≤ 6 * t.symbolCount := by
  unfold weight Table.weight symbolCount
  induction t.symbols with
  | nil => simp
  | cons s symbols ih =>
    have hty := s.ty.weight_le
    have hlocal : localWeight s.locals ≤ 6 * (s.locals.map (·.symbols.length)).getD 0 := by
      cases s.locals with
      | none => simp [localWeight]
      | some l =>
        simp only [localWeight, Option.map_some, Option.getD_some, Table.weight]
        generalize l.symbols = locals
        induction locals with
        | nil => simp
        | cons x xs ihx =>
          have := x.ty.weight_le
          simp only [List.map_cons, List.sum_cons, List.length_cons]
          omega
    simp only [List.map_cons, List.sum_cons]
    omega

/-- A round that changed something, or not, from one table to another. -/
structure Round (t t' : SymbolTable) (changed : Bool) : Prop where
  grows : t.Grows t'
  count : t'.symbolCount = t.symbolCount
  weight : t.weight + changed.toNat ≤ t'.weight

theorem Round.refl (t : SymbolTable) : Round t t false := ⟨.refl t, rfl, Nat.le_refl _⟩

theorem Round.trans {b b' : Bool} (h1 : Round t t' b) (h2 : Round t' t'' b') :
    Round t t'' (b || b') := by
  refine ⟨h1.grows.trans h2.grows, h2.count.trans h1.count, ?_⟩
  have hor : (b || b').toNat ≤ b.toNat + b'.toNat := by cases b <;> cases b' <;> simp
  have := h1.weight
  have := h2.weight
  omega

theorem count_modify (t : SymbolTable) (name : String)
    {f : Symbol (Option LocalTable) → Symbol (Option LocalTable)}
    (hf : ∀ s, ((f s).locals.map (·.symbols.length)).getD 0 =
      (s.locals.map (·.symbols.length)).getD 0) :
    symbolCount (Table.modify t name f) = t.symbolCount := by
  unfold symbolCount Table.modify
  rw [List.map_map]
  congr 1
  refine List.map_congr_left fun s _ => ?_
  simp only [Function.comp_apply]
  split
  · rw [hf]
  · rfl

theorem round_widenSymbol (name : String) (ty : Ty) (t : SymbolTable) :
    Round t ((widenSymbol name ty).run t).2 ((widenSymbol name ty).run t).1 := by
  show Round t (if t.lacksTy name ty then t.includeTy name ty else t) (t.lacksTy name ty)
  cases hlacks : t.lacksTy name ty with
  | false => exact .refl t
  | true =>
    rw [if_pos rfl]
    refine ⟨grows_includeTy t name ty, count_modify t name fun _ => rfl, ?_⟩
    unfold Table.lacksTy at hlacks
    split at hlacks
    · rename_i s hs
      have hweight := Table.weight_modify localWeight t name
        (f := fun s => { s with ty := s.ty ∪ ty })
        fun s => Nat.add_le_add_right (s.ty.weight_le_union ty) _
      have hlt := Ty.weight_lt_union (a := s.ty) (b := ty) (by simpa using hlacks)
      exact hweight.2 s hs (Nat.add_lt_add_right hlt _)
    · cases hlacks

/-- The function of a scope has a symbol. -/
def ScopeKnown (t : SymbolTable) (scope : Option SettleScope) : Prop :=
  ∀ f, scope = some f → ∃ s, t.find? f.name = some s ∧ s.isFunction = true

theorem Grows.scopeKnown (h : t.Grows t') (hs : t.ScopeKnown scope) : t'.ScopeKnown scope := by
  intro f hf
  obtain ⟨s, hs, hfun⟩ := hs f hf
  obtain ⟨s', hs', hg⟩ := h.symbols hs
  exact ⟨s', hs', hg.isFunction.trans hfun⟩

/-- Widening a local variable counts as a round, and adds to the weight if it reports a change. -/
theorem round_widenLocal {function : String}
    (hfun : ∃ s, t.find? function = some s ∧ s.isFunction = true) (name : String) (ty : Ty) :
    Round t ((widenLocal function name ty).run t).2 ((widenLocal function name ty).run t).1 := by
  obtain ⟨s, hs, hfun⟩ := hfun
  generalize hlacks : ((t.locals? function).map (·.lacksTy name ty)).getD false = lacks
  have hrun : (widenLocal function name ty).run t = (lacks, (t.modifyLocals? function fun l =>
      if lacks then l.includeTy name ty else l).getD t) := by
    rw [← hlacks]
    rfl
  obtain ⟨t', ht'⟩ := modifyLocals?_isSome hs hfun fun l =>
    if lacks then l.includeTy name ty else l
  rw [hrun, ht', Option.getD_some]
  obtain ⟨_, heq⟩ := modifyLocals?_eq_some ht'
  have hlocal : ∀ l : LocalTable,
      l.weight (fun _ => 0) ≤ (if lacks then l.includeTy name ty else l).weight fun _ => 0 := by
    intro l
    split
    · exact (Table.weight_modify (fun _ => 0) l name (f := fun s => { s with ty := s.ty ∪ ty })
        fun s => Nat.add_le_add_right (s.ty.weight_le_union ty) _).1
    · exact Nat.le_refl _
  have hmodify := Table.weight_modify localWeight t function
    (f := fun s => { s with locals := some ((fun l : LocalTable =>
      if lacks then l.includeTy name ty else l) (s.locals.getD (Table.empty .function))) })
    (by
      intro s
      refine Nat.add_le_add_left ?_ _
      cases s.locals with
      | none => exact Nat.zero_le _
      | some l => exact hlocal l)
  refine ⟨grows_modifyLocals? ht' fun l => ?_, ?_, ?_⟩
  · split
    · exact Table.Grows.modify (fun _ => trivial) l name (fun _ => rfl) fun s _ =>
        ⟨rfl, rfl, rfl, rfl, rfl, Ty.subset_union_left _ _, id, trivial⟩
    · exact Table.Grows.refl (fun _ => trivial) l
  · rw [heq]
    refine count_modify t function fun s => ?_
    cases s.locals with
    | none =>
      cases lacks <;> rfl
    | some l =>
      cases lacks
      · rfl
      · simp [Table.includeTy, Table.length_modify]
  · rw [heq]
    cases hl : lacks with
    | false =>
      rw [hl] at hmodify
      exact hmodify.1
    | true =>
      rw [hl] at hlacks hmodify
      refine hmodify.2 s hs (Nat.add_lt_add_left ?_ _)
      unfold locals? at hlacks
      rw [hs, Option.bind_some] at hlacks
      cases hloc : s.locals with
      | none => rw [hloc] at hlacks; cases hlacks
      | some l =>
        rw [hloc, Option.map_some, Option.getD_some] at hlacks
        unfold Table.lacksTy at hlacks
        split at hlacks
        · rename_i x hx
          have hlt := Ty.weight_lt_union (a := x.ty) (b := ty) (by simpa using hlacks)
          exact (Table.weight_modify (fun _ => 0) l name
            (f := fun s => { s with ty := s.ty ∪ ty })
            fun s => Nat.add_le_add_right (s.ty.weight_le_union ty) _).2 x hx
              (Nat.add_lt_add_right hlt _)
        · cases hlacks

/-! ## Tables that know the same -/

/-- The tables know the same types; they may differ in which functions have been called. -/
def Agrees (t t' : SymbolTable) : Prop :=
  ∀ x, (Table.find? t' x).map (fun s => (s.ty, s.locals)) =
    (Table.find? t x).map fun s => (s.ty, s.locals)

theorem Agrees.refl (t : SymbolTable) : t.Agrees t := fun _ => rfl

theorem Agrees.trans (h1 : t.Agrees t') (h2 : t'.Agrees t'') :
    t.Agrees t'' := fun x => (h2 x).trans (h1 x)

theorem agrees_markCalled (t : SymbolTable) (name : String) : t.Agrees (t.markCalled name) :=
  Table.map_find?_modify t name (fun _ => rfl) fun _ => rfl

/-- What depends on the types and the local tables alone is the same. -/
theorem Agrees.map_find? {β : Type} (h : t.Agrees t') (view : Ty × Option LocalTable → β)
    (x : String) :
    (Table.find? t' x).map (fun s => view (s.ty, s.locals)) =
      (Table.find? t x).map fun s => view (s.ty, s.locals) := by
  have := congrArg (Option.map view) (h x)
  simpa only [Option.map_map, Function.comp_def] using this

theorem Agrees.locals? (h : t.Agrees t') (function : String) :
    t'.locals? function = t.locals? function := by
  have hlocals := h.map_find? Prod.snd function
  unfold SymbolTable.locals?
  cases hs : Table.find? t function <;> cases hs' : Table.find? t' function <;>
    simp_all

theorem Agrees.ofScope (h : t.Agrees t') (scope : Option String) :
    TypeEnv.ofScope t' scope = TypeEnv.ofScope t scope := by
  have hty : Table.tyOf t' = Table.tyOf t := funext fun x =>
    congrArg (Option.getD · _) (h.map_find? Prod.fst x)
  have hcall : t'.callTy = t.callTy := funext fun x =>
    congrArg (Option.getD · _) (h.map_find? (fun v => if v.1.isEmpty then Ty.any else v.1) x)
  cases scope with
  | none => simp only [TypeEnv.ofScope, TypeEnv.toplevel, hty, hcall]
  | some f => simp only [TypeEnv.ofScope, TypeEnv.inside, TypeEnv.toplevel, h.locals?, hty, hcall]

/-- The two tables know the same of every name. -/
def Same (t t' : SymbolTable) : Prop := ∀ x, Table.find? t' x = Table.find? t x

theorem Same.refl (t : SymbolTable) : t.Same t := fun _ => rfl

theorem Same.symm (h : t.Same t') : t'.Same t := fun x => (h x).symm

theorem Same.trans (h1 : t.Same t') (h2 : t'.Same t'') : t.Same t'' :=
  fun x => (h2 x).trans (h1 x)

theorem Same.agrees (h : t.Same t') : t.Agrees t' := fun x => by rw [h x]

theorem Same.local? (h : t.Same t') (function name : String) :
    t'.local? function name = t.local? function name := by
  unfold SymbolTable.local?
  rw [h.agrees.locals?]

/-- The type of a variable of a scope. -/
def varTy? (t : SymbolTable) : Option String → String → Option Ty
  | none, name => (t.find? name).map (·.ty)
  | some function, name => (t.local? function name).map (·.ty)

theorem callTy_ofScope (t : SymbolTable) (scope : Option String) :
    (TypeEnv.ofScope t scope).callTy = t.callTy := by
  cases scope with
  | none => rfl
  | some f =>
    simp only [TypeEnv.ofScope, TypeEnv.inside]
    split <;> rfl

/-- A variable of the vocabulary has a type. -/
theorem varTy_of_var {scope : Option String} {x : String} (h : (t.vocabulary scope).var x) :
    ∃ ty, t.varTy? scope x = some ty ∧ (TypeEnv.ofScope t scope).varTy x = ty := by
  cases scope with
  | none =>
    obtain ⟨s, hs⟩ := h
    refine ⟨s.ty, ?_, ?_⟩
    · simp only [SymbolTable.varTy?, hs, Option.map_some]
    · simp only [TypeEnv.ofScope, TypeEnv.toplevel, Table.tyOf, hs, Option.map_some,
        Option.getD_some]
  | some f =>
    obtain ⟨s, hs⟩ := h
    obtain ⟨locals, hlocals, hfind⟩ := Option.bind_eq_some_iff.mp hs
    refine ⟨s.ty, ?_, ?_⟩
    · simp only [SymbolTable.varTy?, hs, Option.map_some]
    · simp only [TypeEnv.ofScope, TypeEnv.inside, hlocals, Table.tyOf, hfind, Option.map_some,
        Option.getD_some]

theorem Agrees.varTy? (h : t.Agrees t') (scope : Option String) (x : String) :
    t'.varTy? scope x = t.varTy? scope x := by
  cases scope with
  | none => exact h.map_find? Prod.fst x
  | some f => simp only [SymbolTable.varTy?, SymbolTable.local?, h.locals?]

theorem unchanged_widenSymbol {name : String} {ty : Ty}
    (h : ((widenSymbol name ty).run t).1 = false) :
    t.Same ((widenSymbol name ty).run t).2 ∧
      ∀ s, t.find? name = some s → ty.subset s.ty = true := by
  have hlacks : t.lacksTy name ty = false := h
  constructor
  · show t.Same (if t.lacksTy name ty then t.includeTy name ty else t)
    rw [hlacks]
    exact .refl t
  · intro s hs
    unfold Table.lacksTy at hlacks
    rw [hs] at hlacks
    simpa using hlacks

theorem unchanged_widenLocal {function name : String} {ty : Ty} {s : Symbol Unit}
    (hs : t.local? function name = some s) (h : ((widenLocal function name ty).run t).1 = false) :
    t.Same ((widenLocal function name ty).run t).2 ∧ ty.subset s.ty = true := by
  have hlacks : ((t.locals? function).map (·.lacksTy name ty)).getD false = false := h
  have hrun : ((widenLocal function name ty).run t).2 =
      (t.modifyLocals? function fun l =>
        if ((t.locals? function).map (·.lacksTy name ty)).getD false then l.includeTy name ty
        else l).getD t := rfl
  rw [hrun, hlacks]
  unfold local? at hs
  cases hl : t.locals? function with
  | none => rw [hl] at hs; cases hs
  | some l =>
    rw [hl, Option.bind_some] at hs
    constructor
    · cases hmod : t.modifyLocals? function fun l => if false = true then l.includeTy name ty else l with
      | none => exact .refl t
      | some t' =>
        obtain ⟨_, rfl⟩ := modifyLocals?_eq_some hmod
        intro x
        rw [Option.getD_some, Table.find?_modify _ _ ?_]
        · by_cases hx : x = function
          · subst hx
            rw [if_pos rfl]
            unfold locals? at hl
            cases hf : t.find? x with
            | none => rfl
            | some f =>
              rw [hf, Option.bind_some] at hl
              simp only [Option.map_some, Bool.false_eq_true, if_false, Option.some.injEq]
              rw [hl, Option.getD_some, ← hl]
          · rw [if_neg hx]
        · exact fun _ => rfl
    · rw [hl, Option.map_some, Option.getD_some] at hlacks
      unfold Table.lacksTy at hlacks
      rw [hs] at hlacks
      simpa using hlacks

end SymbolTable

/-! ## Settled statements -/

open SymbolTable

/-- Every value that is assigned in the statement fits its variable, and every value that is returned
without a declared type fits the return type. -/
inductive Stmt.Settled (t : SymbolTable) : Option SettleScope → Stmt → Prop
  | assign {scope : Option SettleScope} {target : String} {value : Expr}
    (h : ∀ ty, t.varTy? (scope.map (·.name)) target = some ty →
      (value.infer (TypeEnv.ofScope t (scope.map (·.name)))).subset ty = true) :
    Settled t scope (.assign target value)
  | expr {scope : Option SettleScope} {value : Expr} : Settled t scope (.expr value)
  | ret {scope : Option SettleScope} {value : Option Expr}
    (h : ∀ f, scope = some f → f.inferred = true → ∀ s, t.find? f.name = some s →
      ((value.map (Expr.infer (TypeEnv.ofScope t (some f.name)))).getD .null).subset s.ty = true) :
    Settled t scope (.ret value)
  | block {scope : Option SettleScope} {body : List Stmt} (h : ∀ s ∈ body, Settled t scope s) :
    Settled t scope (.block body)
  | ifElse {scope : Option SettleScope} {cond : Expr} {thenBody : List Stmt}
    {elseBody : Option (List Stmt)} (ht : ∀ s ∈ thenBody, Settled t scope s)
    (he : ∀ body, elseBody = some body → ∀ s ∈ body, Settled t scope s) :
    Settled t scope (.ifElse cond thenBody elseBody)
  | whileLoop {scope : Option SettleScope} {cond : Expr} {body : List Stmt}
    (h : ∀ s ∈ body, Settled t scope s) : Settled t scope (.whileLoop cond body)
  | function {scope : Option SettleScope} {name : String} {params : List Param}
    {declared : Option Ty} {body : List Stmt}
    (h : ∀ s ∈ body, Settled t (some ⟨name, declared.isNone⟩) s) :
    Settled t scope (.function name params declared body)

theorem Stmt.Settled.same (hsame : t.Same t') {s : Stmt} (h : s.Settled t scope) :
    s.Settled t' scope := by
  induction h with
  | assign h =>
    refine .assign fun ty hty => ?_
    rw [hsame.agrees.ofScope]
    exact h ty (hsame.agrees.varTy? _ _ ▸ hty)
  | expr => exact .expr
  | ret h =>
    refine .ret fun f hf hinf s hs => ?_
    rw [hsame.agrees.ofScope]
    exact h f hf hinf s ((hsame f.name).symm.trans hs)
  | block _ ih => exact .block ih
  | ifElse _ _ iht ihe => exact .ifElse iht ihe
  | whileLoop _ ih => exact .whileLoop ih
  | function _ ih => exact .function ih

/-- Two rounds one after the other. -/
theorem run_both (m m' : StateM SymbolTable Bool) (t : SymbolTable) :
    (do let first ← m; let others ← m'; pure (first || others) : StateM SymbolTable Bool).run t =
      ((m.run t).1 || (m'.run (m.run t).2).1, (m'.run (m.run t).2).2) := rfl

namespace Store

theorem run_assign (target : String) (value : Expr) (t : SymbolTable) :
    (assign none target value).settle.run t =
      (widenSymbol target (value.infer (TypeEnv.ofScope t none))).run t := by
  rw [settle, stmt, Store.scope, Stmt.settle, StateT.run_bind, StateT.run_get, pure_bind]
  rfl

theorem run_assign_inside (f : SettleScope) (target : String) (value : Expr) (t : SymbolTable) :
    (assign (some f) target value).settle.run t =
      (widenLocal f.name target (value.infer (TypeEnv.ofScope t (some f.name)))).run t := by
  rw [settle, stmt, Store.scope, Stmt.settle, StateT.run_bind, StateT.run_get, pure_bind]
  rfl

theorem run_ret_inferred {f : SettleScope} (hf : f.inferred = true) (value : Option Expr)
    (t : SymbolTable) : (ret (some f) value).settle.run t =
      (widenSymbol f.name ((value.map (Expr.infer
        (TypeEnv.ofScope t (some f.name)))).getD .null)).run t := by
  rw [settle, stmt, Store.scope, Stmt.settle, if_pos hf, StateT.run_bind, StateT.run_get, pure_bind]

theorem run_ret_declared (hf : ∀ f, scope = some f → f.inferred = false) (value : Option Expr)
    (t : SymbolTable) : (ret scope value).settle.run t = (false, t) := by
  cases scope with
  | none => rfl
  | some f =>
    rw [settle, stmt, Store.scope, Stmt.settle, hf f rfl]
    rfl

end Store

/-! ## Settled programs -/

theorem Stmt.Over.stores {V : Vocabulary} {s : Stmt} (h : s.Over V) :
    ∀ u ∈ s.stores scope, u.scope = scope ∧ u.stmt.Over V := by
  induction h with
  | assign htarget hvalue => exact List.forall_mem_singleton.mpr ⟨rfl, .assign htarget hvalue⟩
  | expr => exact fun _ hu => by cases hu
  | ret hvalue => exact List.forall_mem_singleton.mpr ⟨rfl, .ret hvalue⟩
  | block _ ih => exact Stmt.forall_storesOf.mpr ih
  | ifElse _ _ _ iht ihe => exact Stmt.forall_stores_ifElse.mpr ⟨iht, ihe⟩
  | whileLoop _ _ ih => exact Stmt.forall_storesOf.mpr ih

theorem Stmt.settled_of_stores {s : Stmt} (h : ∀ u ∈ s.stores scope, u.stmt.Settled t u.scope) :
    s.Settled t scope := by
  induction s generalizing scope with
  | assign => exact h _ (List.mem_singleton_self _)
  | expr => exact .expr
  | ret => exact h _ (List.mem_singleton_self _)
  | block body ih => exact .block fun s hs => ih s hs (Stmt.forall_storesOf.mp h s hs)
  | ifElse cond thenBody elseBody iht ihe =>
    obtain ⟨ht, he⟩ := Stmt.forall_stores_ifElse.mp h
    exact .ifElse (fun s hs => iht s hs (ht s hs)) fun b hb s hs => ihe b hb s hs (he b hb s hs)
  | whileLoop cond body ih => exact .whileLoop fun s hs => ih s hs (Stmt.forall_storesOf.mp h s hs)
  | function name params declared body ih =>
    exact .function fun s hs => ih s hs (Stmt.forall_storesOf.mp h s hs)

/-- The names of the store are known in its scope. -/
def Store.Known (t : SymbolTable) (u : Store) : Prop :=
  t.ScopeKnown u.scope ∧ u.stmt.Over (t.vocabulary (u.scope.map (·.name)))

theorem SymbolTable.Grows.store (h : t.Grows t') {u : Store} (hu : u.Known t) : u.Known t' :=
  ⟨h.scopeKnown hu.1, h.stmt hu.2⟩

theorem Stmt.OverTop.stores {L : Lexicon} {s : Stmt} (h : s.OverTop L) : ∀ u ∈ s.stores none,
    (u.scope = none ∧ u.stmt.Over L.toplevel) ∨ ∃ name params declared,
      u.scope = some ⟨name, declared.isNone⟩ ∧ L.head name params declared ∧
        u.stmt.Over (L.inside name) := by
  cases h with
  | stmt hover => exact fun u hu => .inl (hover.stores u hu)
  | function hhead hover =>
    refine Stmt.forall_storesOf.mpr fun s hs u hu => ?_
    obtain ⟨hscope, hover⟩ := (hover s hs).stores u hu
    exact .inr ⟨_, _, _, hscope, hhead, hover⟩

/-- A store moves the table on, and if it changes nothing its value fitted before. -/
theorem round_store {u : Store} (h : u.Known t) :
    Round t (u.settle.run t).2 (u.settle.run t).1 ∧
      ((u.settle.run t).1 = false → t.Same (u.settle.run t).2 ∧ u.stmt.Settled t u.scope) := by
  obtain ⟨hknown, hover⟩ := h
  cases u with
  | assign scope target value =>
    cases hover with
    | assign htarget _ =>
      cases scope with
      | none =>
        rw [Store.run_assign]
        refine ⟨round_widenSymbol _ _ t, fun hchanged => ?_⟩
        obtain ⟨hsame, hsub⟩ := unchanged_widenSymbol hchanged
        refine ⟨hsame, .assign fun ty hty => ?_⟩
        obtain ⟨s, hs, rfl⟩ := Option.map_eq_some_iff.mp hty
        exact hsub s hs
      | some f =>
        rw [Store.run_assign_inside]
        refine ⟨round_widenLocal (hknown f rfl) _ _, fun hchanged => ?_⟩
        obtain ⟨s, hs⟩ := htarget
        obtain ⟨hsame, hsub⟩ := unchanged_widenLocal hs hchanged
        refine ⟨hsame, .assign fun ty hty => ?_⟩
        have hty' : (t.local? f.name target).map (·.ty) = some ty := hty
        rw [hs] at hty'
        rw [← Option.some.inj hty']
        exact hsub
  | ret scope value =>
    by_cases hinf : ∃ f, scope = some f ∧ f.inferred = true
    · obtain ⟨f, rfl, hinf⟩ := hinf
      rw [Store.run_ret_inferred hinf]
      refine ⟨round_widenSymbol _ _ t, fun hchanged => ?_⟩
      obtain ⟨hsame, hsub⟩ := unchanged_widenSymbol hchanged
      refine ⟨hsame, .ret fun f' hf' _ => ?_⟩
      obtain rfl := Option.some.inj hf'
      exact hsub
    · have hdeclared : ∀ f, scope = some f → f.inferred = false := fun f hf =>
        Bool.eq_false_iff.mpr fun h => hinf ⟨f, hf, h⟩
      rw [Store.run_ret_declared hdeclared]
      refine ⟨.refl t, fun _ => ⟨.refl t, .ret fun f hf h => ?_⟩⟩
      exact absurd ⟨f, hf, h⟩ hinf

theorem rounds_stores {us : List Store} : ∀ t : SymbolTable, (∀ u ∈ us, u.Known t) →
    Round t ((anyChange Store.settle us).run t).2 ((anyChange Store.settle us).run t).1 ∧
      (((anyChange Store.settle us).run t).1 = false →
        t.Same ((anyChange Store.settle us).run t).2 ∧ ∀ u ∈ us, u.stmt.Settled t u.scope) := by
  induction us with
  | nil =>
    intro t _
    exact ⟨.refl t, fun _ => ⟨.refl t, by simp⟩⟩
  | cons u us ih =>
    intro t hknown
    obtain ⟨hu, hus⟩ := List.forall_mem_cons.mp hknown
    obtain ⟨hround, hsame⟩ := round_store hu
    obtain ⟨hrounds, hsames⟩ := ih _ fun v hv => hround.grows.store (hus v hv)
    rw [anyChange, run_both]
    refine ⟨hround.trans hrounds, fun hchanged => ?_⟩
    obtain ⟨hfirst, hothers⟩ := Bool.or_eq_false_iff.mp hchanged
    obtain ⟨hs1, hset⟩ := hsame hfirst
    obtain ⟨hs2, hsets⟩ := hsames hothers
    exact ⟨hs1.trans hs2, List.forall_mem_cons.mpr ⟨hset, fun v hv => (hsets v hv).same hs1.symm⟩⟩

theorem Stmt.known_stores (h : ∀ s ∈ body, s.OverTop t.lexicon) :
    ∀ u ∈ Stmt.storesOf none body, u.Known t := by
  refine Stmt.forall_storesOf.mpr fun s hs u hu => ?_
  unfold Store.Known
  obtain ⟨hscope, hover⟩ | ⟨name, params, declared, hscope, hhead, hover⟩ := (h s hs).stores u hu
  · rw [hscope]
    exact ⟨nofun, hover⟩
  · rw [hscope]
    exact ⟨fun f hf => Option.some.inj hf ▸ hhead, hover⟩

theorem Stmt.spelled_stores (h : ∀ s ∈ body, s.OverTop .spelled) :
    ∀ u ∈ Stmt.storesOf none body, u.stmt.Over .spelled := by
  refine Stmt.forall_storesOf.mpr fun s hs u hu => ?_
  obtain ⟨_, hover⟩ | ⟨_, _, _, _, _, hover⟩ := (h s hs).stores u hu <;> exact hover

theorem rounds_toplevel (t : SymbolTable) (h : ∀ s ∈ body, s.OverTop t.lexicon) :
    Round t ((Stmt.settleList none body).run t).2 ((Stmt.settleList none body).run t).1 ∧
      (((Stmt.settleList none body).run t).1 = false →
        t.Same ((Stmt.settleList none body).run t).2 ∧ ∀ s ∈ body, s.Settled t none) := by
  obtain ⟨hround, hsame⟩ := rounds_stores t (Stmt.known_stores h)
  rw [Stmt.settleList_eq_stores]
  refine ⟨hround, fun hchanged => ⟨(hsame hchanged).1, fun s hs => ?_⟩⟩
  exact Stmt.settled_of_stores (Stmt.forall_storesOf.mp (hsame hchanged).2 s hs)

/-- A round over statements whose names are known leaves their names known. -/
theorem known_round (t : SymbolTable) (h : ∀ s ∈ body, s.OverTop t.lexicon) :
    ∀ s ∈ body, s.OverTop (lexicon ((Stmt.settleList none body).run t).2) := fun s hs =>
  (rounds_toplevel t h).1.grows.toplevel (h s hs)

/-- Enough rounds settle a program: there are not more than the members that can still be added. -/
theorem settleRounds_settled : ∀ (fuel : Nat) (t : SymbolTable),
    (∀ s ∈ body, s.OverTop t.lexicon) → 6 * t.symbolCount < fuel + t.weight →
      t.Grows (Stmt.settleRounds body fuel t) ∧
        ∀ s ∈ body, s.Settled (Stmt.settleRounds body fuel t) none := by
  intro fuel
  induction fuel with
  | zero =>
    intro t _ hfuel
    have := t.weight_le
    omega
  | succ fuel ih =>
    intro t hover hfuel
    obtain ⟨hround, hsame⟩ := rounds_toplevel t hover
    rw [Stmt.settleRounds]
    generalize hrun : (Stmt.settleList none body).run t = result at hround hsame
    obtain ⟨changed, t'⟩ := result
    dsimp only
    cases changed with
    | false =>
      obtain ⟨hsame, hsettled⟩ := hsame rfl
      exact ⟨hround.grows, fun s hs => (hsettled s hs).same hsame⟩
    | true =>
      have hweight : t.weight + 1 ≤ t'.weight := hround.weight
      have hcount : t'.symbolCount = t.symbolCount := hround.count
      obtain ⟨hgrows, hsettled⟩ := ih t' (fun s hs => hround.grows.toplevel (hover s hs)) (by omega)
      exact ⟨hround.grows.trans hgrows, hsettled⟩

end Ifj22
