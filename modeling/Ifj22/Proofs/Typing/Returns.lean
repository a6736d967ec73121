import Ifj22.Proofs.Typing.Cast
set_option autoImplicit false

/-!
# Typing: returns and null

The returns of a statement, and whether every way through it ends in one.  `Absorbs` says of a step
from one table to another that the type of a function gains null only from the values that are
returned; converting constants does not change whether one of them may be null.
-/

namespace Ifj22

variable {body : List Stmt} {value : Option Expr} {e : Expr} {t t' : SymbolTable} {s : Stmt}
  {scope : Option String} {values' : List (Option Expr)} {ty : Ty}

/-! ## The returns of a statement -/

mutual

/-- The values of the returns in a statement; a return without a value is `none`. -/
def Stmt.returns : Stmt → List (Option Expr)
  | .ret value => [value]
  | .block body => Stmt.returnsOf body
  | .ifElse _ thenBody none => Stmt.returnsOf thenBody
  | .ifElse _ thenBody (some elseBody) => Stmt.returnsOf thenBody ++ Stmt.returnsOf elseBody
  | .whileLoop _ body => Stmt.returnsOf body
  | .assign _ _ => []
  | .expr _ => []
  | .function _ _ _ _ => []

/-- The values of the returns in the statements of a list. -/
def Stmt.returnsOf : List Stmt → List (Option Expr)
  | [] => []
  | s :: rest => s.returns ++ Stmt.returnsOf rest

end

mutual

/-- Every way through the statement ends in a return. -/
def Stmt.alwaysReturns : Stmt → Bool
  | .ret _ => true
  | .block body => Stmt.someReturns body
  | .ifElse _ thenBody (some elseBody) => Stmt.someReturns thenBody && Stmt.someReturns elseBody
  | _ => false

/-- One of the statements always returns. -/
def Stmt.someReturns : List Stmt → Bool
  | [] => false
  | s :: rest => s.alwaysReturns || Stmt.someReturns rest

end

/-- The end of the statements can be reached without a return. -/
def Stmt.fallsOff (body : List Stmt) : Bool := !Stmt.someReturns body

/-- The type of what a return yields. -/
def returnTy (env : TypeEnv) (value : Option Expr) : Ty := (value.map (Expr.infer env)).getD .null

mutual

theorem Stmt.alwaysReturns_of_returns_nil : ∀ s : Stmt, s.returns = [] → s.alwaysReturns = false
  | .ret _, h => by simp [Stmt.returns] at h
  | .block body, h => Stmt.someReturns_of_returnsOf_nil body h
  | .ifElse _ thenBody (some elseBody), h => by
    obtain ⟨hthen, _⟩ := List.append_eq_nil_iff.mp h
    rw [Stmt.alwaysReturns, Stmt.someReturns_of_returnsOf_nil thenBody hthen, Bool.false_and]
  | .ifElse _ _ none, _ => rfl
  | .whileLoop _ _, _ => rfl
  | .assign _ _, _ => rfl
  | .expr _, _ => rfl
  | .function _ _ _ _, _ => rfl

theorem Stmt.someReturns_of_returnsOf_nil :
    ∀ body : List Stmt, Stmt.returnsOf body = [] → Stmt.someReturns body = false
  | [], _ => rfl
  | s :: rest, h => by
    obtain ⟨hs, hrest⟩ := List.append_eq_nil_iff.mp h
    rw [Stmt.someReturns, Stmt.alwaysReturns_of_returns_nil s hs,
      Stmt.someReturns_of_returnsOf_nil rest hrest]
    rfl

end

/-- A body without a return falls off its end. -/
theorem Stmt.fallsOff_of_returnsOf_nil (h : Stmt.returnsOf body = []) :
    Stmt.fallsOff body = true := by
  rw [Stmt.fallsOff, Stmt.someReturns_of_returnsOf_nil body h]
  rfl

theorem Stmt.mem_returnsOf : value ∈ Stmt.returnsOf body ↔ ∃ s ∈ body, value ∈ s.returns := by
  induction body with
  | nil => simp [Stmt.returnsOf]
  | cons s rest ih => simp [Stmt.returnsOf, ih]

theorem Stmt.Over.returns {L : Vocabulary} (h : s.Over L) (he : some e ∈ s.returns) : e.Over L := by
  induction h with
  | assign => cases he
  | expr => cases he
  | ret h => exact h e (List.mem_singleton.mp he).symm
  | block _ ih =>
    obtain ⟨s, hs, he⟩ := Stmt.mem_returnsOf.mp he
    exact ih s hs he
  | @ifElse cond thenBody elseBody _ _ _ iht ihe =>
    cases elseBody with
    | none =>
      obtain ⟨s, hs, he⟩ := Stmt.mem_returnsOf.mp he
      exact iht s hs he
    | some elseBody =>
      obtain he | he := List.mem_append.mp he <;> obtain ⟨s, hs, he⟩ := Stmt.mem_returnsOf.mp he
      · exact iht s hs he
      · exact ihe elseBody rfl s hs he
  | whileLoop _ _ ih =>
    obtain ⟨s, hs, he⟩ := Stmt.mem_returnsOf.mp he
    exact ih s hs he

/-! ## Null in a type -/

namespace Ty

theorem contains_null (a : Ty) : a.contains null = a.bits.getLsbD 3 := by
  obtain ⟨bits⟩ := a
  revert bits
  decide

theorem contains_null_union (a b : Ty) :
    (a ∪ b).contains null = (a.contains null || b.contains null) := contains_union contains_null a b

theorem union_eq_left {a b : Ty} (h : b.subset a = true) : a ∪ b = a := by
  rw [union_def, BitVec.or_comm]
  exact (subset_iff b a).mp h

theorem contains_null_arithmetic (a b : Ty) : (a.arithmetic b).contains null = false := by
  obtain h | h | h := arithmetic_cases a b <;> rw [h] <;> decide

theorem contains_null_binary (op : BinOp) (a b : Ty) :
    (op.resultTy a b).contains null = false := by
  cases op with
  | add | sub | mul => exact contains_null_arithmetic a b
  | div => exact (by decide : float.contains null = false)
  | concat => exact (by decide : string.contains null = false)
  | _ => exact (by decide : int.contains null = false)

theorem contains_null_unary (op : UnaryOp) (a : Ty) : (op.resultTy a).contains null = false := by
  cases op with
  | negate => exact contains_null_arithmetic _ a
  | not => exact (by decide : int.contains null = false)

end Ty

namespace SymbolTable

/-- A return of the function may yield null. -/
def YieldsNull (t : SymbolTable) (name : String) (value : Option Expr) : Prop :=
  (returnTy (TypeEnv.ofScope t (some name)) value).contains .null = true

/-- What may be null may still be so when the tables grow. -/
theorem Grows.infer_null (h : t.Grows t') (hover : e.Over (t.vocabulary scope))
    (hnull : (e.infer (TypeEnv.ofScope t scope)).contains .null = true) :
    (e.infer (TypeEnv.ofScope t' scope)).contains .null = true := by
  cases hover with
  | constant k => exact hnull
  | var hx => exact Ty.subset_trans hnull (h.varTy hx)
  | binary =>
    rw [Expr.infer, Ty.contains_null_binary] at hnull
    cases hnull
  | unary =>
    rw [Expr.infer, Ty.contains_null_unary] at hnull
    cases hnull
  | call hcallee _ =>
    obtain ⟨s, hs, _⟩ := hcallee
    rw [Expr.infer, callTy_ofScope] at hnull ⊢
    obtain hany | hsub := h.callTy hs
    · rw [hany] at hnull
      exact absurd hnull (by decide)
    · exact Ty.subset_trans hnull hsub

/-- The values are over the names of the function. -/
def KnowsValues (t : SymbolTable) (name : String) (values : List (Option Expr)) : Prop :=
  ∀ e, some e ∈ values → e.Over (t.vocabulary (some name))

theorem Grows.yieldsNull (h : t.Grows t') {name : String} {values : List (Option Expr)}
    (hknown : t.KnowsValues name values) (hmem : value ∈ values) (hnull : t.YieldsNull name value) :
    t'.YieldsNull name value := by
  cases value with
  | none => exact hnull
  | some e => exact h.infer_null (hknown e hmem) hnull

/-- Nothing is returned, or what is returned may be null. -/
def NullReturned (t : SymbolTable) (name : String) (values : List (Option Expr)) : Prop :=
  values = [] ∨ ∃ value ∈ values, t.YieldsNull name value

theorem tyOf_eq (t : SymbolTable) (name : String) :
    Table.tyOf t name = (t.varTy? none name).getD .never := rfl

theorem Grows.tyOf (h : t.Grows t') (name : String) :
    (Table.tyOf t name).subset (Table.tyOf t' name) = true := by
  unfold Table.tyOf
  cases hs : t.find? name with
  | none =>
    show (Table.tyOf t' name).contains .never = true
    simp [Ty.contains, Ty.never, Ty.ofMask]
  | some s =>
    obtain ⟨s', hs', hg⟩ := h.symbols hs
    rw [hs']
    exact hg.ty

/-! ## Steps that add returns to a type -/

/-- From one table to another the type of the function has gained null only if one of the values may
be null. -/
structure Absorbs (name : String) (values : List (Option Expr)) (t t' : SymbolTable) : Prop where
  grows : t.Grows t'
  known : t'.KnowsValues name values
  same : values = [] → Table.tyOf t' name = Table.tyOf t name
  null : (Table.tyOf t' name).contains .null = true →
    (Table.tyOf t name).contains .null = true ∨ ∃ value ∈ values, t'.YieldsNull name value

variable {name : String} {values : List (Option Expr)} {t t' t'' : SymbolTable}

/-- A step that leaves the type of the function alone. -/
theorem Absorbs.of_same (hgrows : t.Grows t') (h : Table.tyOf t' name = Table.tyOf t name) :
    Absorbs name [] t t' where
  grows := hgrows
  known _ he := by cases he
  same _ := h
  null hnull := .inl (h ▸ hnull)

theorem Absorbs.trans (h1 : Absorbs name values t t') (h2 : Absorbs name values' t' t'') :
    Absorbs name (values ++ values') t t'' where
  grows := h1.grows.trans h2.grows
  known e he := by
    obtain he | he := List.mem_append.mp he
    · exact h2.grows.expr (h1.known e he)
    · exact h2.known e he
  same hnil := by
    obtain ⟨hnil1, hnil2⟩ := List.append_eq_nil_iff.mp hnil
    exact (h2.same hnil2).trans (h1.same hnil1)
  null hnull := by
    obtain hnull | ⟨value, hmem, hyields⟩ := h2.null hnull
    · obtain hnull | ⟨value, hmem, hyields⟩ := h1.null hnull
      · exact .inl hnull
      · exact .inr ⟨value, List.mem_append_left _ hmem, h2.grows.yieldsNull h1.known hmem hyields⟩
    · exact .inr ⟨value, List.mem_append_right _ hmem, hyields⟩

/-- A return adds its type to that of the function. -/
theorem Absorbs.of_return (hgrows : t.Grows t') (hknown : t.KnowsValues name [value])
    (h : Table.tyOf t' name = Table.tyOf t name ∪ returnTy (TypeEnv.ofScope t (some name)) value) :
    Absorbs name [value] t t' where
  grows := hgrows
  known e he := hgrows.expr (hknown e he)
  same hnil := by cases hnil
  null hnull := by
    rw [h, Ty.contains_null_union, Bool.or_eq_true] at hnull
    exact hnull.imp id fun hyields =>
      ⟨value, List.mem_singleton.mpr rfl,
        hgrows.yieldsNull hknown (List.mem_singleton.mpr rfl) hyields⟩

theorem Agrees.tyOf (h : t.Agrees t') : Table.tyOf t' name = Table.tyOf t name := by
  rw [tyOf_eq, tyOf_eq, h.varTy?]

/-- Widening another entry leaves the type of the function alone. -/
theorem Widens.tyOf_of_ne {x : String} (h : t.Widens scope x ty t')
    (hne : scope = none → x ≠ name) : Table.tyOf t' name = Table.tyOf t name := by
  rw [tyOf_eq, tyOf_eq, h, if_neg]
  rintro ⟨hscope, hx⟩
  exact hne hscope.symm hx.symm

theorem Widens.tyOf (h : t.Widens none name ty t') :
    Table.tyOf t' name = Table.tyOf t name ∪ ty := by
  rw [tyOf_eq, tyOf_eq, h, if_pos ⟨rfl, rfl⟩]
  rfl

end SymbolTable

/-! ## Converted returns -/

section

variable {P : BinOp → Expr → Expr → Prop}

/-- Converting constants leaves open whether an expression may be null. -/
theorem Expr.Cast.infer_null {e' : Expr} (h : e.Cast P e') (env : TypeEnv) :
    (e'.infer env).contains .null = (e.infer env).contains .null := by
  cases h with
  | constant | var | call => rfl
  | binary => simp only [Expr.infer, Ty.contains_null_binary]
  | unary => simp only [Expr.infer, Ty.contains_null_unary]

theorem returnTy_null {value' : Option Expr} (h : Option.Rel (Expr.Cast P) value value')
    (env : TypeEnv) :
    (returnTy env value').contains .null = (returnTy env value).contains .null := by
  cases h with
  | none => rfl
  | some h => exact h.infer_null env

theorem SymbolTable.nullReturned_cast (t : SymbolTable) (name : String)
    {values : List (Option Expr)} (h : List.Forall₂ (Option.Rel (Expr.Cast P)) values values') :
    t.NullReturned name values' ↔ t.NullReturned name values := by
  unfold NullReturned YieldsNull
  refine or_congr ?_ ?_
  · rw [← List.length_eq_zero_iff, ← List.length_eq_zero_iff, h.length_eq]
  · constructor
    · rintro ⟨value', hmem, hnull⟩
      obtain ⟨value, hmem, hrel⟩ := exists_of_mem_right h hmem
      exact ⟨value, hmem, returnTy_null hrel _ ▸ hnull⟩
    · rintro ⟨value, hmem, hnull⟩
      obtain ⟨value', hmem, hrel⟩ := exists_of_mem_left h hmem
      exact ⟨value', hmem, (returnTy_null hrel _).trans hnull⟩

theorem Stmt.Cast.returnsOf {body' : List Stmt} (hstep : ∀ s ∈ body, ∀ {s'}, s.Cast P s' →
      List.Forall₂ (Option.Rel (Expr.Cast P)) s.returns s'.returns)
    (h : List.Forall₂ (Stmt.Cast P) body body') :
    List.Forall₂ (Option.Rel (Expr.Cast P)) (Stmt.returnsOf body) (Stmt.returnsOf body') := by
  induction h with
  | nil => exact .nil
  | @cons s s' rest rest' hs _ ih =>
    exact List.rel_append (hstep s (.head _) hs) (ih fun u hu => hstep u (.tail s hu))

theorem Stmt.Cast.returns : ∀ {s' : Stmt}, s.Cast P s' →
    List.Forall₂ (Option.Rel (Expr.Cast P)) s.returns s'.returns := by
  induction s with
  | assign target value =>
    intro s' h
    cases h
    exact .nil
  | expr value =>
    intro s' h
    cases h
    exact .nil
  | ret value =>
    intro s' h
    cases h with
    | ret h => exact .cons h .nil
  | block body ih =>
    intro s' h
    cases h with
    | block h => exact Stmt.Cast.returnsOf (fun s hs => ih s hs) h
  | ifElse cond thenBody elseBody iht ihe =>
    intro s' h
    cases h with
    | ifElse _ ht he =>
      have hthen := Stmt.Cast.returnsOf (fun s hs => iht s hs) ht
      cases he with
      | none => exact hthen
      | some he =>
        exact List.rel_append hthen (Stmt.Cast.returnsOf (fun s hs => ihe _ rfl s hs) he)
  | whileLoop cond body ih =>
    intro s' h
    cases h with
    | whileLoop _ h => exact Stmt.Cast.returnsOf (fun s hs => ih s hs) h
  | function name params declared body ih =>
    intro s' h
    cases h

end

end Ifj22
