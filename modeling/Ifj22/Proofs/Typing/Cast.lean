import Ifj22.Proofs.Analysis
import Ifj22.Proofs.Typing.Walk
set_option autoImplicit false

/-!
# Typing: which constants are converted

The checker converts constant operands while it walks, with the types known so far.  `Stmt.Cast P`
relates a statement to its converted form: operands of a binary operation become floats only where
`P` holds of the operation, and become strings only under concatenation; everything else stays.

An operation whose operands become floats had the type float when the walk passed it.  The types of
names may be widened later, so under the final tables its type is float, or int or float where it
reads a name that has come to admit both (`Expr.Floats`).
-/

namespace Ifj22

variable {e : Expr} {a : Ty} {op : BinOp} {t t' : SymbolTable} {c c' : Checker} {body : List Stmt}
  {s : Stmt} {name : String} {v : Ty × Expr} {s' : Stmt} {rest : List Stmt}

/-! ## Converted trees -/

/-- The second expression is the first one with constant operands converted.  `P` is asked of an
operation, with its operands as they were, where they become floats; for a concatenation they
become strings without a reason. -/
inductive Expr.Cast (P : BinOp → Expr → Expr → Prop) : Expr → Expr → Prop
  | constant (c : Constant) : Cast P (.constant c) (.constant c)
  | var (name : String) : Cast P (.var name) (.var name)
  | binary {op : BinOp} {left right left' right' : Expr} {target? : Option Ty}
    (hl : Cast P left left') (hr : Cast P right right')
    (htarget : target? = none ∨ target? = some .float ∧ P op left right ∨
      target? = some .string ∧ op = .concat) :
    Cast P (.binary op left right) (.binary op (left'.coerce target?) (right'.coerce target?))
  | unary {op : UnaryOp} {operand operand' : Expr} (h : Cast P operand operand') :
    Cast P (.unary op operand) (.unary op operand')
  | call {name : String} {args args' : List Expr} (h : List.Forall₂ (Cast P) args args') :
    Cast P (.call name args) (.call name args')

/-- The second statement is the first one with constant operands converted. -/
inductive Stmt.Cast (P : BinOp → Expr → Expr → Prop) : Stmt → Stmt → Prop
  | assign {target : String} {value value' : Expr} (h : value.Cast P value') :
    Cast P (.assign target value) (.assign target value')
  | expr {value value' : Expr} (h : value.Cast P value') : Cast P (.expr value) (.expr value')
  | ret {value value' : Option Expr} (h : Option.Rel (Expr.Cast P) value value') :
    Cast P (.ret value) (.ret value')
  | block {body body' : List Stmt} (h : List.Forall₂ (Cast P) body body') :
    Cast P (.block body) (.block body')
  | ifElse {cond cond' : Expr} {thenBody thenBody' : List Stmt} {elseBody elseBody' : Option (List Stmt)}
    (hc : cond.Cast P cond') (ht : List.Forall₂ (Cast P) thenBody thenBody')
    (he : Option.Rel (List.Forall₂ (Cast P)) elseBody elseBody') :
    Cast P (.ifElse cond thenBody elseBody) (.ifElse cond' thenBody' elseBody')
  | whileLoop {cond cond' : Expr} {body body' : List Stmt} (hc : cond.Cast P cond')
    (hb : List.Forall₂ (Cast P) body body') : Cast P (.whileLoop cond body) (.whileLoop cond' body')

/-- The same for a statement of the top level; what justifies a conversion depends on the scope. -/
inductive Stmt.CastTop (P : Option String → BinOp → Expr → Expr → Prop) : Stmt → Stmt → Prop
  | stmt {s s' : Stmt} (h : s.Cast (P none) s') : CastTop P s s'
  | function {name : String} {params : List Param} {declared : Option Ty} {body body' : List Stmt}
    (h : List.Forall₂ (Stmt.Cast (P (some name))) body body') :
    CastTop P (.function name params declared body) (.function name params declared body')

theorem exists_of_mem_left {α β : Type} {R : α → β → Prop} {l : List α} {l' : List β}
    (h : List.Forall₂ R l l') {x : α} (hx : x ∈ l) : ∃ y ∈ l', R x y :=
  exists_of_mem_right (R := flip R) h.flip hx

/-! ## Types of floats -/

namespace Ty

theorem numericKinds_cases (a : Ty) : a.numericKinds = .never ∨ a.numericKinds = .int ∨
    a.numericKinds = .float ∨ a.numericKinds = .int ∪ .float := by
  unfold numericKinds
  split <;> split <;> decide

theorem numericKinds_arithmetic (a b : Ty) : (a.arithmetic b).numericKinds = a.arithmetic b := by
  obtain h | h | h := arithmetic_cases a b <;> rw [h] <;> decide

/-- What is a value and not a string can be read as a number. -/
theorem numericKinds_ne_never (hvalue : a.IsValue) (hstring : a.isStringOnly = false) :
    a.numericKinds ≠ .never := by
  have hall : ∀ bits : BitVec 6, (⟨bits⟩ : Ty) ≠ never ∧ (⟨bits⟩ : Ty).contains void = false →
      (⟨bits⟩ : Ty).isStringOnly = false → (⟨bits⟩ : Ty).numericKinds ≠ never := by decide
  exact hall a.bits hvalue hstring

/-- A type that admits floats still does when it grows. -/
theorem numericKinds_of_subset {b : Ty} (hsub : a.subset b = true) (h : a.numericKinds = .float) :
    b.numericKinds = .float ∨ b.numericKinds = .int ∪ .float := by
  have hcontains : ∀ bits : BitVec 6, (⟨bits⟩ : Ty).numericKinds = float →
      float.subset ⟨bits⟩ = true := by decide
  have hkinds : ∀ bits : BitVec 6, float.subset ⟨bits⟩ = true →
      (⟨bits⟩ : Ty).numericKinds = float ∨ (⟨bits⟩ : Ty).numericKinds = int ∪ float := by decide
  exact hkinds b.bits (subset_trans (hcontains a.bits h) hsub)

/-- An operation on numbers has the type float only if one of its operands is a float. -/
theorem eq_float_of_arithmetic {b : Ty} (ha : a.numericKinds ≠ .never)
    (hb : b.numericKinds ≠ .never) (h : a.arithmetic b = .float) :
    a.numericKinds = .float ∨ b.numericKinds = .float := by
  unfold arithmetic at h
  obtain ha' | ha' | ha' | ha' := numericKinds_cases a <;>
    obtain hb' | hb' | hb' | hb' := numericKinds_cases b <;>
      simp only [ha', hb'] at h ha hb ⊢ <;> revert h ha hb <;> decide

/-- Of the binary operations only those of arithmetic are read as floats. -/
theorem eq_float_of_binary {b : Ty} (h : (op.resultTy a b).numericKinds = .float) :
    op.isArithmetic = true ∧ op.resultTy a b = .float := by
  cases op with
  | add | sub | mul => exact ⟨rfl, (numericKinds_arithmetic a b).symm.trans h⟩
  | div => exact ⟨rfl, rfl⟩
  | concat =>
    have hstring : string.numericKinds = float := h
    exact absurd hstring (by decide)
  | _ =>
    have hint : int.numericKinds = float := h
    exact absurd hint (by decide)

theorem arithmetic_comm (a b : Ty) : a.arithmetic b = b.arithmetic a := by
  unfold arithmetic
  obtain ha | ha | ha | ha := numericKinds_cases a <;>
    obtain hb | hb | hb | hb := numericKinds_cases b <;> simp only [ha, hb] <;> decide

theorem arithmetic_of_float (b : Ty) (h : a.numericKinds = .float) : a.arithmetic b = .float := by
  unfold arithmetic
  obtain hb | hb | hb | hb := numericKinds_cases b <;> simp only [h, hb] <;> decide

theorem arithmetic_of_both (b : Ty) (h : a.numericKinds = .int ∪ .float) :
    a.arithmetic b = .float ∨ a.arithmetic b = .int ∪ .float := by
  unfold arithmetic
  obtain hb | hb | hb | hb := numericKinds_cases b <;> simp only [h, hb] <;> decide

end Ty

/-! ## Operations on floats -/

/-- The expression reads, as a number, a name that may be an int as well as a float.  Only what
arithmetic hands on counts: a comparison or a concatenation of such names is not read as one of
them. -/
inductive Expr.Mixed (env : TypeEnv) : Expr → Prop
  | var {name : String} (h : (env.varTy name).numericKinds = .int ∪ .float) : Mixed env (.var name)
  | call {name : String} {args : List Expr} (h : (env.callTy name).numericKinds = .int ∪ .float) :
    Mixed env (.call name args)
  | left {op : BinOp} {left right : Expr} (hop : op.isArithmetic = true) (h : left.Mixed env) :
    Mixed env (.binary op left right)
  | right {op : BinOp} {left right : Expr} (hop : op.isArithmetic = true) (h : right.Mixed env) :
    Mixed env (.binary op left right)
  | negate {operand : Expr} (h : operand.Mixed env) : Mixed env (.unary .negate operand)

/-- The type is float; or it is int or float, because a name is read that admits both.  The second
case cannot be left out: a constant is converted where the walk finds the type float, and an
assignment behind it may still add ints to a name that the operation reads. -/
def Expr.Floats (env : TypeEnv) (e : Expr) : Prop :=
  e.infer env = .float ∨ e.infer env = .int ∪ .float ∧ e.Mixed env

/-- The same of the kinds of number that the expression is read as. -/
def Expr.FloatKinds (env : TypeEnv) (e : Expr) : Prop :=
  (e.infer env).numericKinds = .float ∨
    (e.infer env).numericKinds = .int ∪ .float ∧ e.Mixed env

section

variable {env : TypeEnv} {left right operand : Expr}

theorem Expr.FloatKinds.negate (h : operand.FloatKinds env) :
    (Expr.unary .negate operand).FloatKinds env := by
  unfold Expr.FloatKinds
  simp only [Expr.infer, UnaryOp.resultTy, Ty.numericKinds_arithmetic]
  rw [Ty.arithmetic_comm]
  obtain h | ⟨h, hmixed⟩ := h
  · exact .inl (Ty.arithmetic_of_float _ h)
  · obtain hfloat | hboth := Ty.arithmetic_of_both .int h
    · exact .inl hfloat
    · exact .inr ⟨hboth, .negate hmixed⟩

/-- A sum, difference or product with an operand that is a float. -/
theorem Expr.FloatKinds.binary (hop : op.isArithmetic = true) (hdiv : op ≠ .div)
    (h : left.FloatKinds env ∨ right.FloatKinds env) : (Expr.binary op left right).Floats env := by
  have hty : (Expr.binary op left right).infer env =
      (left.infer env).arithmetic (right.infer env) := by
    cases op <;> first | rfl | exact absurd rfl hdiv | cases hop
  unfold Expr.Floats
  rw [hty]
  obtain (h | ⟨h, hmixed⟩) | h | ⟨h, hmixed⟩ := h
  · exact .inl (Ty.arithmetic_of_float _ h)
  · exact (Ty.arithmetic_of_both _ h).imp id fun hboth => ⟨hboth, .left hop hmixed⟩
  · rw [Ty.arithmetic_comm]
    exact .inl (Ty.arithmetic_of_float _ h)
  · rw [Ty.arithmetic_comm]
    exact (Ty.arithmetic_of_both _ h).imp id fun hboth => ⟨hboth, .right hop hmixed⟩

theorem Expr.Floats.kinds (h : e.Floats env) : e.FloatKinds env := by
  obtain h | ⟨h, hmixed⟩ := h
  · exact .inl (by rw [h]; decide)
  · exact .inr ⟨by rw [h]; decide, hmixed⟩

end

/-! ## The walk over expressions -/

namespace SymbolTable

/-- What justifies that the operands of an operation become floats: the type of the operation was
float under the tables of some moment, and still admits floats only, as far as its names do. -/
def Justifies (t : SymbolTable) (scope : Option String) (op : BinOp) (left right : Expr) : Prop :=
  op.isArithmetic = true ∧
    (∃ u, SymbolTable.Grows u t ∧
      (Expr.binary op left right).infer (TypeEnv.ofScope u scope) = .float) ∧
    (Expr.binary op left right).Floats (TypeEnv.ofScope t scope)

/-- A name of the tables keeps its kinds when they grow. -/
theorem Grows.varTy (h : t.Grows t') {scope : Option String} {x : String}
    (hx : (t.vocabulary scope).var x) :
    ((TypeEnv.ofScope t scope).varTy x).subset ((TypeEnv.ofScope t' scope).varTy x) = true := by
  obtain ⟨ty, hty, hinfer⟩ := varTy_of_var hx
  obtain ⟨ty', hty', hinfer'⟩ := varTy_of_var (h.var hx)
  rw [hinfer, hinfer']
  cases scope with
  | none =>
    obtain ⟨s, hs, rfl⟩ := Option.map_eq_some_iff.mp hty
    obtain ⟨s', hs', hg⟩ := h.symbols hs
    rw [varTy?_none, hs'] at hty'
    rw [← Option.some.inj hty']
    exact hg.ty
  | some f =>
    obtain ⟨s, hs, rfl⟩ := Option.map_eq_some_iff.mp hty
    obtain ⟨s', hs', hsub⟩ := h.local? hs
    have hty' : (t'.local? f x).map (·.ty) = some ty' := hty'
    rw [hs'] at hty'
    rw [← Option.some.inj hty']
    exact hsub

/-- The type of a call is unknown, or keeps its kinds when the tables grow. -/
theorem Grows.callTy (h : t.Grows t') {s : Symbol (Option LocalTable)}
    (hs : t.find? name = some s) :
    t.callTy name = .any ∨ (t.callTy name).subset (t'.callTy name) = true := by
  obtain ⟨s', hs', hg⟩ := h.symbols hs
  simp only [SymbolTable.callTy, hs, hs', Option.map_some, Option.getD_some, Symbol.callType]
  have hsub := hg.ty
  split
  · exact .inl rfl
  · rename_i hempty
    split
    · rename_i hempty'
      have hnever : s'.ty = .never := by simpa [Ty.isEmpty] using hempty'
      rw [hnever] at hsub
      exact absurd (by rw [Ty.eq_never_of_subset hsub]; rfl) hempty
    · exact .inr hsub

end SymbolTable

open Checker

section

variable {V : String → Prop}

theorem operandTarget?_cases {P : BinOp → Expr → Expr → Prop} {ty : Ty} {left right : Expr}
    (h : op.isArithmetic = true → ty = .float → P op left right) :
    operandTarget? op ty = none ∨ operandTarget? op ty = some .float ∧ P op left right ∨
      operandTarget? op ty = some .string ∧ op = .concat := by
  unfold operandTarget?
  split
  · exact .inr (.inr ⟨rfl, ‹_›⟩)
  · split
    · rename_i hfloat
      exact .inr (.inl ⟨rfl, h hfloat.1 hfloat.2⟩)
    · exact .inl rfl

/-- What the checked expression is under the tables of that moment and every later one. -/
structure Expr.Passed (e : Expr) (scope : Option String) (v : Ty × Expr) (t : SymbolTable) :
    Prop where
  cast : e.Cast (t.Justifies scope) v.2
  kinds : v.1.numericKinds = .float → e.FloatKinds (TypeEnv.ofScope t scope)

/-- An operation on checked operands: if its type is float, so are the kinds of an operand. -/
theorem Expr.floats_binary {left right : Expr} {b : Ty} {env : TypeEnv}
    (hop : op.isArithmetic = true) (ha : a.numericKinds ≠ .never) (hb : b.numericKinds ≠ .never)
    (hty : op.resultTy a b = .float) (hl : a.numericKinds = .float → left.FloatKinds env)
    (hr : b.numericKinds = .float → right.FloatKinds env) :
    (Expr.binary op left right).Floats env := by
  by_cases hdiv : op = .div
  · subst hdiv
    exact .inl rfl
  · refine Expr.FloatKinds.binary hop hdiv ?_
    have harith : op.resultTy a b = a.arithmetic b := by
      cases op <;> first | rfl | exact absurd rfl hdiv | cases hop
    obtain h | h := Ty.eq_float_of_arithmetic ha hb (harith ▸ hty)
    · exact .inl (hl h)
    · exact .inr (hr h)

/-- What the walk converted it had a reason for that holds under every later table. -/
theorem Expr.Walked.passed {es : List Expr} {vs : List (Ty × Expr)} (h : Expr.Walked c es vs c')
    (hvalued : c.table.Valued V) (hgrows : c'.table.Grows t) :
    List.Forall₂ (fun e v => e.Passed c.scope v t) es vs := by
  induction h with
  | nil => exact .nil
  | constant _ k => exact .cons ⟨.constant k, .inl⟩ .nil
  | var _ hty =>
    refine .cons ⟨.var _, fun hkinds => ?_⟩ .nil
    have hsub := hgrows.varTy (SymbolTable.var_of_varTy? hty)
    rw [SymbolTable.varTy_ofScope hty] at hsub
    exact (Ty.numericKinds_of_subset hsub hkinds).imp id fun hboth => ⟨hboth, .var hboth⟩
  | cons h _ hrest ih ihrest =>
    obtain ⟨hfirst, _⟩ := List.forall₂_cons.mp (ih hvalued (hrest.onward.table.trans hgrows))
    have hothers := ihrest (hvalued.of_agrees h.stays.1.agrees) hgrows
    rw [h.onward.scope] at hothers
    exact .cons hfirst hothers
  | @binary c _ _ op left right l r hl hr hvoid hstring ihl ihr =>
    have hvalued1 := hvalued.of_agrees hl.stays.1.agrees
    obtain ⟨⟨hcastl, hkl⟩, _⟩ := List.forall₂_cons.mp (ihl hvalued (hr.onward.table.trans hgrows))
    have hpassed := ihr hvalued1 hgrows
    rw [hl.onward.scope] at hpassed
    obtain ⟨⟨hcastr, hkr⟩, _⟩ := List.forall₂_cons.mp hpassed
    have hfloats : op.isArithmetic = true → op.resultTy l.1 r.1 = .float →
        (Expr.binary op left right).Floats (TypeEnv.ofScope t c.scope) := by
      intro harith hfloat
      obtain ⟨hsl, hsr⟩ := hstring harith
      have hvl := (hl.isValue hvalued l (.head _)).resolve_left hvoid.1
      have hvr := (hr.isValue hvalued1 r (.head _)).resolve_left hvoid.2
      exact Expr.floats_binary harith (Ty.numericKinds_ne_never hvl hsl)
        (Ty.numericKinds_ne_never hvr hsr) hfloat hkl hkr
    have hall := Expr.Walked.binary hl hr hvoid hstring
    refine .cons ⟨.binary hcastl hcastr (operandTarget?_cases fun harith hfloat => ?_),
      fun hk => ?_⟩ .nil
    · exact ⟨harith, ⟨_, hall.onward.table.trans hgrows, hall.infer.symm.trans hfloat⟩,
        hfloats harith hfloat⟩
    · obtain ⟨harith, hfloat⟩ := Ty.eq_float_of_binary hk
      exact (hfloats harith hfloat).kinds
  | @unary _ _ op _ v h hvoid hstring ih =>
    obtain ⟨⟨hcast, hkinds⟩, _⟩ := List.forall₂_cons.mp (ih hvalued hgrows)
    refine .cons ⟨.unary hcast, fun hk => ?_⟩ .nil
    cases op with
    | not =>
      have hk : Ty.int.numericKinds = .float := hk
      exact absurd hk (by decide)
    | negate =>
      have hvalue := (h.isValue hvalued v (.head _)).resolve_left hvoid
      have hfloat := (Ty.numericKinds_arithmetic .int v.1).symm.trans hk
      obtain hint | hk := Ty.eq_float_of_arithmetic (by decide)
        (Ty.numericKinds_ne_never hvalue (hstring rfl)) hfloat
      · exact absurd hint (by decide)
      · exact (hkinds hk).negate
  | @call _ c1 _ name _ _ _ hargs hcall ih =>
    obtain ⟨rfl, callee, hcallee, rfl⟩ := call_eq_ok hcall
    have hgrows := (SymbolTable.grows_markCalled _ name).trans hgrows
    have hcasts := (ih hvalued hgrows).imp fun _ _ h => h.cast
    refine .cons ⟨.call (List.forall₂_map_right_iff.mpr hcasts), fun hk => ?_⟩ .nil
    have hty : callee.callType = c1.table.callTy name := by
      rw [SymbolTable.callTy, hcallee]
      rfl
    unfold Expr.FloatKinds
    simp only [Expr.infer, SymbolTable.callTy_ofScope]
    obtain hany | hsub := hgrows.callTy hcallee
    · have hk : Ty.any.numericKinds = .float := hany ▸ hty ▸ hk
      exact absurd hk (by decide)
    · have hk : (c1.table.callTy name).numericKinds = .float := hty ▸ hk
      refine (Ty.numericKinds_of_subset hsub hk).imp id fun hboth => ⟨hboth, .call ?_⟩
      rw [SymbolTable.callTy_ofScope]
      exact hboth

/-! ## The walk over statements -/

theorem Expr.Walked.cast (h : Expr.Walked c [e] [v] c') (hready : c.Ready V)
    (hgrows : c'.table.Grows t) : e.Cast (t.Justifies c.scope) v.2 :=
  (List.forall₂_cons.mp (h.passed hready.valued hgrows)).1.cast

theorem Stmt.Cast.inside {P : BinOp → Expr → Expr → Prop} {body' : List Stmt}
    (h : (Stmt.block body).Cast P (.block body')) : List.Forall₂ (Stmt.Cast P) body body' := by
  cases h with | block h => exact h

/-- A statement that is checked keeps the walk ready, and is converted with a reason. -/
theorem Stmt.Walked.passes (h : Stmt.Walked c s s' c') (hready : c.Ready V) :
    c.Leads V c' ∧ ∀ {t : SymbolTable}, c'.table.Grows t → s.Cast (t.Justifies c.scope) s' := by
  induction h with
  | assign hx he hvoid h =>
    have hleads1 := leads_walked he hready
    have hleads2 := leads_assigned hleads1.ready hx (isValue_walked hready he hvoid) h
    exact ⟨hleads1.trans hleads2,
      fun hgrows => .assign (he.cast hready (hleads2.onward.table.trans hgrows))⟩
  | expr he => exact ⟨leads_walked he hready, fun hgrows => .expr (he.cast hready hgrows)⟩
  | retNone h => exact ⟨leads_returned hready h Ty.isValue_null, fun _ => .ret .none⟩
  | ret he hvoid h =>
    have hleads1 := leads_walked he hready
    have hleads2 := leads_returned hleads1.ready h (isValue_walked hready he hvoid)
    exact ⟨hleads1.trans hleads2,
      fun hgrows => .ret (.some (he.cast hready (hleads2.onward.table.trans hgrows)))⟩
  | nil => exact ⟨.refl hready, fun _ => .block .nil⟩
  | cons _ _ ih ihrest =>
    obtain ⟨hleads1, hcast⟩ := ih hready
    obtain ⟨hleads2, hcasts⟩ := ihrest hleads1.ready
    rw [hleads1.onward.scope] at hcasts
    exact ⟨hleads1.trans hleads2, fun hgrows =>
      .block (.cons (hcast (hleads2.onward.table.trans hgrows)) (hcasts hgrows).inside)⟩
  | ifThen he _ ih =>
    have hleads1 := leads_walked he hready
    obtain ⟨hleads2, hcast⟩ := ih hleads1.ready
    rw [hleads1.onward.scope] at hcast
    exact ⟨hleads1.trans hleads2, fun hgrows =>
      .ifElse (he.cast hready (hleads2.onward.table.trans hgrows)) (hcast hgrows).inside .none⟩
  | ifElse he _ _ ih ihother =>
    have hleads1 := leads_walked he hready
    obtain ⟨hleads2, hcast⟩ := ih hleads1.ready
    obtain ⟨hleads3, hcast'⟩ := ihother hleads2.ready
    rw [(hleads1.trans hleads2).onward.scope] at hcast'
    rw [hleads1.onward.scope] at hcast
    refine ⟨(hleads1.trans hleads2).trans hleads3, fun hgrows => ?_⟩
    have hgrows3 := hleads3.onward.table.trans hgrows
    exact .ifElse (he.cast hready (hleads2.onward.table.trans hgrows3)) (hcast hgrows3).inside
      (.some (hcast' hgrows).inside)
  | whileLoop he _ ih =>
    have hleads1 := leads_walked he hready
    obtain ⟨hleads2, hcast⟩ := ih hleads1.ready
    rw [hleads1.onward.scope] at hcast
    exact ⟨hleads1.trans hleads2, fun hgrows =>
      .whileLoop (he.cast hready (hleads2.onward.table.trans hgrows)) (hcast hgrows).inside⟩

/-! ## The walk over programs -/

/-- The functions of the list are known, and those without a declared type are not void. -/
def FunctionsReady (V : String → Prop) (t : SymbolTable) (body : List Stmt) : Prop :=
  ∀ name params declared b, Stmt.function name params declared b ∈ body →
    (∃ s, t.find? name = some s ∧ s.isFunction = true) ∧ (declared = none → ¬ V name)

theorem FunctionsReady.grows (h : FunctionsReady V t body) (hgrows : t.Grows t') :
    FunctionsReady V t' body := by
  intro name params declared b hmem
  obtain ⟨⟨s, hs, hfun⟩, hopen⟩ := h name params declared b hmem
  obtain ⟨s', hs', hg⟩ := hgrows.symbols hs
  exact ⟨⟨s', hs', hg.isFunction.trans hfun⟩, hopen⟩

theorem Stmt.passes_function {params : List Param} {declared : Option Ty}
    (hspelled : ∀ s ∈ body, s.Over .spelled) (hready : c.Ready V) (hscope : c.scope = none)
    (hknown : ∃ s, c.table.find? name = some s ∧ s.isFunction = true)
    (hopen : declared = none → ¬ V name)
    (h : (Stmt.function name params declared body).check c = .ok s' c') :
    c.Onward c' ∧ c'.Ready V ∧ ∀ {t : SymbolTable}, c'.table.Grows t →
      (Stmt.function name params declared body).CastTop t.Justifies s' := by
  obtain ⟨hon, _⟩ := (checks_function hscope hknown fun s hs => ⟨_, hspelled s hs⟩).of_ok h
  obtain ⟨body', c1, rfl, hbody, hleave⟩ := Stmt.walked_function hspelled h
  obtain ⟨hleads, hcast⟩ := hbody.passes (hready.enter hknown hopen)
  have hgrows2 := ((checks_leave name declared hscope hleads.onward.table).of_ok hleave).2
  exact ⟨hon, hleads.ready.leave hopen hleave,
    fun hgrows => .function (hcast (hgrows2.trans hgrows)).inside⟩

/-- A statement of the top level. -/
theorem Stmt.passes_top (hspelled : s.OverTop .spelled) (hready : c.Ready V)
    (hscope : c.scope = none) (hfunctions : FunctionsReady V c.table [s])
    (h : s.check c = .ok s' c') :
    c.Onward c' ∧ c'.Ready V ∧
      ∀ {t : SymbolTable}, c'.table.Grows t → s.CastTop t.Justifies s' := by
  cases hspelled with
  | stmt hover =>
    obtain ⟨hleads, hcast⟩ := (Stmt.walked hover h).passes hready
    refine ⟨hleads.onward, hleads.ready, fun hgrows => .stmt ?_⟩
    rw [← hscope]
    exact hcast hgrows
  | function hh hb =>
    obtain ⟨hknown, hopen⟩ := hfunctions _ _ _ _ (.head _)
    exact Stmt.passes_function hb hready hscope hknown hopen h

theorem FunctionsReady.head (h : FunctionsReady V t (s :: rest)) : FunctionsReady V t [s] :=
  fun _ _ _ _ hmem => h _ _ _ _ (List.mem_cons.mpr (.inl (List.mem_singleton.mp hmem)))

theorem FunctionsReady.tail (h : FunctionsReady V t (s :: rest)) : FunctionsReady V t rest :=
  fun _ _ _ _ hmem => h _ _ _ _ (.tail s hmem)

theorem Stmt.passes_toplevel (hspelled : ∀ s ∈ body, s.OverTop .spelled) :
    ∀ {c c' : Checker} {body' : List Stmt}, c.Ready V → c.scope = none →
      FunctionsReady V c.table body → Stmt.checkList body c = .ok body' c' →
      c.Onward c' ∧ ∀ {t : SymbolTable}, c'.table.Grows t →
        List.Forall₂ (Stmt.CastTop t.Justifies) body body' := by
  induction body with
  | nil =>
    intro c c' body' _ _ _ h
    cases h
    exact ⟨.refl c, fun _ => .nil⟩
  | cons s rest ih =>
    intro c c' body' hready hscope hfunctions h
    obtain ⟨s', c1, hs, h⟩ := bind_eq_ok.mp h
    obtain ⟨rest', c2, hrest, h⟩ := bind_eq_ok.mp h
    cases h
    obtain ⟨hon1, hready1, hcast⟩ :=
      Stmt.passes_top (hspelled s (.head _)) hready hscope hfunctions.head hs
    obtain ⟨hon2, hcasts⟩ := ih (fun u hu => hspelled u (.tail s hu)) hready1
      (hon1.scope.trans hscope) (hfunctions.tail.grows hon1.table) hrest
    exact ⟨hon1.trans hon2, fun hgrows => .cons (hcast (hon2.table.trans hgrows)) (hcasts hgrows)⟩

end

/-- The checker before the walk, its functions declared. -/
theorem Stmt.checkProgram_ready {body' : List Stmt} (hspelled : ∀ s ∈ body, s.OverTop .spelled)
    (hrun : Stmt.checkProgram body (Checker.start .builtins) = .ok body' c) :
    ∃ V c1, SymbolTable.builtins.Hoists c1.table body ∧ c1.Ready V ∧ c1.scope = none ∧
      FunctionsReady V c1.table body ∧ Stmt.checkList body c1 = .ok body' c := by
  obtain ⟨_, c1, hhoist, hlist⟩ := bind_eq_ok.mp hrun
  obtain ⟨henc, h⟩ := (Checker.meets_hoist body _).of_ok hhoist
  refine ⟨fun x => c1.table.varTy? none x = some .void, c1, h,
    ⟨fun f hf => ?_, h.valued hspelled, fun f hf => ?_⟩, Checker.scope_eq henc, ?_, hlist⟩
  · cases henc.symm.trans hf
  · unfold Checker.openFunction at hf
    rw [henc] at hf
    cases hf
  · intro name params declared b hmem
    obtain ⟨s, hs, hfun, _, _, hty, _⟩ := (h.head name params declared b hmem).symbol
    refine ⟨⟨s, hs, hfun⟩, ?_⟩
    rintro rfl hvoid
    rw [SymbolTable.varTy?_none, hs, Option.map_some, hty] at hvoid
    exact absurd hvoid (by decide)

theorem Stmt.checkProgram_cast {body' : List Stmt} (hspelled : ∀ s ∈ body, s.OverTop .spelled)
    (hrun : Stmt.checkProgram body (Checker.start .builtins) = .ok body' c)
    (hgrows : c.table.Grows t) : List.Forall₂ (Stmt.CastTop t.Justifies) body body' := by
  obtain ⟨V, c1, _, hready, hscope, hfunctions, hlist⟩ := Stmt.checkProgram_ready hspelled hrun
  exact (Stmt.passes_toplevel hspelled hready hscope hfunctions hlist).2 hgrows

/-- Every int literal that analysis replaces by a float is an operand of an arithmetic operation
that had the type float when the walk passed it.  Under the final tables, with the literal in place,
the type of the operation is float, or int or float because it reads a name that admits both. -/
theorem analyze_casts {source : String} {checked : Checked}
    (h : analyze false source = .ok checked) :
    ∃ program tree body, parseSource source = .ok program ∧ program.tree? = some tree ∧
      checked.program.tree? = some body ∧
      List.Forall₂ (Stmt.CastTop fun scope op left right => op.isArithmetic = true ∧
        (∃ t, SymbolTable.Grows t checked.table ∧
          (Expr.binary op left right).infer (TypeEnv.ofScope t scope) = .float) ∧
        (Expr.binary op left right).Floats (TypeEnv.ofScope checked.table scope)) tree body := by
  obtain ⟨program, tree, body, c, hparse, hholds, hspelled, hrun, hfrom⟩ := analyze_eq_ok h
  have hgrows := (Stmt.checkedInto hspelled hrun).grows
  rw [← hfrom.table] at hgrows
  exact ⟨program, tree, body, hparse, hholds.tree?_eq, hfrom.holds.tree?_eq,
    Stmt.checkProgram_cast hspelled hrun hgrows⟩

/-- The literal `1` becomes a float although `$a` comes to admit ints, so that the sum with the int
would be an int or a float. -/
theorem analyze_casts_widened :
    let source := "<?php $a = 1.5; $b = $a + 1; $a = 2;"
    ∃ checked, analyze false source = .ok checked ∧
      checked.program.arena.node 4 = .float 1.0 ∧
      (Expr.binary .add (.var "$a") (.constant (.int 1))).infer (.toplevel checked.table) =
        .int ∪ .float ∧
      ∃ program tree body, parseSource source = .ok program ∧ program.tree? = some tree ∧
        checked.program.tree? = some body ∧
        List.Forall₂ (Stmt.CastTop fun scope op left right => op.isArithmetic = true ∧
          (∃ t, SymbolTable.Grows t checked.table ∧
            (Expr.binary op left right).infer (TypeEnv.ofScope t scope) = .float) ∧
          (Expr.binary op left right).Floats (TypeEnv.ofScope checked.table scope)) tree body := by
  intro source
  obtain ⟨checked, h, hnode, hty⟩ : ∃ checked, analyze false source = .ok checked ∧
      checked.program.arena.node 4 = .float 1.0 ∧
      (Expr.binary .add (.var "$a") (.constant (.int 1))).infer (.toplevel checked.table) =
        .int ∪ .float := by decide +kernel
  exact ⟨checked, h, hnode, hty, analyze_casts h⟩

end Ifj22
