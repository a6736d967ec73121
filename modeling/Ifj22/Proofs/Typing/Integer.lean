import Ifj22.Proofs.Typing.Walk
set_option autoImplicit false

/-!
# Typing: integer programs

A program is an integer program if its constants are ints, it has no operator whose result may be
anything else, its functions take and yield ints, and it calls no built-in function but `write`, as
a statement.  The checker leaves the tree of an integer program as it is, and in the table of an
analyzed one every variable and every function has the type int, and nothing else
(`SymbolTable.Integer`).
-/

namespace Ifj22

variable {args : List Expr} {body : List Stmt} {op : BinOp} {name : String} {t t' : SymbolTable}
  {c : Checker} {e : Expr}

/-! ## Integer trees -/

/-- No built-in function has the name. -/
def SymbolTable.isFree (name : String) : Bool := (SymbolTable.builtins.find? name).isNone

mutual

/-- The expression computes with ints only. -/
def Expr.isInteger : Expr → Bool
  | .constant (.int _) => true
  | .constant _ => false
  | .var _ => true
  | .binary op left right => op != .div && op != .concat && left.isInteger && right.isInteger
  | .unary _ operand => operand.isInteger
  | .call name args => SymbolTable.isFree name && Expr.allInteger args

def Expr.allInteger : List Expr → Bool
  | [] => true
  | e :: rest => e.isInteger && Expr.allInteger rest

end

/-- The expression stands as a statement of an integer program. -/
def Expr.isIntegerStmt : Expr → Bool
  | .call name args => (name == "write" || SymbolTable.isFree name) && Expr.allInteger args
  | e => e.isInteger

mutual

/-- The statement computes with ints only. -/
def Stmt.isInteger : Stmt → Bool
  | .assign _ value => value.isInteger
  | .expr value => value.isIntegerStmt
  | .ret none => true
  | .ret (some value) => value.isInteger
  | .block body => Stmt.allInteger body
  | .ifElse cond thenBody none => cond.isInteger && Stmt.allInteger thenBody
  | .ifElse cond thenBody (some elseBody) =>
    cond.isInteger && Stmt.allInteger thenBody && Stmt.allInteger elseBody
  | .whileLoop cond body => cond.isInteger && Stmt.allInteger body
  | .function _ params declared body =>
    params.all (·.ty == .int) && declared == some .int && Stmt.allInteger body

def Stmt.allInteger : List Stmt → Bool
  | [] => true
  | s :: rest => s.isInteger && Stmt.allInteger rest

end

theorem Expr.allInteger_iff : Expr.allInteger args = true ↔ ∀ e ∈ args, e.isInteger = true := by
  induction args with
  | nil => simp [Expr.allInteger]
  | cons e rest ih => rw [Expr.allInteger, Bool.and_eq_true, ih, List.forall_mem_cons]

theorem Stmt.allInteger_iff : Stmt.allInteger body = true ↔ ∀ s ∈ body, s.isInteger = true := by
  induction body with
  | nil => simp [Stmt.allInteger]
  | cons s rest ih => rw [Stmt.allInteger, Bool.and_eq_true, ih, List.forall_mem_cons]

theorem Expr.isInteger_constant {c : Constant} (h : (Expr.constant c).isInteger = true) :
    ∃ n, c = .int n := by
  cases c with
  | int n => exact ⟨n, rfl⟩
  | _ => cases h

theorem Expr.isInteger_binary {left right : Expr} :
    (Expr.binary op left right).isInteger = true ↔
      (op ≠ .div ∧ op ≠ .concat) ∧ left.isInteger = true ∧ right.isInteger = true := by
  simp [Expr.isInteger, and_assoc]

theorem Expr.isInteger_call :
    (Expr.call name args).isInteger = true ↔
      SymbolTable.isFree name = true ∧ ∀ e ∈ args, e.isInteger = true := by
  rw [Expr.isInteger, Bool.and_eq_true, Expr.allInteger_iff]

theorem Stmt.isInteger_function {params : List Param} {declared : Option Ty} :
    (Stmt.function name params declared body).isInteger = true ↔
      (∀ p ∈ params, p.ty = .int) ∧ declared = some .int ∧ ∀ s ∈ body, s.isInteger = true := by
  simp [Stmt.isInteger, Stmt.allInteger_iff, and_assoc]

/-! ## Integer tables -/

/-- Every name but those of built-in functions has the type int, and of these only `write` has been
called. -/
structure SymbolTable.Integer (t : SymbolTable) : Prop where
  symbols : ∀ {name s}, t.find? name = some s → s.builtin = false → s.ty = .int
  locals : ∀ {function name s}, t.local? function name = some s → s.ty = .int
  builtins : ∀ {name s}, t.find? name = some s → s.builtin = true →
    SymbolTable.isFree name = false ∧ (s.called = true → name = "write")

namespace SymbolTable

theorem Integer.of_same (h : t.Integer)
    (hsymbols : ∀ x, (t'.find? x).map (fun s => (s.builtin, s.ty, s.called)) =
      (t.find? x).map fun s => (s.builtin, s.ty, s.called))
    (hlocals : ∀ {function name s}, t'.local? function name = some s → s.ty = .int) :
    t'.Integer := by
  have hsame : ∀ {x s'}, t'.find? x = some s' → ∃ s, t.find? x = some s ∧
      (s'.builtin, s'.ty, s'.called) = (s.builtin, s.ty, s.called) := by
    intro x s' hs'
    have hx := hsymbols x
    rw [hs', Option.map_some] at hx
    obtain ⟨s, hs, hview⟩ := Option.map_eq_some_iff.mp hx.symm
    exact ⟨s, hs, hview.symm⟩
  refine ⟨fun hs' hbuiltin => ?_, hlocals, fun hs' hbuiltin => ?_⟩
  all_goals
    obtain ⟨s, hs, hview⟩ := hsame hs'
    simp only [Prod.mk.injEq] at hview
    obtain ⟨hb, hty, hc⟩ := hview
    rw [hb] at hbuiltin
  · rw [hty]
    exact h.symbols hs hbuiltin
  · rw [hc]
    exact h.builtins hs hbuiltin

/-- The table of the built-in functions. -/
theorem integer_builtins : SymbolTable.builtins.Integer := by
  have hmem : ∀ {name s}, SymbolTable.builtins.find? name = some s →
      ∃ b ∈ builtinList, b.symbol = s := by
    intro name s hs
    exact List.mem_map.mp (List.mem_of_find?_eq_some hs)
  refine ⟨fun hs hbuiltin => ?_, fun hs => ?_, fun hs _ => ⟨?_, fun hcalled => ?_⟩⟩
  · obtain ⟨b, _, rfl⟩ := hmem hs
    cases hbuiltin
  · obtain ⟨l, hl, _⟩ := Option.bind_eq_some_iff.mp hs
    obtain ⟨s, hs, hlocals⟩ := Option.bind_eq_some_iff.mp hl
    obtain ⟨b, _, rfl⟩ := hmem hs
    cases hlocals
  · rw [isFree, hs]
    rfl
  · obtain ⟨b, _, rfl⟩ := hmem hs
    cases hcalled

/-- The functions of an integer program take and yield ints. -/
theorem Hoists.integer (h : t.Hoists t' body) (ht : t.Integer)
    (hbody : ∀ s ∈ body, s.isInteger = true) : t'.Integer := by
  have hhead : ∀ {x}, x ∈ body.filterMap Stmt.functionName? → ∃ params,
      (∀ p ∈ params, p.ty = .int) ∧ t'.Head x params (some .int) := by
    intro x hx
    obtain ⟨s, hs, hname⟩ := List.mem_filterMap.mp hx
    cases s with
    | function name params declared b =>
      cases hname
      obtain ⟨hparams, rfl, _⟩ := Stmt.isInteger_function.mp (hbody _ hs)
      exact ⟨params, hparams, h.head _ _ _ _ hs⟩
    | _ => cases hname
  refine ⟨fun {x s} hs hbuiltin => ?_, fun {f x s} hs => ?_, fun {x s} hs hbuiltin => ?_⟩
  · by_cases hx : x ∈ body.filterMap Stmt.functionName?
    · obtain ⟨params, _, hhead⟩ := hhead hx
      obtain ⟨s', hs', _, _, _, hty, _⟩ := hhead.symbol
      cases hs.symm.trans hs'
      exact hty
    · rw [h.others x hx] at hs
      exact ht.symbols hs hbuiltin
  · by_cases hf : f ∈ body.filterMap Stmt.functionName?
    · obtain ⟨params, hparams, hhead⟩ := hhead hf
      have hlocal := hhead.locals x
      rw [hs, Option.map_some] at hlocal
      obtain ⟨p, hp, hview⟩ := Option.map_eq_some_iff.mp hlocal.symm
      rw [← (Prod.mk.injEq .. ▸ hview : p.ty = s.ty ∧ _).1]
      exact hparams p (List.mem_of_find?_eq_some hp)
    · have hs' : t.local? f x = some s := by
        unfold local? locals? at hs ⊢
        rwa [h.others f hf] at hs
      exact ht.locals hs'
  · by_cases hx : x ∈ body.filterMap Stmt.functionName?
    · obtain ⟨params, _, hhead⟩ := hhead hx
      obtain ⟨s', hs', _, hfalse, _⟩ := hhead.symbol
      cases hs.symm.trans hs'
      rw [hfalse] at hbuiltin
      cases hbuiltin
    · rw [h.others x hx] at hs
      exact ht.builtins hs hbuiltin

theorem Integer.markCalled (h : t.Integer) (hname : name = "write" ∨ isFree name = true) :
    (t.markCalled name).Integer := by
  have hfind := t.find?_markCalled name
  refine ⟨fun {x s} hs hbuiltin => ?_, fun {f x s} hs => ?_, fun {x s} hs hbuiltin => ?_⟩
  · rw [hfind] at hs
    split at hs
    · obtain ⟨s', hs', rfl⟩ := Option.map_eq_some_iff.mp hs
      exact (h.symbols hs' hbuiltin : s'.ty = .int)
    · exact h.symbols hs hbuiltin
  · have hs' : t.local? f x = some s := by
      unfold local? locals? at hs ⊢
      rw [hfind] at hs
      split at hs
      · rw [← hs]
        cases t.find? f <;> rfl
      · exact hs
    exact h.locals hs'
  · rw [hfind] at hs
    split at hs
    · rename_i hx
      obtain ⟨s', hs', rfl⟩ := Option.map_eq_some_iff.mp hs
      obtain ⟨hfree, _⟩ := h.builtins hs' hbuiltin
      refine ⟨hfree, fun _ => ?_⟩
      rcases hname with hname | hname
      · rw [hx, hname]
      · rw [hx, hname] at hfree
        cases hfree
    · exact h.builtins hs hbuiltin

theorem union_int {ty : Ty} (h : ty = .int ∨ ty = .never) : ty ∪ Ty.int = .int := by
  rcases h with rfl | rfl <;> decide

/-- Assigning an int to a variable of the top level. -/
theorem Integer.declare (h : t.Integer) (hname : isFree name = true) :
    Integer (Table.declare t name .int) := by
  have hfind := Table.find?_declare t name .int
  refine ⟨fun {x s} hs hbuiltin => ?_, fun {f x s} hs => ?_, fun {x s} hs hbuiltin => ?_⟩
  · rw [hfind] at hs
    split at hs
    · cases hs
      refine union_int ?_
      cases hold : t.find? name with
      | none => exact .inr rfl
      | some s =>
        rw [hold] at hbuiltin
        exact .inl (h.symbols hold hbuiltin)
    · exact h.symbols hs hbuiltin
  · have hs' : t.local? f x = some s := by
      unfold local? locals? at hs ⊢
      rw [hfind] at hs
      split at hs
      · rename_i hf
        subst hf
        rw [← hs]
        cases t.find? f <;> rfl
      · exact hs
    exact h.locals hs'
  · rw [hfind] at hs
    split at hs
    · rename_i hx
      cases hs
      cases hold : t.find? name with
      | none =>
        rw [hold] at hbuiltin
        cases hbuiltin
      | some s =>
        rw [hold] at hbuiltin
        obtain ⟨hfree, _⟩ := h.builtins hold hbuiltin
        rw [hname] at hfree
        cases hfree
    · exact h.builtins hs hbuiltin

/-- Assigning an int to a variable of a function. -/
theorem Integer.declareLocal? (h : t.Integer) {function : String}
    (ht' : t.declareLocal? function name .int = some t') : t'.Integer := by
  obtain ⟨_, heq⟩ := modifyLocals?_eq_some ht'
  refine h.of_same (fun x => ?_) fun {f x s} hs => ?_
  · rw [heq, Table.map_find?_modify]
    · exact fun _ => rfl
    · exact fun _ => rfl
  · rw [local?_modifyLocals? ht'] at hs
    split at hs
    · rw [Table.find?_declare, ← local?_eq, ← local?_eq] at hs
      split at hs
      · cases hs
        refine union_int ?_
        cases hold : t.local? function name with
        | none => exact .inr rfl
        | some s => exact .inl (h.locals hold)
      · exact h.locals hs
    · exact h.locals hs

theorem isFree_of_isVarName (h : IsVarName name.toList) : isFree name = true := by
  unfold isFree
  cases hfind : SymbolTable.builtins.find? name with
  | none => rfl
  | some s =>
    obtain ⟨b, hb, rfl⟩ := List.mem_map.mp (List.mem_of_find?_eq_some hfind)
    rw [← Table.find?_name hfind] at h
    have hdollar : ∀ b ∈ builtinList, b.name.toList.head? ≠ some '$' := by decide
    refine absurd ?_ (hdollar b hb)
    replace h : IsVarName b.name.toList := h
    cases hname : b.name.toList with
    | nil =>
      rw [hname] at h
      exact h.elim
    | cons c rest =>
      rw [hname] at h
      rw [h.1]
      rfl

/-- A name that is known and free has the type int. -/
theorem Integer.ty_of_isFree (h : t.Integer) {s : Symbol (Option LocalTable)}
    (hs : t.find? name = some s) (hfree : isFree name = true) : s.ty = .int := by
  cases hbuiltin : s.builtin with
  | false => exact h.symbols hs hbuiltin
  | true =>
    obtain ⟨hnot, _⟩ := h.builtins hs hbuiltin
    rw [hfree] at hnot
    cases hnot

/-- A variable of an integer program has the type int. -/
theorem Integer.varTy (h : t.Integer) {scope : Option String} {x : String}
    (hspelled : IsVarName x.toList) {ty : Ty} (hty : t.varTy? scope x = some ty) : ty = .int := by
  cases scope with
  | none =>
    obtain ⟨s, hs, rfl⟩ := Option.map_eq_some_iff.mp hty
    exact h.ty_of_isFree hs (isFree_of_isVarName hspelled)
  | some f =>
    obtain ⟨s, hs, rfl⟩ := Option.map_eq_some_iff.mp hty
    exact h.locals hs

theorem callType_of_int {Locals : Type} {s : Symbol Locals} (h : s.ty = .int) :
    s.callType = .int := by
  unfold Symbol.callType
  rw [h]
  decide

end SymbolTable

/-! ## Checking -/

namespace Checker

/-- What an integer program has checked so far: an integer table, and a function with a declared
type around the walk, if there is one. -/
structure Integer (c : Checker) : Prop where
  table : c.table.Integer
  declared : ∀ f, c.enclosing = some f → f.declared.isSome = true

theorem Integer.of_table {c' : Checker} (h : c.Integer) (ht : c'.table.Integer)
    (henc : c'.enclosing = c.enclosing) : c'.Integer :=
  ⟨ht, fun f hf => h.declared f (henc ▸ hf)⟩

variable {c' : Checker}

theorem Integer.call (hc : c.Integer) (hname : name = "write" ∨ SymbolTable.isFree name = true)
    {tys : List Ty} {ty : Ty} (h : Checker.call name tys c = .ok ty c') :
    c'.Integer ∧ (SymbolTable.isFree name = true → ty = .int) := by
  obtain ⟨rfl, callee, hcallee, rfl⟩ := call_eq_ok h
  refine ⟨hc.of_table (hc.table.markCalled hname) rfl, fun hfree => ?_⟩
  exact SymbolTable.callType_of_int (hc.table.ty_of_isFree hcallee hfree)

theorem Integer.assigned (hc : c.Integer) (hname : IsVarName name.toList)
    (h : Checker.assigned name .int c = .ok () c') : c'.Integer := by
  obtain ⟨henc, ⟨_, htable⟩ | ⟨f, _, htable⟩⟩ := assigned_eq_ok h
  · refine hc.of_table ?_ henc
    rw [htable]
    exact hc.table.declare (SymbolTable.isFree_of_isVarName hname)
  · exact hc.of_table (hc.table.declareLocal? htable) henc

theorem Integer.returned (hc : c.Integer) {ty : Option Ty}
    (h : Checker.returned ty c = .ok () c') : c'.Integer := by
  obtain ⟨henc, htable⟩ := returned_eq_ok h
  cases hold : c.enclosing with
  | none =>
    rw [hold] at henc htable
    exact hc.of_table (htable ▸ hc.table) (henc.trans hold.symm)
  | some f =>
    have hdeclared := hc.declared f hold
    obtain ⟨f, declared, seen⟩ := f
    rw [hold] at henc htable
    cases declared with
    | none => cases hdeclared
    | some declared =>
      refine ⟨htable ▸ hc.table, ?_⟩
      rw [henc]
      rintro _ ⟨⟩
      rfl

end Checker

theorem BinOp.resultTy_int (h : op ≠ .div ∧ op ≠ .concat) : op.resultTy .int .int = .int := by
  revert h
  cases op <;> decide

theorem UnaryOp.resultTy_int (op : UnaryOp) : op.resultTy .int = .int := by
  cases op <;> decide

/-- An operation on ints converts no operands. -/
theorem BinOp.operandTarget?_int (h : op ≠ .div ∧ op ≠ .concat) :
    Checker.operandTarget? op .int = none := by
  revert h
  cases op <;> decide

open Checker

variable {c' : Checker} {v : Ty × Expr}

/-- Nothing is converted in an integer program, and all its types are int. -/
theorem Expr.Walked.integer_all {es : List Expr} {vs : List (Ty × Expr)}
    (h : Expr.Walked c es vs c') (hc : c.Integer) (hint : ∀ e ∈ es, e.isInteger = true) :
    c'.Integer ∧ vs = es.map fun e => (.int, e) := by
  induction h with
  | nil => exact ⟨hc, rfl⟩
  | cons _ _ _ ih ihrest =>
    obtain ⟨hinte, hintrest⟩ := List.forall_mem_cons.mp hint
    obtain ⟨hc1, ⟨⟩⟩ := ih hc (List.forall_mem_singleton.mpr hinte)
    obtain ⟨hc', rfl⟩ := ihrest hc1 hintrest
    exact ⟨hc', rfl⟩
  | constant =>
    obtain ⟨n, rfl⟩ := Expr.isInteger_constant (hint _ (.head _))
    exact ⟨hc, rfl⟩
  | var hx hty =>
    obtain rfl := hc.table.varTy hx hty
    exact ⟨hc, rfl⟩
  | binary _ _ _ _ ihl ihr =>
    obtain ⟨hop, hintl, hintr⟩ := Expr.isInteger_binary.mp (hint _ (.head _))
    obtain ⟨hc1, ⟨⟩⟩ := ihl hc (List.forall_mem_singleton.mpr hintl)
    obtain ⟨hc', ⟨⟩⟩ := ihr hc1 (List.forall_mem_singleton.mpr hintr)
    dsimp only
    rw [BinOp.resultTy_int hop, BinOp.operandTarget?_int hop]
    exact ⟨hc', rfl⟩
  | unary _ _ _ ih =>
    have hint := hint (.unary _ _) (.head _)
    obtain ⟨hc', ⟨⟩⟩ := ih hc (List.forall_mem_singleton.mpr hint)
    rw [UnaryOp.resultTy_int]
    exact ⟨hc', rfl⟩
  | call _ hcall ih =>
    obtain ⟨hfree, hargs⟩ := Expr.isInteger_call.mp (hint _ (.head _))
    obtain ⟨hc1, rfl⟩ := ih hc hargs
    obtain ⟨hc', hty⟩ := hc1.call (.inr hfree) hcall
    simp [hc', hty hfree, Function.comp_def]

/-- An integer expression has the type int and is left as it is. -/
theorem Expr.Walked.integer (h : Expr.Walked c [e] [v] c') (hc : c.Integer)
    (hint : e.isInteger = true) : c'.Integer ∧ v = (.int, e) := by
  obtain ⟨hc', hv⟩ := h.integer_all hc (List.forall_mem_singleton.mpr hint)
  exact ⟨hc', (List.cons.inj hv).1⟩

theorem Expr.isIntegerStmt_call :
    (Expr.call name args).isIntegerStmt = true ↔
      (name = "write" ∨ SymbolTable.isFree name = true) ∧ ∀ e ∈ args, e.isInteger = true := by
  rw [Expr.isIntegerStmt, Bool.and_eq_true, Expr.allInteger_iff, Bool.or_eq_true, beq_iff_eq]

/-- An integer expression as a statement is left as it is. -/
theorem Expr.Walked.integer_stmt (h : Expr.Walked c [e] [v] c') (hc : c.Integer)
    (hint : e.isIntegerStmt = true) : c'.Integer ∧ v.2 = e := by
  cases e with
  | call name args =>
    obtain ⟨hname, hargs⟩ := Expr.isIntegerStmt_call.mp hint
    obtain ⟨vs, c1, ty, hwalked, hcall, rfl⟩ := h.of_call
    obtain ⟨hc1, rfl⟩ := hwalked.integer_all hc hargs
    simp [(hc1.call hname hcall).1, Function.comp_def]
  | _ =>
    obtain ⟨hc', rfl⟩ := h.integer hc hint
    exact ⟨hc', rfl⟩

/-- An integer statement is left as it is. -/
theorem Stmt.Walked.integer {s s' : Stmt} (h : Stmt.Walked c s s' c') (hc : c.Integer)
    (hint : s.isInteger = true) : c'.Integer ∧ s' = s := by
  induction h with
  | assign hx he _ h =>
    obtain ⟨hc1, rfl⟩ := he.integer hc hint
    exact ⟨hc1.assigned hx h, rfl⟩
  | expr he =>
    obtain ⟨hc', hv⟩ := he.integer_stmt hc hint
    exact ⟨hc', congrArg Stmt.expr hv⟩
  | retNone h => exact ⟨hc.returned h, rfl⟩
  | ret he _ h =>
    obtain ⟨hc1, rfl⟩ := he.integer hc hint
    exact ⟨hc1.returned h, rfl⟩
  | nil => exact ⟨hc, rfl⟩
  | cons _ _ ih ihrest =>
    obtain ⟨hints, hintrest⟩ := Bool.and_eq_true_iff.mp hint
    obtain ⟨hc1, rfl⟩ := ih hc hints
    obtain ⟨hc', ⟨⟩⟩ := ihrest hc1 hintrest
    exact ⟨hc', rfl⟩
  | ifThen he _ ih | whileLoop he _ ih =>
    obtain ⟨hintc, hintb⟩ := Bool.and_eq_true_iff.mp hint
    obtain ⟨hc1, rfl⟩ := he.integer hc hintc
    obtain ⟨hc', ⟨⟩⟩ := ih hc1 hintb
    exact ⟨hc', rfl⟩
  | ifElse he _ _ ih ihother =>
    obtain ⟨hint, hinto⟩ := Bool.and_eq_true_iff.mp hint
    obtain ⟨hintc, hintb⟩ := Bool.and_eq_true_iff.mp hint
    obtain ⟨hc1, rfl⟩ := he.integer hc hintc
    obtain ⟨hc2, ⟨⟩⟩ := ih hc1 hintb
    obtain ⟨hc', ⟨⟩⟩ := ihother hc2 hinto
    exact ⟨hc', rfl⟩

/-- At the top level a function with a declared type is left as well. -/
theorem Stmt.check_integer {s s' : Stmt} (hspelled : s.OverTop .spelled) (hc : c.Integer)
    (hint : s.isInteger = true) (h : s.check c = .ok s' c') : c'.Integer ∧ s' = s := by
  cases hspelled with
  | stmt hover => exact (Stmt.walked hover h).integer hc hint
  | function _ hover =>
    obtain ⟨_, rfl, hintb⟩ := Stmt.isInteger_function.mp hint
    obtain ⟨body', c1, rfl, hbody, hleave⟩ := Stmt.walked_function hover h
    obtain ⟨hc1, ⟨⟩⟩ := hbody.integer ⟨hc.table, by rintro _ ⟨⟩; rfl⟩ (Stmt.allInteger_iff.mpr hintb)
    obtain ⟨henc, htable⟩ := leave_eq_ok hleave
    refine ⟨⟨htable ▸ hc1.table, fun f hf => ?_⟩, rfl⟩
    rw [henc] at hf
    cases hf

theorem Stmt.checkList_integer (hspelled : ∀ s ∈ body, s.OverTop .spelled)
    (hint : Stmt.allInteger body = true) : ∀ {c c' : Checker} {body' : List Stmt}, c.Integer →
      Stmt.checkList body c = .ok body' c' → c'.Integer ∧ body' = body := by
  induction body with
  | nil =>
    intro c c' body' hc h
    cases h
    exact ⟨hc, rfl⟩
  | cons s rest ih =>
    intro c c' body' hc h
    obtain ⟨hovers, hoverrest⟩ := List.forall_mem_cons.mp hspelled
    obtain ⟨hints, hintrest⟩ := Bool.and_eq_true_iff.mp hint
    obtain ⟨s', c1, hs, h⟩ := bind_eq_ok.mp h
    obtain ⟨_, c2, hrest, h⟩ := bind_eq_ok.mp h
    cases h
    obtain ⟨hc1, rfl⟩ := Stmt.check_integer hovers hc hints hs
    obtain ⟨hc', rfl⟩ := ih hoverrest hintrest hc1 hrest
    exact ⟨hc', rfl⟩

/-- Checking leaves an integer program as it is, and yields an integer table. -/
theorem Stmt.checkProgram_integer {body' : List Stmt} (hspelled : ∀ s ∈ body, s.OverTop .spelled)
    (hint : Stmt.allInteger body = true) (ht : t.Integer)
    (h : Stmt.checkProgram body (start t) = .ok body' c') :
    c'.table.Integer ∧ body' = body := by
  obtain ⟨_, c1, hhoist, h⟩ := bind_eq_ok.mp h
  obtain ⟨henc, hhoists⟩ := (meets_hoist body (start t)).of_ok hhoist
  have hc1 : c1.Integer := by
    refine ⟨hhoists.integer ht (Stmt.allInteger_iff.mp hint), fun f hf => ?_⟩
    rw [henc] at hf
    cases hf
  obtain ⟨hc', hsame⟩ := Stmt.checkList_integer hspelled hint hc1 h
  exact ⟨hc'.table, hsame⟩

/-! ## Settling -/

namespace SymbolTable

theorem Integer.same (h : t.Integer) (hsame : t.Same t') : t'.Integer :=
  h.of_same (fun x => by rw [hsame x]) fun hs => h.locals (hsame.local? _ _ ▸ hs)

end SymbolTable

/-- An integer expression has the type int wherever its variables and calls have. -/
theorem Expr.infer_int {env : TypeEnv} {V : Vocabulary}
    (hvar : ∀ x, V.var x → IsVarName x.toList → env.varTy x = .int)
    (hcall : ∀ name n, V.callee name n → SymbolTable.isFree name = true → env.callTy name = .int)
    (hover : e.Over V) (hspelled : e.Over .spelled) (hint : e.isInteger = true) :
    e.infer env = .int := by
  induction hover with
  | constant c =>
    obtain ⟨n, rfl⟩ := Expr.isInteger_constant hint
    rfl
  | var hx =>
    cases hspelled with
    | var hname => exact hvar _ hx hname
  | binary _ _ ihl ihr =>
    obtain ⟨hop, hintl, hintr⟩ := Expr.isInteger_binary.mp hint
    cases hspelled with
    | binary hspelledl hspelledr =>
      rw [Expr.infer, ihl hspelledl hintl, ihr hspelledr hintr]
      exact BinOp.resultTy_int hop
  | @unary op _ _ ih =>
    cases hspelled with
    | unary hspelled =>
      rw [Expr.infer, ih hspelled hint]
      exact op.resultTy_int
  | call hcallee _ _ =>
    obtain ⟨hfree, _⟩ := Expr.isInteger_call.mp hint
    exact hcall _ _ hcallee hfree

theorem SymbolTable.Integer.callTy (ht : t.Integer) {n : Nat} (hcallee : t.Callable name n)
    (hfree : SymbolTable.isFree name = true) : t.callTy name = .int := by
  obtain ⟨s, hs, _⟩ := hcallee
  have hty := SymbolTable.callType_of_int (ht.ty_of_isFree hs hfree)
  simp only [SymbolTable.callTy, hs]
  exact hty

/-- An integer expression over the names of a scope has the type int there. -/
theorem Expr.infer_integer (ht : t.Integer) {scope : Option String}
    (hover : e.Over (t.vocabulary scope)) (hspelled : e.Over .spelled) (hint : e.isInteger = true) :
    e.infer (TypeEnv.ofScope t scope) = .int := by
  refine infer_int (fun x hx hname => ?_) (fun name n hcallee hfree => ?_) hover hspelled hint
  · obtain ⟨ty, hty, hvar⟩ := SymbolTable.varTy_of_var hx
    exact hvar.trans (ht.varTy hname hty)
  · rw [SymbolTable.callTy_ofScope]
    exact ht.callTy hcallee hfree

open SymbolTable

theorem widenSymbol_integer (ht : t.Integer) (hname : IsVarName name.toList) :
    ((widenSymbol name .int).run t).1 = false := by
  show t.lacksTy name .int = false
  unfold Table.lacksTy
  cases hs : t.find? name with
  | none => rfl
  | some s =>
    simp only [ht.ty_of_isFree hs (isFree_of_isVarName hname)]
    decide

theorem widenLocal_integer (ht : t.Integer) {function : String} {s : Symbol Unit}
    (hs : t.local? function name = some s) : ((widenLocal function name .int).run t).1 = false := by
  have hty := ht.locals hs
  obtain ⟨locals, hlocals, hfind⟩ := Option.bind_eq_some_iff.mp hs
  show ((t.locals? function).map (·.lacksTy name .int)).getD false = false
  simp only [hlocals, Option.map_some, Option.getD_some, Table.lacksTy, hfind, hty]
  decide

/-- In an integer program the stores are of integer expressions, and no return type is inferred. -/
theorem Stmt.isInteger_stores {scope : Option SettleScope} {s : Stmt} (hint : s.isInteger = true)
    (hdeclared : ∀ f, scope = some f → f.inferred = false) : ∀ u ∈ s.stores scope,
      u.stmt.isInteger = true ∧ ∀ f, u.scope = some f → f.inferred = false := by
  induction s generalizing scope with
  | assign => exact List.forall_mem_singleton.mpr ⟨hint, hdeclared⟩
  | expr => exact fun _ hu => by cases hu
  | ret => exact List.forall_mem_singleton.mpr ⟨hint, hdeclared⟩
  | block body ih =>
    have hint := Stmt.allInteger_iff.mp hint
    exact Stmt.forall_storesOf.mpr fun s hs => ih s hs (hint s hs) hdeclared
  | ifElse cond thenBody elseBody iht ihe =>
    refine Stmt.forall_stores_ifElse.mpr ⟨fun s hs => iht s hs ?_ hdeclared, ?_⟩
    · cases elseBody <;> simp_all [Stmt.isInteger, Stmt.allInteger_iff]
    · rintro elseBody rfl s hs
      have hinte := Stmt.allInteger_iff.mp (Bool.and_eq_true_iff.mp hint).2
      exact ihe elseBody rfl s hs (hinte s hs) hdeclared
  | whileLoop cond body ih =>
    have hint := Stmt.allInteger_iff.mp (Bool.and_eq_true_iff.mp hint).2
    exact Stmt.forall_storesOf.mpr fun s hs => ih s hs (hint s hs) hdeclared
  | function name params declared body ih =>
    obtain ⟨_, rfl, hintb⟩ := Stmt.isInteger_function.mp hint
    refine Stmt.forall_storesOf.mpr fun s hs => ih s hs (hintb s hs) fun f hf => ?_
    rw [← Option.some.inj hf]
    rfl

/-- A store of an integer program changes nothing. -/
theorem Store.steady {u : Store} (ht : t.Integer) (hknown : u.Known t)
    (hspelled : u.stmt.Over .spelled) (hint : u.stmt.isInteger = true)
    (hdeclared : ∀ f, u.scope = some f → f.inferred = false) : (u.settle.run t).1 = false := by
  cases u with
  | assign scope target value =>
    cases hspelled with
    | assign htarget hvalue =>
      cases hknown.2 with
      | assign hvar hover =>
        have hty := Expr.infer_integer ht hover hvalue hint
        cases scope with
        | none =>
          have hty : value.infer (TypeEnv.ofScope t none) = .int := hty
          rw [run_assign, hty]
          exact widenSymbol_integer ht htarget
        | some f =>
          have hty : value.infer (TypeEnv.ofScope t (some f.name)) = .int := hty
          obtain ⟨s, hs⟩ := hvar
          rw [run_assign_inside, hty]
          exact widenLocal_integer ht hs
  | ret scope value => exact congrArg Prod.fst (run_ret_declared hdeclared value t)

theorem Store.steady_all {us : List Store} (hspelled : ∀ u ∈ us, u.stmt.Over .spelled)
    (hint : ∀ u ∈ us, u.stmt.isInteger = true ∧ ∀ f, u.scope = some f → f.inferred = false) :
    ∀ t : SymbolTable, t.Integer → (∀ u ∈ us, u.Known t) →
      ((anyChange Store.settle us).run t).1 = false := by
  induction us with
  | nil => exact fun _ _ _ => rfl
  | cons u us ih =>
    intro t ht hknown
    obtain ⟨hspelledu, hspelled⟩ := List.forall_mem_cons.mp hspelled
    obtain ⟨⟨hintu, hdeclared⟩, hint⟩ := List.forall_mem_cons.mp hint
    obtain ⟨hknownu, hknown⟩ := List.forall_mem_cons.mp hknown
    have hfirst := steady ht hknownu hspelledu hintu hdeclared
    obtain ⟨hround, hsame⟩ := round_store hknownu
    rw [anyChange, run_both, hfirst, Bool.false_or]
    exact ih hspelled hint _ (ht.same (hsame hfirst).1) fun v hv => hround.grows.store (hknown v hv)

/-- A round over an integer program changes nothing. -/
theorem Stmt.settleProgram_integer (hspelled : ∀ s ∈ body, s.OverTop .spelled)
    (hint : ∀ s ∈ body, s.isInteger = true) (ht : t.Integer)
    (hover : ∀ s ∈ body, s.OverTop t.lexicon) : ((Stmt.settleList none body).run t).1 = false := by
  rw [Stmt.settleList_eq_stores]
  refine Store.steady_all (Stmt.spelled_stores hspelled) ?_ t ht (Stmt.known_stores hover)
  exact Stmt.forall_storesOf.mpr fun s hs => Stmt.isInteger_stores (hint s hs) nofun

/-- Settling keeps an integer table an integer one. -/
theorem Stmt.settleRounds_integer (hspelled : ∀ s ∈ body, s.OverTop .spelled)
    (hint : ∀ s ∈ body, s.isInteger = true) (ht : t.Integer)
    (hover : ∀ s ∈ body, s.OverTop t.lexicon) (fuel : Nat) :
    (Stmt.settleRounds body fuel t).Integer := by
  cases fuel with
  | zero => exact ht
  | succ fuel =>
    have hsteady := Stmt.settleProgram_integer hspelled hint ht hover
    obtain ⟨_, hsame⟩ := rounds_toplevel t hover
    rw [Stmt.settleRounds]
    generalize (Stmt.settleList none body).run t = result at hsteady hsame
    obtain ⟨changed, t'⟩ := result
    obtain rfl : changed = false := hsteady
    exact ht.same (hsame rfl).1

end Ifj22
