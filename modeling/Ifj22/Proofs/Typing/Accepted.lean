import Ifj22.Proofs.Parser.Steps
import Ifj22.Proofs.Tree.Form
import Ifj22.Proofs.Typing.Table
import Ifj22.Proofs.Typing.Tree
set_option autoImplicit false

/-!
# Typing: what the checker accepts

A statement that the checker accepts mentions names that the tables know: variables of its own scope,
and functions that take the number of arguments they are called with.  The converted statement
mentions no other names than the statement did.  A refusal is the program's fault.
-/

namespace Ifj22

variable {t t' : SymbolTable} {function name : String} {e : Expr} {s : Stmt}
  {f : LocalTable → LocalTable} {body : List Stmt}

/-! ## The vocabulary of a table -/

namespace SymbolTable

/-- The function has been called, and takes that many arguments. -/
def Callable (t : SymbolTable) (name : String) (n : Nat) : Prop :=
  ∃ s, t.find? name = some s ∧ s.isFunction = true ∧ s.called = true ∧
    (s.arity = -1 ∨ s.arity = n)

/-- The names that may be mentioned in a scope: the top level, or a function. -/
def vocabulary (t : SymbolTable) (scope : Option String) : Vocabulary where
  var name :=
    match scope with
    | none => ∃ s, t.find? name = some s
    | some function => ∃ s, t.local? function name = some s
  callee := t.Callable

theorem Grows.callable (h : t.Grows t') {n : Nat} (hc : t.Callable name n) :
    t'.Callable name n := by
  obtain ⟨s, hs, hfun, hcalled, harity⟩ := hc
  obtain ⟨s', hs', hg⟩ := h.symbols hs
  exact ⟨s', hs', hg.isFunction.trans hfun, hg.called hcalled, by rwa [hg.arity]⟩

theorem Grows.var (h : t.Grows t') {scope : Option String} (hv : (t.vocabulary scope).var name) :
    (t'.vocabulary scope).var name := by
  cases scope with
  | none =>
    obtain ⟨s, hs⟩ := hv
    obtain ⟨s', hs', _⟩ := h.symbols hs
    exact ⟨s', hs'⟩
  | some function =>
    obtain ⟨s, hs⟩ := hv
    obtain ⟨s', hs', _⟩ := h.local? hs
    exact ⟨s', hs'⟩

theorem Grows.expr (h : t.Grows t') {scope : Option String} (he : e.Over (t.vocabulary scope)) :
    e.Over (t'.vocabulary scope) :=
  he.mono (fun _ => h.var) fun _ _ => h.callable

theorem Grows.stmt (h : t.Grows t') {scope : Option String} (hs : s.Over (t.vocabulary scope)) :
    s.Over (t'.vocabulary scope) :=
  hs.mono (fun _ => h.var) fun _ _ => h.callable

/-- The names that may be mentioned in a program. -/
def lexicon (t : SymbolTable) : Lexicon where
  toplevel := t.vocabulary none
  head name _ _ := ∃ s, t.find? name = some s ∧ s.isFunction = true
  inside function := t.vocabulary (some function)

theorem Grows.toplevel (h : t.Grows t') (hs : s.OverTop t.lexicon) : s.OverTop t'.lexicon := by
  cases hs with
  | stmt hs =>
    have hs : s.Over (t.vocabulary none) := hs
    exact .stmt (h.stmt hs)
  | @function name _ _ _ hh hb =>
    obtain ⟨f, hf, hfun⟩ := hh
    obtain ⟨f', hf', hg⟩ := h.symbols hf
    have hb : ∀ s ∈ _, Stmt.Over (t.vocabulary (some name)) s := hb
    exact .function ⟨f', hf', hg.isFunction.trans hfun⟩ fun s hs => h.stmt (hb s hs)

/-! ## Steps of growth -/

theorem grows_markCalled (t : SymbolTable) (name : String) : t.Grows (t.markCalled name) :=
  Table.Grows.modify LocalsGrow.refl t name (fun _ => rfl) fun _ _ =>
    ⟨rfl, rfl, rfl, rfl, rfl, Ty.subset_refl _, fun _ => rfl, .refl _⟩

theorem find?_markCalled (t : SymbolTable) (name x : String) :
    (t.markCalled name).find? x =
      if x = name then (t.find? x).map fun s => { s with called := true } else t.find? x := by
  unfold markCalled
  rw [Table.find?_modify]
  exact fun _ => rfl

theorem grows_declare (t : SymbolTable) (name : String) (ty : Ty) :
    t.Grows (Table.declare t name ty) :=
  Table.Grows.declare LocalsGrow.refl t name ty

theorem grows_includeTy (t : SymbolTable) (name : String) (ty : Ty) :
    t.Grows (Table.includeTy t name ty) :=
  Table.Grows.modify LocalsGrow.refl t name (fun _ => rfl) fun _ _ =>
    ⟨rfl, rfl, rfl, rfl, rfl, Ty.subset_union_left _ _, id, .refl _⟩

/-- Local tables change inside the symbol of their function. -/
theorem modifyLocals?_eq_some (h : t.modifyLocals? function f = some t') :
    (∃ s, t.find? function = some s ∧ s.isFunction = true) ∧
      t' = t.modify function fun s =>
        { s with locals := some (f (s.locals.getD (Table.empty .function))) } := by
  unfold modifyLocals? at h
  split at h
  · rename_i s hs
    split at h
    · rename_i hfun
      exact ⟨⟨s, hs, hfun⟩, (Option.some.inj h).symm⟩
    · cases h
  · cases h

theorem modifyLocals?_isSome {s : Symbol (Option LocalTable)} (hs : t.find? function = some s)
    (hfun : s.isFunction = true) (f : LocalTable → LocalTable) :
    ∃ t', t.modifyLocals? function f = some t' := by
  unfold modifyLocals?
  rw [hs]
  exact ⟨_, if_pos hfun⟩

theorem grows_modifyLocals? (h : t.modifyLocals? function f = some t')
    (hf : ∀ l : LocalTable, l.Grows (f l)) : t.Grows t' := by
  obtain ⟨_, rfl⟩ := modifyLocals?_eq_some h
  refine Table.Grows.modify LocalsGrow.refl t function (fun _ => rfl) fun s _ =>
    ⟨rfl, rfl, rfl, rfl, rfl, Ty.subset_refl _, id, fun _ => rfl, hf _⟩

theorem local?_modifyLocals? (h : t.modifyLocals? function f = some t') (g name : String) :
    t'.local? g name = if g = function then
      (f ((t.locals? function).getD (Table.empty .function))).find? name else t.local? g name := by
  obtain ⟨⟨s, hs, _⟩, rfl⟩ := modifyLocals?_eq_some h
  unfold local? locals?
  rw [Table.find?_modify]
  · by_cases hg : g = function
    · subst hg
      rw [if_pos rfl, if_pos rfl, hs]
      rfl
    · rw [if_neg hg, if_neg hg]
  · exact fun _ => rfl

theorem declareLocal?_isSome {s : Symbol (Option LocalTable)} (hs : t.find? function = some s)
    (hfun : s.isFunction = true) (name : String) (ty : Ty) :
    ∃ t', t.declareLocal? function name ty = some t' := modifyLocals?_isSome hs hfun _

theorem grows_declareLocal? {ty : Ty} (h : t.declareLocal? function name ty = some t') :
    t.Grows t' :=
  grows_modifyLocals? h fun l => Table.Grows.declare (fun _ => trivial) l name ty

/-- The type and the mark of a local variable after a declaration. -/
theorem local?_declareLocal? {ty : Ty} (h : t.declareLocal? function name ty = some t')
    (x : String) :
    (t'.local? function x).map (fun s => (s.ty, s.emitted)) = if x = name then
      some (((t.local? function name).map (·.ty)).getD .never ∪ ty,
        ((t.local? function name).map (·.emitted)).getD false)
      else (t.local? function x).map fun s => (s.ty, s.emitted) := by
  rw [local?_modifyLocals? h, if_pos rfl, Table.find?_declare, ← local?_eq, ← local?_eq]
  by_cases hx : x = name
  · rw [if_pos hx, if_pos hx]
    cases t.local? function name <;> rfl
  · rw [if_neg hx, if_neg hx]

end SymbolTable

/-! ## Steps of the checker -/

namespace Checker

variable {α β : Type} {c c' c'' : Checker}

/-- The function that the walk is in. -/
def scope (c : Checker) : Option String := c.enclosing.map (·.name)

/-- The tables have grown, and the walk is where it was. -/
structure Onward (c c' : Checker) : Prop where
  table : c.table.Grows c'.table
  scope : c'.scope = c.scope

theorem Onward.refl (c : Checker) : c.Onward c := ⟨.refl _, rfl⟩

theorem Onward.trans (h1 : c.Onward c') (h2 : c'.Onward c'') : c.Onward c'' :=
  ⟨h1.table.trans h2.table, h2.scope.trans h1.scope⟩

/-- The names that may be mentioned where the walk is. -/
def vocabulary (c : Checker) : Vocabulary := c.table.vocabulary c.scope

theorem Onward.expr (h : c.Onward c') (he : e.Over c.vocabulary) : e.Over c'.vocabulary := by
  unfold vocabulary at *
  rw [h.scope]
  exact h.table.expr he

theorem Onward.stmt (h : c.Onward c') (hs : s.Over c.vocabulary) : s.Over c'.vocabulary := by
  unfold vocabulary at *
  rw [h.scope]
  exact h.table.stmt hs

/-- The function that the walk is in has a symbol. -/
def Known (c : Checker) : Prop :=
  ∀ f, c.enclosing = some f → ∃ s, c.table.find? f.name = some s ∧ s.isFunction = true

theorem Onward.known (h : c.Onward c') (hc : c.Known) : c'.Known := by
  intro f hf
  have hscope : c.scope = some f.name := by
    rw [← h.scope, Checker.scope, hf]
    rfl
  unfold Checker.scope at hscope
  obtain ⟨f', hf', hname⟩ := Option.map_eq_some_iff.mp hscope
  obtain ⟨s, hs, hfun⟩ := hc f' hf'
  obtain ⟨s', hs', hg⟩ := h.table.symbols hs
  exact ⟨s', hname ▸ hs', hg.isFunction.trans hfun⟩

/-- The step does not fail internally, and what it yields has moved on and satisfies `Q`. -/
def Checks (c : Checker) (m : Check α) (Q : α → Checker → Prop) : Prop :=
  Meets m c (fun e _ => ¬ e.Internal) fun a c' => c.Onward c' ∧ Q a c'

namespace Checks

theorem imp {m : Check α} {Q R : α → Checker → Prop} (h : c.Checks m Q)
    (himp : ∀ a c', c.Onward c' → Q a c' → R a c') : c.Checks m R :=
  Meets.imp h fun a c' ⟨hon, hq⟩ => ⟨hon, himp a c' hon hq⟩

theorem bind {m : Check α} {f : α → Check β} {Q : α → Checker → Prop}
    {R : β → Checker → Prop} (hm : c.Checks m Q)
    (hf : ∀ a c', c.Onward c' → Q a c' → c'.Checks (f a) R) : c.Checks (m >>= f) R := by
  unfold Checks
  rw [meets_bind]
  refine Meets.imp hm fun a c' ⟨hon, hq⟩ => ?_
  exact Meets.imp (hf a c' hon hq) fun b c'' ⟨hon', hr⟩ => ⟨hon.trans hon', hr⟩

theorem get {f : Checker → Check β} {R : β → Checker → Prop} (hf : c.Checks (f c) R) :
    c.Checks (get >>= f) R := by
  unfold Checks
  rw [meets_bind, meets_get]
  exact hf

theorem pure {a : α} {Q : α → Checker → Prop} (h : Q a c) : c.Checks (Pure.pure a) Q :=
  ⟨.refl c, h⟩

theorem ite {p : Prop} [Decidable p] {m m' : Check α} {Q : α → Checker → Prop}
    (ht : p → c.Checks m Q) (hf : ¬ p → c.Checks m' Q) : c.Checks (if p then m else m') Q :=
  meets_ite ht hf

theorem throw {e : CompileError} (h : ¬ e.Internal) (Q : α → Checker → Prop) :
    c.Checks (MonadExcept.throw e) Q := h

theorem throw_bind {e : CompileError} (h : ¬ e.Internal) {f : α → Check β}
    (Q : β → Checker → Prop) : c.Checks (MonadExcept.throw e >>= f) Q := h

theorem modifyTable {f : SymbolTable → SymbolTable} {Q : Unit → Checker → Prop}
    (hg : c.table.Grows (f c.table)) (hq : Q () { c with table := f c.table }) :
    c.Checks (modifyTable f) Q :=
  ⟨⟨hg, rfl⟩, hq⟩

end Checks

theorem checks_value {m : Check (Ty × Expr)} {Q : Ty × Expr → Checker → Prop}
    (h : c.Checks m Q) : c.Checks (value m) Q := by
  exact h.bind fun v c' _ hq => .ite (fun _ => .throw id _) fun _ => .pure hq

theorem checks_operands (op : BinOp) (leftTy rightTy : Ty) :
    c.Checks (operands op leftTy rightTy) fun _ _ => True := by
  exact .ite (fun _ => .throw id _) fun _ => .pure trivial

/-- A call is accepted if there is such a function, and it is noted that it has been called. -/
theorem checks_call (name : String) (args : List Ty) :
    c.Checks (call name args) fun _ c' => c'.table.Callable name args.length := by
  unfold call
  refine .get ?_
  cases hfind : c.table.find? name with
  | none => exact .throw id _
  | some callee =>
    dsimp only
    refine .ite (fun _ => .throw_bind id _) fun hfun => ?_
    have hdone : (callee.arity = -1 ∨ callee.arity = args.length) →
        c.Checks (modifyTable (·.markCalled name) >>= fun _ => pure callee.callType)
          fun _ c' => c'.table.Callable name args.length := by
      intro harity
      refine (Checks.modifyTable (Q := fun _ c' => c'.table.Callable name args.length)
        (c.table.grows_markCalled name) ?_).bind fun _ c' _ h => .pure h
      refine ⟨{ callee with called := true }, ?_, by simpa using hfun, rfl, harity⟩
      show (c.table.markCalled name).find? name = _
      rw [SymbolTable.find?_markCalled, if_pos rfl, hfind]
      rfl
    refine .ite (fun hvar => ?_) fun hvar => ?_
    · refine .ite (fun _ => .throw_bind id _) fun hcount => ?_
      cases badArgument? 1 args callee.params with
      | none => exact hdone (.inr (by simpa using hcount))
      | some bad => exact .throw_bind id _
    · refine hdone (.inl ?_)
      simpa [Symbol.isVariadic] using hvar

/-! ## Expressions -/

/-- The converted expression mentions known names only, and no other ones than before. -/
def Converted (e e' : Expr) (c : Checker) : Prop :=
  e'.Over c.vocabulary ∧ ∀ V, e.Over V → e'.Over V

theorem over_coerce {V : Vocabulary} (h : e.Over V) (target? : Option Ty) :
    (e.coerce target?).Over V := by
  unfold Expr.coerce
  split
  · exact .constant _
  · exact h

mutual

/-- Checking an expression does not fail internally, and its converted form mentions known names
only. -/
theorem checks_expr (c : Checker) : ∀ e : Expr, c.Checks e.check fun v c' => Converted e v.2 c'
  | .constant k => .pure ⟨.constant k, fun _ _ => .constant k⟩
  | .var name => by
    unfold Expr.check
    refine .get ?_
    cases hfind : c.varTy? name with
    | none => exact .throw id _
    | some ty =>
      refine .pure ⟨.var ?_, fun _ h => h⟩
      unfold Checker.varTy? at hfind
      unfold vocabulary SymbolTable.vocabulary Checker.scope
      cases henc : c.enclosing with
      | none =>
        rw [henc] at hfind
        obtain ⟨s, hs, _⟩ := Option.map_eq_some_iff.mp hfind
        exact ⟨s, hs⟩
      | some f =>
        rw [henc] at hfind
        obtain ⟨s, hs, _⟩ := Option.map_eq_some_iff.mp hfind
        exact ⟨s, hs⟩
  | .binary op left right => by
    unfold Expr.check
    refine (checks_value (checks_expr c left)).bind fun l c1 _ ⟨hl, hsame⟩ => ?_
    refine (checks_value (checks_expr c1 right)).bind fun r c2 hon2 ⟨hr, hsame'⟩ => ?_
    refine (checks_operands op l.1 r.1).bind fun ty c3 hon3 _ => .pure ⟨.binary ?_ ?_, ?_⟩
    · exact over_coerce ((hon2.trans hon3).expr hl) _
    · exact over_coerce (hon3.expr hr) _
    · rintro V ⟨hl, hr⟩
      exact .binary (over_coerce (hsame V ‹_›) _) (over_coerce (hsame' V ‹_›) _)
  | .unary op operand => by
    unfold Expr.check
    refine (checks_value (checks_expr c operand)).bind fun v c1 _ ⟨hv, hsame⟩ => ?_
    refine .ite (fun _ => .throw id _) fun _ => .pure ⟨.unary hv, ?_⟩
    rintro V ⟨h⟩
    exact .unary (hsame V ‹_›)
  | .call name args => by
    unfold Expr.check
    refine (checks_args c args).bind fun vs c1 _ ⟨hlen, hvs, hsame⟩ => ?_
    refine (checks_call name _).bind fun ty c2 hon2 hcall => .pure ⟨.call ?_ ?_, ?_⟩
    · rwa [List.length_map] at hcall ⊢
    · exact fun e he => hon2.expr (hvs e he)
    · intro V h
      cases h with
      | call hname hargs =>
        exact .call (by rwa [List.length_map, hlen]) (hsame V hargs)

theorem checks_args (c : Checker) : ∀ args : List Expr, c.Checks (Expr.checkArgs args) fun vs c' =>
    vs.length = args.length ∧ (∀ e ∈ vs.map (·.2), e.Over c'.vocabulary) ∧
      ∀ V, (∀ e ∈ args, e.Over V) → ∀ e ∈ vs.map (·.2), e.Over V
  | [] => .pure ⟨rfl, by simp, by simp⟩
  | e :: rest => by
    unfold Expr.checkArgs
    refine (checks_value (checks_expr c e)).bind fun v c1 _ ⟨hv, hsame⟩ => ?_
    refine (checks_args c1 rest).bind fun vs c2 hon2 ⟨hlen, hvs, hsame'⟩ => ?_
    refine .pure ⟨by simp [hlen], ?_, ?_⟩
    · intro x hx
      rcases List.mem_cons.mp hx with rfl | hx
      · exact hon2.expr hv
      · exact hvs x hx
    · intro V h x hx
      rcases List.mem_cons.mp hx with rfl | hx
      · exact hsame V (h e (.head _))
      · exact hsame' V (fun y hy => h y (.tail e hy)) x hx

end

/-! ## Statements -/

theorem checks_assigned (hk : c.Known) (name : String) (ty : Ty) :
    c.Checks (assigned name ty) fun _ c' => c'.vocabulary.var name := by
  unfold assigned
  refine .get ?_
  cases henc : c.enclosing with
  | none =>
    refine .modifyTable (c.table.grows_declare name ty) ?_
    simp only [vocabulary, SymbolTable.vocabulary, Checker.scope, henc, Option.map_none]
    rw [Table.find?_declare, if_pos rfl]
    exact ⟨_, rfl⟩
  | some f =>
    obtain ⟨s, hs, hfun⟩ := hk f henc
    obtain ⟨t, ht⟩ := SymbolTable.declareLocal?_isSome hs hfun name ty
    dsimp only
    rw [ht]
    refine .modifyTable (SymbolTable.grows_declareLocal? ht) ?_
    simp only [vocabulary, SymbolTable.vocabulary, Checker.scope, henc, Option.map_some]
    have hlocal := SymbolTable.local?_declareLocal? ht name
    rw [if_pos rfl] at hlocal
    obtain ⟨s, hs, _⟩ := Option.map_eq_some_iff.mp hlocal
    exact ⟨s, hs⟩

theorem checks_returned (ty : Option Ty) : c.Checks (returned ty) fun _ _ => True := by
  unfold returned
  refine .get ?_
  cases henc : c.enclosing with
  | none => exact .pure trivial
  | some f =>
    have hmark : c.Checks (modify fun c => { c with enclosing := some { f with returned := true } })
        fun _ _ => True := by
      refine ⟨⟨.refl _, ?_⟩, trivial⟩
      simp only [Checker.scope, henc, Option.map_some]
    refine hmark.bind fun _ c1 _ _ => ?_
    cases f.declared with
    | none => exact .modifyTable (c1.table.grows_includeTy _ _) trivial
    | some declared =>
      cases ty with
      | none => exact .ite (fun _ => .pure trivial) fun _ => .throw id _
      | some got =>
        refine .ite (fun _ => .throw id _) fun _ => ?_
        exact .ite (fun _ => .pure trivial) fun _ => .throw id _

/-- A statement without functions is refused for a fault of the program, or converted into one that
mentions known names only, and no other ones than before. -/
def StmtChecks (s : Stmt) : Prop :=
  ∀ c : Checker, c.Known → c.Checks s.check fun s' c' =>
    s'.Over c'.vocabulary ∧ ∀ V, s.Over V → s'.Over V

theorem checks_list (hstep : ∀ s ∈ body, StmtChecks s) :
    ∀ c : Checker, c.Known → c.Checks (Stmt.checkList body) fun body' c' =>
      (∀ s ∈ body', s.Over c'.vocabulary) ∧
        ∀ V, (∀ s ∈ body, s.Over V) → ∀ s ∈ body', s.Over V := by
  induction body with
  | nil => exact fun c _ => .pure ⟨by simp, by simp⟩
  | cons s rest ih =>
    intro c hk
    unfold Stmt.checkList
    refine (hstep s (.head _) c hk).bind fun s' c1 hon1 ⟨hs, hsame⟩ => ?_
    refine (ih (fun t ht => hstep t (.tail s ht)) c1 (hon1.known hk)).bind
      fun rest' c2 hon2 ⟨hrest, hsame'⟩ => .pure ⟨?_, ?_⟩
    · intro t ht
      rcases List.mem_cons.mp ht with rfl | ht
      · exact hon2.stmt hs
      · exact hrest t ht
    · intro V h t ht
      rcases List.mem_cons.mp ht with rfl | ht
      · exact hsame V (h s (.head _))
      · exact hsame' V (fun u hu => h u (.tail s hu)) t ht

/-- The same for a statement. -/
theorem checks_stmt {V : Vocabulary} (h : s.Over V) : StmtChecks s := by
  induction h with
  | @assign target e _ _ =>
    intro c hk
    unfold Stmt.check
    refine (checks_value (checks_expr c e)).bind fun v c1 hon1 ⟨hv, hsame⟩ => ?_
    refine (checks_assigned (hon1.known hk) target v.1).bind fun _ c2 hon2 ht => ?_
    refine .pure ⟨.assign ht (hon2.expr hv), ?_⟩
    rintro V ⟨ht, hv⟩
    exact .assign ‹_› (hsame V ‹_›)
  | @expr e _ =>
    intro c hk
    unfold Stmt.check
    refine (checks_expr c e).bind fun v c1 _ ⟨hv, hsame⟩ => .pure ⟨.expr hv, ?_⟩
    rintro V ⟨hv⟩
    exact .expr (hsame V ‹_›)
  | @ret value _ =>
    intro c hk
    cases value with
    | none =>
      unfold Stmt.check
      refine (checks_returned none).bind fun _ c1 _ _ => .pure ⟨.ret ?_, fun _ h => h⟩
      exact fun e he => by cases he
    | some e =>
      unfold Stmt.check
      refine (checks_value (checks_expr c e)).bind fun v c1 _ ⟨hv, hsame⟩ => ?_
      refine (checks_returned (some v.1)).bind fun _ c2 hon2 _ => .pure ⟨.ret ?_, ?_⟩
      · intro e' he'
        rw [← Option.some.inj he']
        exact hon2.expr hv
      · intro V h
        cases h with
        | ret h =>
          refine .ret fun e' he' => ?_
          rw [← Option.some.inj he']
          exact hsame V (h e rfl)
  | @block body _ ih =>
    intro c hk
    unfold Stmt.check
    refine (checks_list ih c hk).bind fun body' c1 _ ⟨hb, hsame⟩ => .pure ⟨.block hb, ?_⟩
    rintro V ⟨h⟩
    exact .block (hsame V ‹_›)
  | @ifElse cond thenBody elseBody _ _ _ iht ihe =>
    intro c hk
    cases elseBody with
    | none =>
      unfold Stmt.check
      refine (checks_value (checks_expr c cond)).bind fun v c1 hon1 ⟨hv, hsame⟩ => ?_
      refine (checks_list iht c1 (hon1.known hk)).bind fun body' c2 hon2 ⟨hb, hsame'⟩ => ?_
      refine .pure ⟨.ifElse (hon2.expr hv) hb (fun _ h => by cases h), ?_⟩
      intro V h
      cases h with
      | ifElse hc ht _ => exact .ifElse (hsame V hc) (hsame' V ht) fun _ h => by cases h
    | some elseBody =>
      unfold Stmt.check
      refine (checks_value (checks_expr c cond)).bind fun v c1 hon1 ⟨hv, hsame⟩ => ?_
      refine (checks_list iht c1 (hon1.known hk)).bind fun body' c2 hon2 ⟨hb, hsame'⟩ => ?_
      refine (checks_list (ihe elseBody rfl) c2 ((hon1.trans hon2).known hk)).bind
        fun elseBody' c3 hon3 ⟨he, hsame''⟩ => ?_
      refine .pure ⟨.ifElse ((hon2.trans hon3).expr hv) (fun s hs => hon3.stmt (hb s hs)) ?_, ?_⟩
      · intro body h
        rw [← Option.some.inj h]
        exact he
      · intro V h
        cases h with
        | ifElse hc ht he =>
          refine .ifElse (hsame V hc) (hsame' V ht) fun body h => ?_
          rw [← Option.some.inj h]
          exact hsame'' V (he elseBody rfl)
  | @whileLoop cond body _ _ ih =>
    intro c hk
    unfold Stmt.check
    refine (checks_value (checks_expr c cond)).bind fun v c1 hon1 ⟨hv, hsame⟩ => ?_
    refine (checks_list ih c1 (hon1.known hk)).bind fun body' c2 hon2 ⟨hb, hsame'⟩ => ?_
    refine .pure ⟨.whileLoop (hon2.expr hv) hb, ?_⟩
    intro V h
    cases h with
    | whileLoop hc hb => exact .whileLoop (hsame V hc) (hsame' V hb)

/-! ## The top level -/

/-- A statement of the top level and what it is converted into, in a table that knows its names. -/
inductive Accepts (t : SymbolTable) : Stmt → Stmt → Prop
  | stmt {s s' : Stmt} {V : Vocabulary} (hs : s.Over V) (hs' : s'.Over (t.vocabulary none))
    (hsame : ∀ V, s.Over V → s'.Over V) : Accepts t s s'
  | function {name : String} {params : List Param} {declared : Option Ty} {body body' : List Stmt}
    (hb' : ∀ s ∈ body', s.Over (t.vocabulary (some name)))
    (hsame : ∀ V, (∀ s ∈ body, s.Over V) → ∀ s ∈ body', s.Over V) :
    Accepts t (.function name params declared body) (.function name params declared body')

theorem Accepts.grows (h : t.Grows t') {s' : Stmt} (hs : Accepts t s s') : Accepts t' s s' := by
  cases hs with
  | stmt hs hs' hsame => exact .stmt hs (h.stmt hs') hsame
  | function hb' hsame => exact .function (fun s hs => h.stmt (hb' s hs)) hsame

theorem checks_leave (name : String) (declared : Option Ty) (hscope : c'.scope = none)
    (hg : c'.table.Grows c.table) :
    Meets (leave name declared) c (fun e _ => ¬ e.Internal) fun _ c'' => c'.Onward c'' ∧
      c.table.Grows c''.table := by
  unfold leave
  rw [meets_bind, meets_get, meets_bind, meets_modify]
  cases declared with
  | some ty =>
    refine meets_ite (fun _ => id) fun _ => ?_
    exact ⟨⟨hg, hscope.symm⟩, .refl _⟩
  | none =>
    have hgrow : c.table.Grows (c.table.modify name fun s =>
        if s.ty.isEmpty then { s with ty := .null } else s) := by
      refine Table.Grows.modify LocalsGrow.refl c.table name (fun s => by split <;> rfl) fun s _ => ?_
      split
      · rename_i hempty
        refine ⟨rfl, rfl, rfl, rfl, rfl, ?_, id, .refl _⟩
        have : s.ty = .never := by simpa [Ty.isEmpty] using hempty
        rw [this]
        show Ty.never.subset .null = true
        decide
      · exact .refl LocalsGrow.refl s
    exact ⟨⟨hg.trans hgrow, hscope.symm⟩, hgrow⟩

theorem checks_function {params : List Param} {declared : Option Ty} (hscope : c.scope = none)
    (hknown : ∃ s, c.table.find? name = some s ∧ s.isFunction = true)
    (hbody : ∀ s ∈ body, ∃ V, s.Over V) :
    c.Checks (Stmt.function name params declared body).check fun s' c' =>
      Accepts c'.table (.function name params declared body) s' := by
  unfold Stmt.check
  unfold Checks enter
  rw [meets_bind, meets_modify, meets_bind]
  have hk : ({ c with enclosing := some ⟨name, declared, false⟩ } : Checker).Known := by
    intro f hf
    cases hf
    exact hknown
  refine Meets.imp (checks_list (fun s hs => checks_stmt (hbody s hs).choose_spec) _ hk) ?_
  rintro body' c1 ⟨hon, hb', hsame⟩
  rw [meets_bind]
  refine Meets.imp (checks_leave name declared hscope hon.table) ?_
  rintro _ c2 ⟨hon2, hg⟩
  refine ⟨hon2, .function (fun s hs => hg.stmt ?_) hsame⟩
  have hs' := hb' s hs
  unfold vocabulary at hs'
  rw [hon.scope] at hs'
  exact hs'

/-- The statements of a program whose functions are known. -/
theorem checks_toplevel {L : Lexicon} (hbody : ∀ s ∈ body, s.OverTop L) :
    ∀ c : Checker, c.scope = none →
      (∀ name params declared b, Stmt.function name params declared b ∈ body →
        ∃ s, c.table.find? name = some s ∧ s.isFunction = true) →
      c.Checks (Stmt.checkList body) fun body' c' => List.Forall₂ (Accepts c'.table) body body' := by
  induction body with
  | nil => exact fun c _ _ => .pure .nil
  | cons s rest ih =>
    intro c hscope hknown
    have hk : c.Known := by
      intro f hf
      unfold Checker.scope at hscope
      rw [hf] at hscope
      cases hscope
    have hfirst : c.Checks s.check fun s' c' => Accepts c'.table s s' := by
      cases hbody s (.head _) with
      | stmt h =>
        refine (checks_stmt h c hk).imp fun s' c' hon ⟨hs', hsame⟩ => .stmt h ?_ hsame
        unfold vocabulary at hs'
        rwa [hon.scope, hscope] at hs'
      | function hh hb =>
        exact checks_function hscope (hknown _ _ _ _ (.head _)) fun s hs => ⟨_, hb s hs⟩
    unfold Stmt.checkList
    refine hfirst.bind fun s' c1 hon1 hs' => ?_
    refine (ih (fun t ht => hbody t (.tail s ht)) c1 (hon1.scope.trans hscope) ?_).bind
      fun rest' c2 hon2 hrest => .pure (.cons (hs'.grows hon2.table) hrest)
    intro name params declared b hmem
    obtain ⟨f, hf, hfun⟩ := hknown name params declared b (.tail s hmem)
    obtain ⟨f', hf', hg⟩ := hon1.table.symbols hf
    exact ⟨f', hf', hg.isFunction.trans hfun⟩

end Checker

end Ifj22
