import Ifj22.Proofs.Analysis
import Ifj22.Proofs.Meaning.Fuel
import Ifj22.Proofs.Simplify.Names
set_option autoImplicit false

/-!
# Simplify: simplification preserves meaning

Folding an expression does not change its value, in any model in which the operators do to
constant numbers what folding does.  Where a variable holds a constant, spreading the constant does
not change how statements run.  A pass is made of these, so a simplified program makes the same
built-in calls and ends in the same way, bound for bound (`Sweeps.execAll_eq`, `main_eq`).
-/

namespace Ifj22

open Meaning

variable {e : Expr} {x : String} {body program program' : List Stmt}

variable {V E : Type}

namespace Meaning

/-- Operators and conditions do to constant numbers what folding does.  Where folding has no
result, as for a sum that is no word, the model may do as it likes: wrap around, widen or fail. -/
structure Model.Faithful {W : Type} (M : Model V E W) : Prop where
  binary : ∀ {op : BinOp} {a b c : Constant}, Constant.foldBinary? op a b = some c →
    M.binary op (M.constant a) (M.constant b) = .ok (M.constant c)
  unary : ∀ {op : UnaryOp} {a c : Constant}, Constant.foldUnary? op a = some c →
    M.unary op (M.constant a) = .ok (M.constant c)
  truth : ∀ {c : Constant} {b : Bool}, c.truth? = some b → M.truth (M.constant c) = .ok b

/-- Without notes, noting the value of an expression does nothing. -/
theorem evaluated_eq_pure (M : Model V E Unit) (e : Expr) (value : V) :
    evaluated M e value = pure value := rfl

end Meaning

/-! ## Folding -/

theorem Constant.shortcut?_of_foldBinary? {op : BinOp} {a b c : Constant}
    (h : Constant.foldBinary? op a b = some c) : op.shortcut? = none := by
  cases op <;> first | rfl | (cases a <;> cases b <;> cases h)

theorem Expr.eq_constant {c : Constant} (h : e.constant? = some c) : e = .constant c := by
  cases e <;> simp_all [Expr.constant?]

section Folding

variable (M : Model V E Unit) (call : String → List V → Run V E Unit (Option V))

theorem Expr.eval_binary (op : BinOp) (left right : Expr) :
    (Expr.binary op left right).eval M call =
      left.eval M call >>= fun a => operate M op a (right.eval M call) := by
  rw [Expr.eval]
  simp only [evaluated_eq_pure, bind_pure]

theorem Expr.eval_unary (op : UnaryOp) (operand : Expr) :
    (Expr.unary op operand).eval M call =
      operand.eval M call >>= fun a => raise (M.unary op a) := by
  rw [Expr.eval]
  simp only [evaluated_eq_pure, bind_pure]

theorem Expr.evalAll_congr {args : List Expr} {f : Expr → Expr}
    (h : ∀ e ∈ args, (f e).eval M call = e.eval M call) :
    Expr.evalAll M call (args.map f) = Expr.evalAll M call args := by
  induction args with
  | nil => rfl
  | cons e rest ih =>
    obtain ⟨he, hrest⟩ := List.forall_mem_cons.mp h
    rw [List.map_cons, Expr.evalAll, Expr.evalAll, he, ih hrest]

variable {M}

/-- Folding keeps the value of an expression. -/
theorem Expr.eval_fold (hM : M.Faithful) (e : Expr) : e.fold.eval M call = e.eval M call := by
  induction e with
  | constant c => rfl
  | var name => rfl
  | binary op left right ihl ihr =>
    rw [Expr.fold, Expr.eval_binary, ← ihl, ← ihr]
    cases hfold : Expr.foldBinary? op left.fold right.fold with
    | none => exact Expr.eval_binary M call op left.fold right.fold
    | some c =>
      obtain ⟨a, ha, hfold⟩ := Option.bind_eq_some_iff.mp hfold
      obtain ⟨b, hb, hfold⟩ := Option.bind_eq_some_iff.mp hfold
      rw [Expr.eq_constant ha, Expr.eq_constant hb]
      show pure (M.constant c) = operate M op (M.constant a) (pure (M.constant b))
      rw [operate, Constant.shortcut?_of_foldBinary? hfold]
      show _ = raise (M.binary op (M.constant a) (M.constant b))
      rw [hM.binary hfold]
      rfl
  | unary op operand ih =>
    rw [Expr.fold, Expr.eval_unary, ← ih]
    cases hfold : Expr.foldUnary? op operand.fold with
    | none => exact Expr.eval_unary M call op operand.fold
    | some c =>
      obtain ⟨a, ha, hfold⟩ := Option.bind_eq_some_iff.mp hfold
      rw [Expr.eq_constant ha]
      show pure (M.constant c) = raise (M.unary op (M.constant a))
      rw [hM.unary hfold]
      rfl
  | call name args ih =>
    rw [Expr.fold, Expr.foldAll_eq, Expr.eval, Expr.eval, Expr.evalAll_congr M call ih]
    rfl

theorem Expr.test_fold (hM : M.Faithful) (e : Expr) : e.fold.test M call = e.test M call := by
  unfold Expr.test
  rw [Expr.eval_fold call hM]

/-- A condition that folding decides. -/
theorem Expr.test_of_truth? (hM : M.Faithful) {b : Bool} (h : e.fold.truth? = some b) :
    e.test M call = pure b := by
  obtain ⟨c, hc, hb⟩ := Option.bind_eq_some_iff.mp h
  rw [← Expr.test_fold call hM, Expr.eq_constant hc]
  show raise (M.truth (M.constant c)) = _
  rw [hM.truth hb]
  rfl

theorem Expr.perform_of_ne (h : ∀ name args, e ≠ .call name args) :
    e.perform M call = (do let _ ← e.eval M call; pure ()) := by
  cases e with
  | call name args => exact absurd rfl (h name args)
  | _ => rfl

theorem Expr.getD_ne_call (h : ∀ name args, e ≠ .call name args) (folded : Option Constant)
    (name : String) (args : List Expr) : (folded.map Expr.constant).getD e ≠ .call name args := by
  cases folded with
  | none => exact h name args
  | some c => rintro ⟨⟩

theorem Expr.perform_fold (hM : M.Faithful) (e : Expr) :
    e.fold.perform M call = e.perform M call := by
  cases e with
  | call name args =>
    rw [Expr.fold, Expr.foldAll_eq, Expr.perform, Expr.perform,
      Expr.evalAll_congr M call fun e _ => Expr.eval_fold call hM e]
    rfl
  | binary op left right =>
    have hne : ∀ name args, (Expr.binary op left right).fold ≠ .call name args := by
      rw [Expr.fold]
      exact Expr.getD_ne_call (by rintro _ _ ⟨⟩) _
    rw [Expr.perform_of_ne call hne, Expr.eval_fold call hM]
    rfl
  | unary op operand =>
    have hne : ∀ name args, (Expr.unary op operand).fold ≠ .call name args := by
      rw [Expr.fold]
      exact Expr.getD_ne_call (by rintro _ _ ⟨⟩) _
    rw [Expr.perform_of_ne call hne, Expr.eval_fold call hM]
    rfl
  | _ => rfl

end Folding

/-! ## Spreading -/

namespace Meaning

variable {W α β : Type}

/-- From the states with `P` the two runs are the same, and a value that they yield comes with
`Q`. -/
def Agrees (P : State V W → Prop) (Q : α → State V W → Prop) (m m' : Run V E W α) : Prop :=
  ∀ s, P s → m' s = m s ∧ ∀ a s', m s = .ok a s' → Q a s'

namespace Agrees

variable {P : State V W → Prop} {Q Q' : α → State V W → Prop} {R : β → State V W → Prop}

theorem imp {m m' : Run V E W α} (h : Agrees P Q m m') (hQ : ∀ a s, Q a s → Q' a s) :
    Agrees P Q' m m' :=
  fun s hs => ⟨(h s hs).1, fun a s' hrun => hQ a s' ((h s hs).2 a s' hrun)⟩

/-- A run agrees with itself in what it yields. -/
theorem self {m : Run V E W α} (h : ∀ s, P s → ∀ a s', m s = .ok a s' → Q a s') : Agrees P Q m m :=
  fun s hs => ⟨rfl, h s hs⟩

theorem pure {a : α} (h : ∀ s, P s → Q a s) : Agrees P Q (E := E) (pure a) (pure a) := by
  refine self fun s hs b s' hrun => ?_
  cases hrun
  exact h s hs

theorem throw (e : Fault E) : Agrees P Q (throw e) (throw e) :=
  self fun _ _ _ _ hrun => by cases hrun

theorem raise (r : Except E α) : Agrees P (fun _ => P) (raise r) (Meaning.raise r) := by
  cases r with
  | ok a => exact pure fun _ hs => hs
  | error e => exact throw _

theorem bind {m m' : Run V E W α} {f f' : α → Run V E W β} (h : Agrees P Q m m')
    (hf : ∀ a, Agrees (Q a) R (f a) (f' a)) : Agrees P R (m >>= f) (m' >>= f') := by
  intro s hs
  obtain ⟨heq, hQ⟩ := h s hs
  show EStateM.bind m' f' s = EStateM.bind m f s ∧ ∀ b s', EStateM.bind m f s = .ok b s' → R b s'
  unfold EStateM.bind
  rw [heq]
  cases hrun : m s with
  | ok a s1 => exact hf a s1 (hQ a s1 hrun)
  | error e s1 => exact ⟨rfl, fun b s' hrun => by cases hrun⟩

theorem ite {p : Prop} [Decidable p] {m m' k k' : Run V E W α} (h : Agrees P Q m m')
    (hk : Agrees P Q k k') : Agrees P Q (if p then m else k) (if p then m' else k') := by
  split
  · exact h
  · exact hk

end Agrees

/-- A run that leaves the innermost frame as it is. -/
def KeepsFrame (m : Run V E W α) : Prop := ∀ s a s', m s = .ok a s' → s'.frame = s.frame

theorem keepsFrame_raise (r : Except E α) : KeepsFrame (raise r : Run V E W α) := by
  intro s a s' hrun
  cases r with
  | ok b => cases hrun; rfl
  | error e => cases hrun

theorem keepsFrame_consult (M : Model V E W) (name : String) (args : List V) :
    KeepsFrame (consult M name args) :=
  fun s a s' hrun =>
    keepsFrame_raise _ { s with calls := s.calls ++ [BuiltinCall.mk name args] } a s' hrun

theorem keepsFrame_within (M : Model V E W) (name : String) (f : Function) (args : List V)
    (inside : Run V E W (Flow V)) : KeepsFrame (within M name f args inside) := by
  intro s a s' hrun
  have hmeets : Meets (within M name f args inside) s (fun _ _ => True)
      fun _ s' => s'.frame = s.frame := by
    unfold within
    refine meets_ite (fun _ => ?_) fun _ => trivial
    rw [meets_bind, meets_get, meets_bind]
    show Meets (noting M (.entered name args) >>= _) _ _ _
    rw [meets_bind, noting, meets_modify, meets_bind]
    refine Meets.intro (fun flow s1 _ => ?_) fun _ _ _ => trivial
    rw [meets_bind, meets_modify, meets_bind]
    refine Meets.intro (fun value s2 hresult => ?_) fun _ _ _ => trivial
    have hframe : s2.frame = s.frame := by
      rcases flow with _ | _ | v
      · have h := keepsFrame_raise (M.fallOff f.declared) _ _ _ hresult
        exact h
      · have h := keepsFrame_raise (M.bare f.declared) _ _ _ hresult
        exact h
      · cases hresult
        rfl
    cases value with
    | some v => exact hframe
    | none => exact hframe
  exact hmeets.of_ok hrun

theorem keepsFrame_invoke (M : Model V E W) (program : List Stmt) (loops depth : Nat)
    (name : String) (args : List V) : KeepsFrame (invoke M program loops depth name args) := by
  cases depth <;>
  · show KeepsFrame (dispatch M program _ name args)
    unfold dispatch
    split
    · exact keepsFrame_within M name _ args _
    · exact keepsFrame_consult M name args

section Spreading

variable {M : Model V E Unit} {call : String → List V → Run V E Unit (Option V)}
  (hcall : ∀ name args, KeepsFrame (call name args)) (x : String) (c : Constant)

/-- The variable holds the constant. -/
def Model.Sets (M : Model V E Unit) (x : String) (c : Constant) (s : State V Unit) : Prop :=
  s.frame.vars x = some (M.constant c)

theorem eval_var (name : String) (s : State V Unit) :
    (Expr.var name).eval M call s =
      match s.frame.vars name with
      | some value => .ok value s
      | none => .error (.unset name) s := by
  rw [Expr.eval]
  simp only [evaluated_eq_pure, bind_pure]
  show (match s.frame.vars name with
    | some value => pure value
    | none => throw (.unset name) : Run V E Unit V) s = _
  cases s.frame.vars name <;> rfl

theorem agrees_evalAll {args : List Expr}
    (h : ∀ e ∈ args, Agrees (M.Sets x c) (fun _ => M.Sets x c) (e.eval M call)
      ((e.replace x c).eval M call)) :
    Agrees (M.Sets x c) (fun _ => M.Sets x c) (Expr.evalAll M call args)
      (Expr.evalAll M call (Expr.replaceAll x c args)) := by
  induction args with
  | nil => exact .pure fun _ hs => hs
  | cons e rest ih =>
    obtain ⟨he, hrest⟩ := List.forall_mem_cons.mp h
    rw [Expr.replaceAll, Expr.evalAll, Expr.evalAll]
    exact he.bind fun _ => (ih hrest).bind fun _ => .pure fun _ hs => hs

include hcall

theorem agrees_call (name : String) (args : List V) :
    Agrees (M.Sets x c) (fun _ => M.Sets x c) (call name args) (call name args) :=
  .self fun s hs v s' hrun => by rwa [Model.Sets, hcall name args s v s' hrun]

/-- While the variable holds the constant, the one can be read for the other. -/
theorem agrees_eval (e : Expr) :
    Agrees (M.Sets x c) (fun _ => M.Sets x c) (e.eval M call) ((e.replace x c).eval M call) := by
  induction e with
  | constant k => exact .pure fun _ hs => hs
  | var name =>
    rw [Expr.replace]
    split
    · rename_i hname
      subst hname
      intro s hs
      rw [eval_var, hs]
      exact ⟨rfl, fun a s' hrun => by cases hrun; exact hs⟩
    · refine .self fun s hs a s' hrun => ?_
      rw [eval_var] at hrun
      split at hrun <;> cases hrun
      exact hs
  | binary op left right ihl ihr =>
    rw [Expr.replace, Expr.eval_binary, Expr.eval_binary]
    refine ihl.bind fun a => ?_
    unfold operate
    split
    · refine .bind (.raise _) fun _ => .ite (.pure fun _ hs => hs) ?_
      exact ihr.bind fun _ => .raise _
    · exact ihr.bind fun _ => .raise _
  | unary op operand ih =>
    rw [Expr.replace, Expr.eval_unary, Expr.eval_unary]
    exact ih.bind fun _ => .raise _
  | call name args ih =>
    rw [Expr.replace, Expr.eval, Expr.eval]
    refine (agrees_evalAll x c ih).bind fun values => (agrees_call hcall x c _ _).bind fun value => ?_
    cases value with
    | some v => exact .pure fun _ hs => hs
    | none => exact .raise _

theorem agrees_test (e : Expr) :
    Agrees (M.Sets x c) (fun _ => M.Sets x c) (e.test M call) ((e.replace x c).test M call) :=
  (agrees_eval hcall x c e).bind fun _ => .raise _

theorem agrees_perform (e : Expr) :
    Agrees (M.Sets x c) (fun _ => M.Sets x c) (e.perform M call)
      ((e.replace x c).perform M call) := by
  cases e with
  | call name args =>
    rw [Expr.replace, Expr.perform, Expr.perform]
    refine (agrees_evalAll x c fun e _ => agrees_eval hcall x c e).bind fun values =>
      (agrees_call hcall x c _ _).bind fun value => ?_
    cases value <;> exact .pure fun _ hs => hs
  | var name =>
    have hne : ∀ f args, (Expr.var name).replace x c ≠ .call f args := by
      rw [Expr.replace]
      split <;> rintro _ _ ⟨⟩
    rw [Expr.perform_of_ne call hne]
    exact (agrees_eval hcall x c _).bind fun _ => .pure fun _ hs => hs
  | _ => exact (agrees_eval hcall x c _).bind fun _ => .pure fun _ hs => hs

omit hcall in
theorem agrees_rounds {cond cond' : Run V E Unit Bool} {body body' : Run V E Unit (Flow V)}
    {P : State V Unit → Prop} (hcond : Agrees P (fun _ => P) cond cond')
    (hbody : Agrees P (fun _ => P) body body') (n : Nat) :
    Agrees P (fun _ => P) (rounds cond body n) (rounds cond' body' n) := by
  induction n with
  | zero => exact hcond.bind fun _ => .ite (.throw _) (.pure fun _ hs => hs)
  | succ n ih =>
    refine hcond.bind fun _ => .ite (hbody.bind fun flow => ?_) (.pure fun _ hs => hs)
    cases flow with
    | normal => exact ih
    | returned value => exact .pure fun _ hs => hs

omit hcall in
/-- Setting another variable leaves this one alone. -/
theorem agrees_writeVar {target : String} (h : target ≠ x) (value : V) :
    Agrees (M.Sets x c) (fun _ => M.Sets x c) (writeVar M target value)
      (writeVar M target value) := by
  refine .self fun s hs _ s' hrun => ?_
  cases hrun
  show (if x = target then some value else s.frame.vars x) = _
  rw [if_neg (Ne.symm h)]
  exact hs

variable (loops : Nat)

omit hcall in
theorem agrees_execAll
    (h : ∀ s ∈ body, Agrees (M.Sets x c) (fun _ s' => s.writes x = false → M.Sets x c s')
      (s.exec M call loops) ((s.spread x c).exec M call loops)) :
    Agrees (M.Sets x c) (fun _ s' => Stmt.writesAny x body = false → M.Sets x c s')
      (Stmt.execAll M call loops body)
      (Stmt.execAll M call loops (Stmt.spreadAll x c body)) := by
  induction body with
  | nil => exact .pure fun _ hs _ => hs
  | cons s rest ih =>
    obtain ⟨hs, hrest⟩ := List.forall_mem_cons.mp h
    rw [Stmt.spreadAll, Stmt.execAll, Stmt.execAll, Stmt.writesAny]
    cases hw : s.writes x with
    | true =>
      -- Behind an assignment of the variable nothing is changed, and nothing is promised.
      refine hs.bind fun flow => .self fun _ _ _ _ _ h => ?_
      cases h
    | false =>
      refine (hs.imp fun _ _ h => h hw).bind fun flow => ?_
      rw [Bool.false_or]
      cases flow with
      | normal => exact ih hrest
      | returned value => exact .pure fun _ hs _ => hs

/-- Where the variable holds the constant, a statement runs as the one with the constant spread over
it, and the variable keeps it if the statement does not assign the variable. -/
theorem agrees_exec (s : Stmt) :
    Agrees (M.Sets x c) (fun _ s' => s.writes x = false → M.Sets x c s')
      (s.exec M call loops) ((s.spread x c).exec M call loops) := by
  induction s with
  | assign target value =>
    rw [Stmt.spread, Stmt.exec, Stmt.exec]
    refine (agrees_eval hcall x c value).bind fun v => ?_
    by_cases htarget : target = x
    · refine .self fun _ _ _ _ _ h => ?_
      simp [Stmt.writes, htarget] at h
    · exact (agrees_writeVar x c htarget v).bind fun _ => .pure fun _ hs _ => hs
  | expr value => exact (agrees_perform hcall x c value).bind fun _ => .pure fun _ hs _ => hs
  | ret value =>
    cases value with
    | none => exact .pure fun _ hs _ => hs
    | some value => exact (agrees_eval hcall x c value).bind fun _ => .pure fun _ hs _ => hs
  | block body ih => exact agrees_execAll x c loops ih
  | ifElse cond thenBody elseBody iht ihe =>
    cases elseBody with
    | none =>
      exact (agrees_test hcall x c cond).bind fun _ =>
        .ite (agrees_execAll x c loops iht) (.pure fun _ hs _ => hs)
    | some elseBody =>
      refine (agrees_test hcall x c cond).bind fun _ => .ite ?_ ?_
      · exact (agrees_execAll x c loops iht).imp fun _ _ h hw => h (Bool.or_eq_false_iff.mp hw).1
      · exact (agrees_execAll x c loops (ihe _ rfl)).imp fun _ _ h hw =>
          h (Bool.or_eq_false_iff.mp hw).2
  | whileLoop cond body ih =>
    rw [Stmt.spread, Stmt.writes]
    cases hw : Stmt.writesAny x body with
    | true => exact .self fun _ _ _ _ _ h => by cases h
    | false =>
      rw [if_neg Bool.false_ne_true, ← Stmt.spreadAll_eq_replaceAll c hw, Stmt.exec, Stmt.exec]
      have hbody := (agrees_execAll x c loops ih).imp fun _ _ h => h hw
      exact (agrees_rounds (agrees_test hcall x c cond) hbody loops).imp fun _ _ h _ => h
  | function name params declared body _ => exact .pure fun _ hs _ => hs

/-- Behind the assignment of a constant, the constant may be spread. -/
theorem execAll_spreadAll (target : String) (later : List Stmt) :
    Stmt.execAll M call loops (.assign target (.constant c) :: Stmt.spreadAll target c later) =
      Stmt.execAll M call loops (.assign target (.constant c) :: later) := by
  have hassign : Agrees (fun _ => True) (fun _ => M.Sets target c)
      ((Stmt.assign target (.constant c)).exec M call loops)
      ((Stmt.assign target (.constant c)).exec M call loops) := by
    refine .self fun s _ flow s' hrun => ?_
    cases hrun
    exact if_pos rfl
  have hlist : Agrees (fun _ => True) (fun _ _ => True)
      (Stmt.execAll M call loops (.assign target (.constant c) :: later))
      (Stmt.execAll M call loops (.assign target (.constant c) :: Stmt.spreadAll target c later)) := by
    rw [Stmt.execAll, Stmt.execAll]
    refine hassign.bind fun flow => ?_
    cases flow with
    | normal =>
      exact (agrees_execAll target c loops fun s _ => agrees_exec hcall target c loops s).imp
        fun _ _ _ => trivial
    | returned value => exact .pure fun _ _ => trivial
  exact funext fun s => (hlist s trivial).1

end Spreading

end Meaning

/-! ## Passes -/

section Passes

variable {M : Model V E Unit} (hM : M.Faithful)
  {call : String → List V → Run V E Unit (Option V)}
  (hcall : ∀ name args, KeepsFrame (call name args)) (loops : Nat)

include hcall in
theorem Stmt.execAll_spreadBehind (target : String) (value : Expr) (later : List Stmt) :
    Stmt.execAll M call loops
        (.assign target value :: Stmt.spreadBehind (.assign target value) later) =
      Stmt.execAll M call loops (.assign target value :: later) := by
  cases value with
  | constant c => exact execAll_spreadAll hcall c loops target later
  | _ => rfl

theorem Stmt.execAll_cons_congr {s s' : Stmt} {later later' : List Stmt}
    (hs : s'.exec M call loops = s.exec M call loops)
    (hlater : Stmt.execAll M call loops later' = Stmt.execAll M call loops later) :
    Stmt.execAll M call loops (s' :: later') = Stmt.execAll M call loops (s :: later) := by
  rw [Stmt.execAll, Stmt.execAll, hs, hlater]

theorem Meaning.rounds_of_false {cond : Run V E Unit Bool} (h : cond = pure false)
    (body : Run V E Unit (Flow V)) : rounds cond body loops = pure .normal := by
  subst h
  cases loops <;> rfl

include hM hcall

/-- A pass does not change how statements run. -/
theorem Sweeps.execAll_eq {body' : List Stmt} (h : Sweeps body body') :
    Stmt.execAll M call loops body' = Stmt.execAll M call loops body := by
  induction h with
  | nil => rfl
  | @assign target value later rest _ ih =>
    have hassign : (Stmt.assign target value.fold).exec M call loops =
        (Stmt.assign target value).exec M call loops := by
      rw [Stmt.exec, Stmt.exec, Expr.eval_fold call hM]
    calc Stmt.execAll M call loops (.assign target value.fold :: rest)
      _ = Stmt.execAll M call loops (.assign target value.fold ::
            Stmt.spreadBehind (.assign target value.fold) later) :=
          Stmt.execAll_cons_congr loops rfl ih
      _ = Stmt.execAll M call loops (.assign target value.fold :: later) :=
          Stmt.execAll_spreadBehind hcall loops target value.fold later
      _ = Stmt.execAll M call loops (.assign target value :: later) :=
          Stmt.execAll_cons_congr loops hassign rfl
  | expr _ ih =>
    refine Stmt.execAll_cons_congr loops ?_ ih
    rw [Stmt.exec, Stmt.exec, Expr.perform_fold call hM]
  | @ret value _ _ _ ih =>
    refine Stmt.execAll_cons_congr loops ?_ ih
    cases value with
    | none => rfl
    | some value => rw [Option.map_some, Stmt.exec, Stmt.exec, Expr.eval_fold call hM]
  | block _ _ ihb ih =>
    refine Stmt.execAll_cons_congr loops ?_ ih
    rw [Stmt.exec, Stmt.exec, ihb]
  | @taken cond thenBody elseBody b _ _ _ hcond _ _ ihb ih =>
    refine Stmt.execAll_cons_congr loops ?_ ih
    have htest := Expr.test_of_truth? call hM hcond
    rw [Stmt.exec, ihb]
    cases elseBody <;> rw [Stmt.exec, htest, pure_bind] <;> cases b <;> rfl
  | @ifElse cond _ _ elseBody elseBody' _ _ _ _ hsome _ _ iht ihe ih =>
    refine Stmt.execAll_cons_congr loops ?_ ih
    cases elseBody <;> cases elseBody' <;> cases hsome
    · rw [Stmt.exec, Stmt.exec, Expr.test_fold call hM, iht]
    · rw [Stmt.exec, Stmt.exec, Expr.test_fold call hM, iht]
      exact congrArg _ (funext fun _ => congrArg _ ihe)
  | skipped hcond _ ih =>
    refine Stmt.execAll_cons_congr loops ?_ ih
    rw [Stmt.exec, Stmt.exec, rounds_of_false loops (Expr.test_of_truth? call hM hcond)]
    rfl
  | whileLoop _ _ _ ihb ih =>
    refine Stmt.execAll_cons_congr loops ?_ ih
    rw [Stmt.exec, Stmt.exec, Expr.test_fold call hM, ihb]
  | function _ _ _ ih => exact Stmt.execAll_cons_congr loops rfl ih

end Passes

/-! ## Programs -/

/-- A pass over a function: the head stays. -/
structure Function.SweepsTo (f f' : Function) : Prop where
  params : f'.params = f.params
  declared : f'.declared = f.declared
  body : Sweeps f.body f'.body

theorem Stmt.function?_spread (name : String) (s : Stmt) (x : String) (c : Constant) :
    (s.spread x c).function? name = s.function? name := by
  cases s with
  | ifElse cond thenBody elseBody => cases elseBody <;> rfl
  | whileLoop cond body =>
    rw [Stmt.spread]
    split <;> rfl
  | _ => rfl

/-- A pass takes the function of a name to the function of that name. -/
theorem Sweeps.function? (h : Sweeps program program') (name : String) :
    Option.Rel Function.SweepsTo (program.findSome? (Stmt.function? name))
      (program'.findSome? (Stmt.function? name)) := by
  induction h with
  | nil => exact .none
  | @assign _ value later _ _ ih =>
    rw [Stmt.findSome?_spreadBehind (Stmt.function?_spread name)] at ih
    exact ih
  | expr _ ih => exact ih
  | ret _ ih => exact ih
  | block _ _ _ ih => exact ih
  | taken _ _ _ _ ih => exact ih
  | ifElse _ _ _ _ _ _ _ ih => exact ih
  | skipped _ _ ih => exact ih
  | whileLoop _ _ _ _ ih => exact ih
  | @function f _ _ _ _ _ _ hbody _ _ ih =>
    rw [List.findSome?_cons, List.findSome?_cons, Stmt.function?, Stmt.function?]
    by_cases hf : f = name
    · rw [if_pos hf, if_pos hf]
      exact .some ⟨rfl, rfl, hbody⟩
    · rw [if_neg hf, if_neg hf]
      exact ih

section Programs

variable {M : Model V E Unit} (hM : M.Faithful)

theorem Meaning.within_congr {name : String} {f f' : Function} (h : f.SweepsTo f') (args : List V)
    (inside : Run V E Unit (Flow V)) :
    within M name f' args inside = within M name f args inside := by
  obtain ⟨params, declared, body⟩ := f
  obtain ⟨params', declared', body'⟩ := f'
  obtain ⟨rfl, rfl, _⟩ := h
  rfl

theorem Meaning.dispatch_congr (h : Sweeps program program')
    {inside inside' : Function → Run V E Unit (Flow V)}
    (hinside : ∀ f f' : Function, f.SweepsTo f' → inside' f' = inside f) :
    dispatch M program' inside' = dispatch M program inside := by
  funext name args
  unfold dispatch
  have hrel := h.function? name
  generalize program.findSome? (Stmt.function? name) = found at *
  generalize program'.findSome? (Stmt.function? name) = found' at *
  cases hrel with
  | none => rfl
  | @some f f' hf =>
    show within M name f' args (inside' f') = within M name f args (inside f)
    rw [within_congr hf, hinside f f' hf]

include hM

/-- A pass does not change what a call does. -/
theorem Sweeps.invoke_eq (h : Sweeps program program') (loops depth : Nat) :
    invoke M program' loops depth = invoke M program loops depth := by
  induction depth with
  | zero => exact dispatch_congr h fun _ _ _ => rfl
  | succ depth ih =>
    refine dispatch_congr h fun f f' hf => ?_
    rw [ih]
    exact hf.body.execAll_eq hM (fun name args => keepsFrame_invoke M program loops depth name args)
      loops

theorem Simplifies.invoke_eq (h : Simplifies program program') (loops depth : Nat) :
    invoke M program' loops depth = invoke M program loops depth := by
  induction h with
  | refl => rfl
  | step hpass _ ih => rw [ih, hpass.invoke_eq hM]

theorem Simplifies.main_eq (h : Simplifies program program') (fuel : Nat) :
    main M program' fuel = main M program fuel := by
  induction h with
  | refl => rfl
  | @step program _ _ hpass _ ih =>
    rw [ih]
    unfold Meaning.main
    rw [hpass.invoke_eq hM]
    exact hpass.execAll_eq hM (fun name args => keepsFrame_invoke M program fuel fuel name args) fuel

end Programs

/-- Simplification preserves meaning: in every model whose operators do to constant numbers what
folding does, an analyzed program and the simplified one make the same built-in calls with the same
arguments and end in the same way or not at all, and so does every call in them, on every list of
arguments and after all that was called before. -/
theorem simplify_alike {source : String} {checked : Checked}
    (h : analyze false source = .ok checked) :
    analyze true source = .ok { checked with program := checked.program.simplify } ∧
    ∃ program program', checked.program.tree? = some program ∧
      checked.program.simplify.tree? = some program' ∧
      ∀ {V E : Type} (M : Model V E Unit), M.Faithful → ∀ s : State V Unit,
        Computation.Alike (main M program) (main M program') s ∧
        ∀ name args, Computation.Alike (fun fuel => invoke M program fuel fuel name args)
          (fun fuel => invoke M program' fuel fuel name args) s := by
  have hsound := analyze_sound source
  rw [h] at hsound
  obtain ⟨_, program, hprogram⟩ := hsound
  obtain ⟨program', hholds, hsimplifies⟩ := hprogram.holds.simplify
  refine ⟨by rw [analyze_true, h]; rfl, program, program', hprogram.holds.tree?_eq,
    hholds.tree?_eq, fun M hM s => ⟨?_, fun name args => ?_⟩⟩
  · exact .of_eq (fun fuel => (hsimplifies.main_eq hM fuel).symm) s
  · exact .of_eq (fun fuel => by rw [hsimplifies.invoke_eq hM]) s

/-- The model in which operators do to constants what folding does, and nothing else; built-in
functions yield no value. -/
def Meaning.Model.folding {W : Type} (note : Moment Constant → W → W) : Model Constant Unit W where
  constant c := c
  binary op a b := (Constant.foldBinary? op a b).elim (.error ()) .ok
  unary op a := (Constant.foldUnary? op a).elim (.error ()) .ok
  truth c := c.truth?.elim (.error ()) .ok
  builtin _ _ := .ok none
  bare _ := .ok none
  fallOff _ := .ok none
  absent := .error ()
  note := note

theorem Meaning.Model.folding_faithful {W : Type} (note : Moment Constant → W → W) :
    (Model.folding note).Faithful where
  binary h := by simp only [folding, h, Option.elim]
  unary h := by simp only [folding, h, Option.elim]
  truth h := by simp only [folding, h, Option.elim]

theorem simplify_alike_sample :
    ∃ checked program program', analyze false sample = .ok checked ∧
      checked.program.tree? = some program ∧ checked.program.simplify.tree? = some program' ∧
      Computation.Alike (main (.folding fun _ => id) program)
        (main (.folding fun _ => id) program') (.start ()) ∧
      Computation.Alike (fun fuel => invoke (.folding fun _ => id) program fuel fuel "f" [.int 3])
        (fun fuel => invoke (.folding fun _ => id) program' fuel fuel "f" [.int 3]) (.start ()) := by
  obtain ⟨checked, h⟩ := sample_accepted
  obtain ⟨_, program, program', htree, htree', halike⟩ := simplify_alike h
  obtain ⟨hmain, hcalls⟩ := halike (.folding fun _ => id) (Model.folding_faithful _) (.start ())
  exact ⟨checked, program, program', h, htree, htree', hmain, hcalls "f" [.int 3]⟩

end Ifj22
