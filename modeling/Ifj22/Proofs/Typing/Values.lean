import Ifj22.Proofs.Analysis
import Ifj22.Proofs.Meaning.Fuel
set_option autoImplicit false

/-!
# Typing: values belong to the settled types

A run notes what it does.  As long as the arguments of functions and what their calls yield belong to
the types in the table of an analyzed program, so does the value of every variable and of every
expression (`settled_types_sound`): the generator may leave out the conversions that a type makes
needless.
-/

namespace Ifj22

open Meaning

variable {value : Constant} {ty : Ty} {op : BinOp} {scope : Option String} {e : Expr}
  {name : String} {f : Function}

/-! ## Values and types -/

/-- The value belongs to the type; `any` has every value. -/
def Ty.Has (ty : Ty) (value : Constant) : Prop :=
  value.ty.subset ty = true ∨ Ty.any.subset ty = true

instance (ty : Ty) : DecidablePred ty.Has := fun _ => inferInstanceAs (Decidable (_ ∨ _))

namespace Ty

theorem Has.of_subset (h : value.ty.subset ty = true) : ty.Has value :=
  .inl h

theorem Has.mono {a b : Ty} (hab : a.subset b = true) (h : a.Has value) : b.Has value :=
  h.imp (subset_trans · hab) (subset_trans · hab)

theorem int_subset_numericKinds (a : Ty) (h : Ty.int.subset a = true ∨ Ty.null.subset a = true ∨
    Ty.any.subset a = true) : Ty.int.subset a.numericKinds = true := by
  obtain ⟨bits⟩ := a
  revert bits
  decide

theorem float_subset_numericKinds (a : Ty) (h : Ty.float.subset a = true ∨ Ty.any.subset a = true) :
    Ty.float.subset a.numericKinds = true := by
  obtain ⟨bits⟩ := a
  revert bits
  decide

theorem int_subset_arithmetic {a b : Ty} (ha : Ty.int.subset a.numericKinds = true)
    (hb : Ty.int.subset b.numericKinds = true) : Ty.int.subset (a.arithmetic b) = true := by
  have hboth : (a.numericKinds.contains .int && b.numericKinds.contains .int) = true :=
    Bool.and_eq_true_iff.mpr ⟨ha, hb⟩
  have hty : ∀ rest : Ty,
      Ty.int.subset (if (Ty.int ∪ rest).isEmpty then .int else Ty.int ∪ rest) = true := by
    intro rest
    split
    · exact subset_refl _
    · exact subset_union_left _ _
  unfold arithmetic
  simp only
  rw [hboth, if_pos rfl]
  exact hty _

theorem isEmpty_union_float (a : Ty) : (a ∪ Ty.float).isEmpty = false := by
  obtain ⟨bits⟩ := a
  revert bits
  decide

theorem float_subset_arithmetic {a b : Ty} (h : Ty.float.subset a.numericKinds = true ∨
    Ty.float.subset b.numericKinds = true) : Ty.float.subset (a.arithmetic b) = true := by
  have hunion : (a.numericKinds ∪ b.numericKinds).contains .float = true := by
    rcases h with h | h
    · exact subset_trans h (subset_union_left _ _)
    · exact subset_trans h (subset_union_right _ _)
  unfold arithmetic
  simp only
  rw [hunion, if_pos rfl, isEmpty_union_float]
  exact subset_union_right _ _

end Ty

/-- The type of a sum, difference or product, and of the negation of a number: a float if an operand
is one. -/
def Constant.sumTy (a b : Constant) : Ty :=
  if a.ty = .float ∨ b.ty = .float then .float else .int

theorem Ty.Has.int_kinds (h : ty.Has value) (hstring : value.ty ≠ .string)
    (hfloat : value.ty ≠ .float) : Ty.int.subset ty.numericKinds = true := by
  refine int_subset_numericKinds ty ?_
  cases value with
  | int n => exact h.imp id .inr
  | null => exact .inr (h.imp id id)
  | float x => exact absurd rfl hfloat
  | str t => exact absurd rfl hstring

theorem Ty.Has.float_kinds (h : ty.Has value) (hfloat : value.ty = .float) :
    Ty.float.subset ty.numericKinds = true := by
  refine float_subset_numericKinds ty ?_
  rw [← hfloat]
  exact h

/-- The type of a sum covers the sums of all values of the types. -/
theorem Ty.Has.arithmetic {a b : Ty} {x y : Constant} (ha : a.Has x) (hb : b.Has y)
    (hx : x.ty ≠ .string) (hy : y.ty ≠ .string) (hvalue : value.ty = x.sumTy y) :
    (a.arithmetic b).Has value := by
  refine .of_subset ?_
  rw [hvalue]
  unfold Constant.sumTy
  split
  · rename_i hfloat
    exact float_subset_arithmetic (hfloat.imp ha.float_kinds hb.float_kinds)
  · rename_i hfloat
    obtain ⟨hxf, hyf⟩ := not_or.mp hfloat
    exact int_subset_arithmetic (ha.int_kinds hx hxf) (hb.int_kinds hy hyf)

/-! ## Models -/

namespace Meaning

variable {E : Type}

/-- Runs that note every moment, the last one first. -/
abbrev Noting (E : Type) := Run Constant E (List (Moment Constant))

/-- The states of such runs. -/
abbrev Noted := State Constant (List (Moment Constant))

/-- The operators yield values of the kinds that the language has for them; a string is no operand
of arithmetic; built-in functions yield values of their types.  An operator may fail on any
operands; only the kinds of its results are fixed. -/
structure Model.Typed (M : Model Constant E (List (Moment Constant))) : Prop where
  constant : ∀ c, M.constant c = c
  sum : ∀ {op : BinOp} {a b value : Constant}, op = .add ∨ op = .sub ∨ op = .mul →
    M.binary op a b = .ok value →
    a.ty ≠ .string ∧ b.ty ≠ .string ∧ value.ty = a.sumTy b
  div : ∀ {a b value : Constant}, M.binary .div a b = .ok value → value.ty = .float
  concat : ∀ {a b value : Constant}, M.binary .concat a b = .ok value → value.ty = .string
  truth : ∀ {op : BinOp} {a b value : Constant},
    op.isOrdering = true ∨ op.isIdentity = true ∨ op.shortcut?.isSome = true →
    M.binary op a b = .ok value → value.ty = .int
  negate : ∀ {a value : Constant}, M.unary .negate a = .ok value →
    a.ty ≠ .string ∧ value.ty = (Constant.int 0).sumTy a
  not : ∀ {a value : Constant}, M.unary .not a = .ok value → value.ty = .int
  builtin : ∀ {calls : List (BuiltinCall Constant)} {name : String} {args : List Constant}
    {value : Constant}, M.builtin calls ⟨name, args⟩ = .ok (some value) →
    ∀ b ∈ SymbolTable.builtinList, b.name = name → b.ret.Has value
  /-- A call that yields no value has none. -/
  absent : ∀ value, M.absent ≠ .ok value
  note : ∀ moment notes, M.note moment notes = moment :: notes

theorem Model.Typed.binary_has {M : Model Constant E (List (Moment Constant))} (hM : M.Typed)
    {l r : Ty} {a b : Constant} (ha : l.Has a) (hb : r.Has b) (h : M.binary op a b = .ok value) :
    (op.resultTy l r).Has value := by
  cases op with
  | add | sub | mul =>
    obtain ⟨has, hbs, hvalue⟩ := hM.sum (by simp) h
    exact ha.arithmetic hb has hbs hvalue
  | div => exact .of_subset (by rw [hM.div h]; exact Ty.subset_refl _)
  | concat => exact .of_subset (by rw [hM.concat h]; exact Ty.subset_refl _)
  | _ => exact .of_subset (by rw [hM.truth (by decide) h]; exact Ty.subset_refl _)

theorem Model.Typed.unary_has {M : Model Constant E (List (Moment Constant))} (hM : M.Typed)
    {op : UnaryOp} {a : Constant} (ha : ty.Has a) (h : M.unary op a = .ok value) :
    (op.resultTy ty).Has value := by
  cases op with
  | negate =>
    obtain ⟨hstring, hvalue⟩ := hM.negate h
    exact Ty.Has.arithmetic (.of_subset (Ty.subset_refl _)) ha (by decide) hstring hvalue
  | not => exact .of_subset (by rw [hM.not h]; exact Ty.subset_refl _)

/-! ## Moments -/

/-- Every variable that is set belongs to its type in the scope of the frame. -/
def Frame.Typed (t : SymbolTable) (f : Frame Constant) : Prop :=
  ∀ x value, f.vars x = some value → ((TypeEnv.ofScope t f.scope).varTy x).Has value

/-- Every variable that is set, and the value of the expression that was evaluated, belong to their
types. -/
def Moment.Typed (t : SymbolTable) (m : Moment Constant) : Prop :=
  (∀ f ∈ m.frames, f.Typed t) ∧
    ∀ e value, m.event = .evaluated e value → ∀ f, m.frames.head? = some f →
      (e.infer (TypeEnv.ofScope t f.scope)).Has value

/-- The arguments of a function belong to the types of its parameters, and what a call of a
function yields belongs to the type of the call.  Analysis does not make sure of that, so it is a
condition on the run. -/
def Event.Fair (t : SymbolTable) (program : List Stmt) : Event Constant → Prop
  | .entered callee args => ∀ f ∈ program.findSome? (Stmt.function? callee),
    ∀ p ∈ f.params.zip args, ((TypeEnv.ofScope t (some callee)).varTy p.1.name).Has p.2
  | .yielded callee value => (t.callTy callee).Has value
  | _ => True

instance (t : SymbolTable) (program : List Stmt) : DecidablePred (Event.Fair t program)
  | .entered _ _ => inferInstanceAs (Decidable (∀ f ∈ _, ∀ p ∈ _, Ty.Has _ _))
  | .yielded _ _ => inferInstanceAs (Decidable (Ty.Has _ _))
  | .evaluated _ _ => inferInstanceAs (Decidable True)
  | .assigned _ _ => inferInstanceAs (Decidable True)

/-- The moments so far are fair. -/
def Fair (t : SymbolTable) (program : List Stmt) (notes : List (Moment Constant)) : Prop :=
  ∀ m ∈ notes, m.event.Fair t program

instance (t : SymbolTable) (program : List Stmt) : DecidablePred (Fair t program) :=
  fun notes => inferInstanceAs (Decidable (∀ m ∈ notes, m.event.Fair t program))

/-- The variables now, and the moments so far, are typed. -/
structure State.Typed (t : SymbolTable) (s : Noted) : Prop where
  frames : ∀ f ∈ s.frames, f.Typed t
  notes : ∀ m ∈ s.notes, m.Typed t

/-- A typed state in the given scope. -/
structure State.In (t : SymbolTable) (scope : Option String) (s : Noted) : Prop
    extends s.Typed t where
  scope : s.frame.scope = scope

/-! ## Sound runs -/

variable {α β : Type}

/-- From a state with `P`, as long as all moments are fair, the run ends typed, and in a state with
`Q` if it yields a value. -/
def Sound (t : SymbolTable) (program : List Stmt) (P : Noted → Prop) (m : Noting E α)
    (Q : α → Noted → Prop) : Prop :=
  ∀ s, Meets m s
    (fun _ s' => s.notes <:+ s'.notes ∧ (P s → Fair t program s'.notes → s'.Typed t))
    (fun a s' => s.notes <:+ s'.notes ∧ (P s → Fair t program s'.notes → Q a s'))

/-- A sound run in one scope: it is known that `K` before the run, and that `L` of what it yields. -/
def Keeps (t : SymbolTable) (program : List Stmt) (scope : Option String) (K : Prop)
    (m : Noting E α) (L : α → Prop) : Prop :=
  Sound t program (fun s => s.In t scope ∧ K) m fun a s => s.In t scope ∧ L a

section Rules

variable {t : SymbolTable} {program : List Stmt}

theorem Sound.bind {P : Noted → Prop} {Q : α → Noted → Prop} {R : β → Noted → Prop}
    {m : Noting E α} {f : α → Noting E β} (h : Sound t program P m Q)
    (hf : ∀ a, Sound t program (Q a) (f a) R) : Sound t program P (m >>= f) R := by
  intro s
  rw [meets_bind]
  refine (h s).imp fun a s1 ⟨hgrow, ha⟩ => ?_
  -- The moments up to the middle are among those up to the end.
  refine (hf a s1).mono ?_ ?_
  all_goals
    intro _ s2 ⟨hgrow', hr⟩
    refine ⟨hgrow.trans hgrow', fun hs hfair => hr (ha hs ?_) hfair⟩
    exact fun m hm => hfair m (hgrow'.subset hm)

namespace Keeps

variable {K K' : Prop} {L L' : α → Prop} {N : β → Prop}

/-- What is known before a run is known behind it. -/
theorem imp {m : Noting E α} (h : Keeps t program scope K m L) (hK : K' → K)
    (hL : ∀ a, L a → K' → L' a) : Keeps t program scope K' m L' := by
  intro s
  refine (h s).mono (fun _ s' ⟨hgrow, he⟩ => ⟨hgrow, fun hs => he (hs.imp_right hK)⟩) ?_
  refine fun a s' ⟨hgrow, ha⟩ => ⟨hgrow, fun hs hfair => ?_⟩
  obtain ⟨hs', hl⟩ := ha (hs.imp_right hK) hfair
  exact ⟨hs', hL a hl hs.2⟩

theorem pure {a : α} (h : K → L a) : Keeps (E := E) t program scope K (pure a) L :=
  fun _ => ⟨List.suffix_refl _, fun hs _ => hs.imp_right h⟩

theorem throw {e : Fault E} : Keeps t program scope K (throw e) L :=
  fun _ => ⟨List.suffix_refl _, fun hs _ => hs.1.toTyped⟩

theorem bind {m : Noting E α} {f : α → Noting E β} (h : Keeps t program scope K m L)
    (hf : ∀ a, Keeps t program scope (L a) (f a) N) : Keeps t program scope K (m >>= f) N :=
  Sound.bind h hf

theorem raise {r : Except E α} (h : ∀ a, r = .ok a → K → L a) :
    Keeps t program scope K (raise r) L := by
  cases r with
  | ok a => exact pure (h a rfl)
  | error e => exact throw

theorem ite {p : Prop} [Decidable p] {m m' : Noting E α} (h : Keeps t program scope K m L)
    (h' : Keeps t program scope K m' L) : Keeps t program scope K (if p then m else m') L := by
  split
  · exact h
  · exact h'

end Keeps

end Rules

/-! ## Steps -/

section Steps

variable {M : Model Constant E (List (Moment Constant))} (hM : M.Typed) {t : SymbolTable}
  {program : List Stmt} {scope : Option String}

include hM

theorem keeps_noting (event : Event Constant) :
    Keeps t program scope
      (∀ e value, event = .evaluated e value → (e.infer (TypeEnv.ofScope t scope)).Has value)
      (noting M event) fun _ => True := by
  intro s
  show _ ∧ _
  simp only [hM.note]
  refine ⟨List.suffix_cons _ _, fun ⟨hs, hevent⟩ _ => ⟨⟨⟨hs.frames, ?_⟩, hs.scope⟩, trivial⟩⟩
  refine List.forall_mem_cons.mpr ⟨⟨hs.frames, fun e value he f hf => ?_⟩, hs.notes⟩
  obtain rfl : s.frame = f := Option.some.inj hf
  rw [hs.scope]
  exact hevent e value he

theorem keeps_evaluated (e : Expr) (value : Constant) :
    Keeps t program scope ((e.infer (TypeEnv.ofScope t scope)).Has value) (evaluated M e value)
      (e.infer (TypeEnv.ofScope t scope)).Has := by
  refine ((keeps_noting hM (.evaluated e value)).imp (fun h => ?_) fun _ _ => id).bind
    fun _ => .pure id
  rintro _ _ ⟨⟩
  exact h

omit hM in
theorem keeps_readVar (name : String) :
    Keeps (E := E) t program scope True (readVar name)
      ((TypeEnv.ofScope t scope).varTy name).Has := by
  intro s
  unfold readVar
  rw [meets_bind, meets_get]
  cases hvar : s.frame.vars name with
  | none => exact ⟨List.suffix_refl _, fun hs _ => hs.1.toTyped⟩
  | some value =>
    refine ⟨List.suffix_refl _, fun ⟨hs, _⟩ _ => ⟨hs, ?_⟩⟩
    have htyped := hs.frames s.frame (.head _) name value hvar
    rwa [hs.scope] at htyped

theorem keeps_writeVar (target : String) (value : Constant) :
    Keeps t program scope (((TypeEnv.ofScope t scope).varTy target).Has value)
      (writeVar M target value) fun _ => True := by
  refine Keeps.bind (L := fun _ => True) ?_ fun _ =>
    (keeps_noting hM _).imp (fun _ => nofun) fun _ _ => id
  intro s
  refine ⟨List.suffix_refl _, fun ⟨hs, hvalue⟩ _ => ⟨⟨⟨?_, hs.notes⟩, hs.scope⟩, trivial⟩⟩
  obtain ⟨hframe, hcallers⟩ := List.forall_mem_cons.mp hs.frames
  refine List.forall_mem_cons.mpr ⟨fun x v hx => ?_, hcallers⟩
  show ((TypeEnv.ofScope t s.frame.scope).varTy x).Has v
  replace hx : (if x = target then some value else s.frame.vars x) = some v := hx
  split at hx
  · rename_i htarget
    cases hx
    rw [hs.scope, htarget]
    exact hvalue
  · exact hframe x v hx

theorem keeps_operate (op : BinOp) {l r : Ty} (a : Constant) {right : Noting E Constant}
    (hright : Keeps t program scope True right r.Has) :
    Keeps t program scope (l.Has a) (operate M op a right) (op.resultTy l r).Has := by
  have hboth : Keeps t program scope (l.Has a) (right >>= fun b => raise (M.binary op a b))
      (op.resultTy l r).Has :=
    (hright.imp (fun _ => trivial) fun _ => And.intro).bind fun b =>
      .raise fun value hvalue h => hM.binary_has h.2 h.1 hvalue
  unfold operate
  cases hop : op.shortcut? with
  | none => exact hboth
  | some decided =>
    refine Keeps.bind (.raise fun _ _ => id) fun b => .ite (.pure fun _ => ?_) hboth
    -- Only the two logical operators are decided by one operand, and they yield ints.
    have hint : op.resultTy l r = .int := by
      cases op with
      | and | or => rfl
      | _ => cases hop
    rw [hint, Model.ofBool, hM.constant]
    exact .of_subset (Ty.subset_refl _)

omit hM in
theorem keeps_rounds {cond : Noting E Bool} {body : Noting E (Flow Constant)}
    (hcond : Keeps t program scope True cond fun _ => True)
    (hbody : Keeps t program scope True body fun _ => True) (n : Nat) :
    Keeps t program scope True (rounds cond body n) fun _ => True := by
  induction n with
  | zero => exact hcond.bind fun _ => .ite .throw (.pure id)
  | succ n ih =>
    refine hcond.bind fun _ => .ite (hbody.bind fun flow => ?_) (.pure id)
    cases flow with
    | normal => exact ih
    | returned value => exact .pure id

end Steps

/-! ## Expressions -/

section Trees

variable {M : Model Constant E (List (Moment Constant))} (hM : M.Typed) {t : SymbolTable}
  {program : List Stmt} {call : String → List Constant → Noting E (Option Constant)}

/-- What a call yields belongs to its type. -/
def CallsSound (t : SymbolTable) (program : List Stmt)
    (call : String → List Constant → Noting E (Option Constant)) : Prop :=
  ∀ {name n}, t.Callable name n → ∀ args scope, Keeps t program scope True (call name args)
    fun value => ∀ v ∈ value, (t.callTy name).Has v

theorem keeps_evalAll {args : List Expr}
    (h : ∀ e ∈ args, Keeps t program scope True (e.eval M call) fun _ => True) :
    Keeps t program scope True (Expr.evalAll M call args) fun _ => True := by
  induction args with
  | nil => exact .pure id
  | cons e rest ih =>
    obtain ⟨he, hrest⟩ := List.forall_mem_cons.mp h
    rw [Expr.evalAll]
    exact he.bind fun _ => (ih hrest).bind fun _ => .pure id

variable (hcall : CallsSound t program call)

include hM hcall

/-- The value of an expression belongs to its type. -/
theorem keeps_eval (he : e.Over (t.vocabulary scope)) :
    Keeps t program scope True (e.eval M call) (e.infer (TypeEnv.ofScope t scope)).Has := by
  induction he with
  | constant c =>
    rw [Expr.eval, hM.constant]
    exact (keeps_evaluated hM (.constant c) c).imp (fun _ => .of_subset (Ty.subset_refl _))
      fun _ h _ => h
  | @var name _ =>
    rw [Expr.eval]
    exact (keeps_readVar name).bind fun value => keeps_evaluated hM (.var name) value
  | @binary op left right _ _ ihl ihr =>
    rw [Expr.eval]
    refine ihl.bind fun a => (keeps_operate hM op a ihr).bind fun value => ?_
    exact keeps_evaluated hM (.binary op left right) value
  | @unary op operand _ ih =>
    rw [Expr.eval]
    refine ih.bind fun a => Keeps.bind (.raise fun value hvalue h => ?_) fun value =>
      keeps_evaluated hM (.unary op operand) value
    exact hM.unary_has h hvalue
  | @call name args hcallee hargs ih =>
    rw [Expr.eval]
    refine (keeps_evalAll fun e he => (ih e he).imp id fun _ _ => id).bind
      fun values => (hcall hcallee values scope).bind fun value => ?_
    cases value with
    | some value =>
      refine (keeps_evaluated hM (.call name args) value).imp (fun h => ?_) fun _ h _ => h
      rw [Expr.infer, SymbolTable.callTy_ofScope]
      exact h value rfl
    | none => exact .raise fun v habsent _ => absurd habsent (hM.absent v)

theorem keeps_test (he : e.Over (t.vocabulary scope)) :
    Keeps t program scope True (e.test M call) fun _ => True :=
  (keeps_eval hM hcall he).bind fun _ => .raise fun _ _ _ => trivial

theorem keeps_perform (he : e.Over (t.vocabulary scope)) :
    Keeps t program scope True (e.perform M call) fun _ => True := by
  have heval := keeps_eval hM hcall he
  cases he with
  | @call name args hcallee hargs =>
    rw [Expr.perform]
    refine (keeps_evalAll fun e he => (keeps_eval hM hcall (hargs e he)).imp id
      fun _ _ => id).bind fun values => (hcall hcallee values scope).bind fun value => ?_
    cases value with
    | some value =>
      refine (keeps_noting hM _).imp (fun h => ?_) fun _ _ _ => trivial
      rintro _ _ ⟨⟩
      rw [Expr.infer, SymbolTable.callTy_ofScope]
      exact h value rfl
    | none => exact .pure fun _ => trivial
  | _ => exact heval.bind fun _ => .pure fun _ => trivial

/-! ## Statements -/

variable (loops : Nat)

omit hM hcall in
theorem keeps_execAll {body : List Stmt}
    (h : ∀ s ∈ body, Keeps t program scope True (s.exec M call loops) fun _ => True) :
    Keeps t program scope True (Stmt.execAll M call loops body) fun _ => True := by
  induction body with
  | nil => exact .pure id
  | cons s rest ih =>
    obtain ⟨hs, hrest⟩ := List.forall_mem_cons.mp h
    rw [Stmt.execAll]
    refine hs.bind fun flow => ?_
    cases flow with
    | normal => exact ih hrest
    | returned value => exact .pure id

/-- A settled statement keeps the variables in their types. -/
theorem keeps_exec {scope : Option SettleScope} {s : Stmt}
    (hsettled : s.Settled t scope) (hover : s.Over (t.vocabulary (scope.map (·.name)))) :
    Keeps t program (scope.map (·.name)) True (s.exec M call loops) fun _ => True := by
  induction hsettled with
  | @assign scope target value hassign =>
    cases hover with
    | assign htarget hvalue =>
      rw [Stmt.exec]
      refine (keeps_eval hM hcall hvalue).bind fun v => Keeps.bind ?_ fun _ => .pure id
      refine (keeps_writeVar hM target v).imp (fun h => ?_) fun _ h _ => h
      obtain ⟨ty, hty, hvar⟩ := SymbolTable.varTy_of_var htarget
      rw [hvar]
      exact h.mono (hassign ty hty)
  | expr =>
    cases hover with
    | expr hvalue => exact (keeps_perform hM hcall hvalue).bind fun _ => .pure id
  | @ret _ value _ =>
    cases hover with
    | ret hvalue =>
      cases value with
      | none => exact .pure id
      | some value =>
        exact (keeps_eval hM hcall (hvalue value rfl)).bind fun _ => .pure fun _ => trivial
  | block _ ih =>
    cases hover with
    | block hbody => exact keeps_execAll loops fun s hs => ih s hs (hbody s hs)
  | @ifElse _ _ _ elseBody _ _ iht ihe =>
    cases hover with
    | ifElse hcond hthen helse =>
      have hthen := keeps_execAll loops fun s hs => iht s hs (hthen s hs)
      cases elseBody with
      | none => exact (keeps_test hM hcall hcond).bind fun _ => .ite hthen (.pure id)
      | some elseBody =>
        exact (keeps_test hM hcall hcond).bind fun _ => .ite hthen
          (keeps_execAll loops fun s hs => ihe _ rfl s hs (helse _ rfl s hs))
  | whileLoop _ ih =>
    cases hover with
    | whileLoop hcond hbody =>
      exact keeps_rounds (keeps_test hM hcall hcond)
        (keeps_execAll loops fun s hs => ih s hs (hbody s hs)) loops
  | function => cases hover

end Trees

/-! ## Calls -/

section Calls

variable {M : Model Constant E (List (Moment Constant))} (hM : M.Typed) {t : SymbolTable}
  {program : List Stmt} {scope : Option String}

theorem exists_of_lookup {params : List Param} {args : List Constant} {x : String}
    (h : ((params.map (·.name)).zip args).lookup x = some value) :
    ∃ p, (p, value) ∈ params.zip args ∧ p.name = x := by
  induction params generalizing args with
  | nil => cases h
  | cons p params ih =>
    cases args with
    | nil => cases h
    | cons arg args =>
      rw [List.map_cons, List.zip_cons_cons, List.lookup_cons] at h
      by_cases hx : x = p.name
      · rw [beq_iff_eq.mpr hx] at h
        cases h
        exact ⟨p, (.head _), hx.symm⟩
      · rw [beq_eq_false_iff_ne.mpr hx] at h
        obtain ⟨q, hq, hname⟩ := ih h
        exact ⟨q, List.mem_cons_of_mem _ hq, hname⟩

include hM

/-- With arguments of the types of its parameters a function starts typed. -/
theorem sound_entered (args : List Constant) (hf : program.findSome? (Stmt.function? name) = some f)
    (outer : Noted) :
    Sound t program
      (fun s => (s.frame = .start name f args ∧ s.callers = outer.frames ∧
        s.notes = outer.notes) ∧ outer.In t scope)
      (noting M (.entered name args)) fun _ s => s.In t (some name) ∧ outer.In t scope := by
  intro s
  show _ ∧ _
  simp only [hM.note]
  refine ⟨List.suffix_cons _ _, fun ⟨⟨hframe, hcallers, hnotes⟩, houter⟩ hfair => ?_⟩
  have hargs := hfair _ (.head _) f hf
  have hframes : ∀ f ∈ s.frames, f.Typed t := by
    unfold State.frames
    rw [hframe, hcallers]
    refine List.forall_mem_cons.mpr ⟨fun x value hx => ?_, houter.frames⟩
    obtain ⟨p, hp, rfl⟩ := exists_of_lookup hx
    exact hargs (p, value) hp
  have hscope : s.frame.scope = some name := by rw [hframe]; rfl
  refine ⟨⟨⟨hframes, ?_⟩, hscope⟩, houter⟩
  rw [hnotes]
  exact List.forall_mem_cons.mpr ⟨⟨hframes, nofun⟩, houter.notes⟩

theorem keeps_yielded (name : String) (value : Option Constant) :
    Keeps t program scope True (yielded M name value)
      fun value => ∀ v ∈ value, (t.callTy name).Has v := by
  cases value with
  | none => exact .pure fun _ => nofun
  | some value =>
    intro s
    show _ ∧ _
    simp only [hM.note]
    refine ⟨List.suffix_cons _ _, fun ⟨hs, _⟩ hfair => ⟨⟨⟨hs.frames, ?_⟩, hs.scope⟩, ?_⟩⟩
    · exact List.forall_mem_cons.mpr ⟨⟨hs.frames, nofun⟩, hs.notes⟩
    · rintro _ ⟨⟩
      exact hfair _ (.head _)

theorem keeps_within (args : List Constant) (hf : program.findSome? (Stmt.function? name) = some f)
    {inside : Noting E (Flow Constant)}
    (hinside : Keeps t program (some name) True inside fun _ => True) :
    Keeps t program scope True (within M name f args inside)
      fun value => ∀ v ∈ value, (t.callTy name).Has v := by
  intro s
  unfold within
  refine meets_ite (fun _ => ?_) fun _ => ⟨List.suffix_refl _, fun hs _ => hs.1.toTyped⟩
  rw [meets_bind, meets_get, meets_bind]
  have hrestore : Sound (E := E) t program (fun s' => s'.In t (some name) ∧ s.In t scope)
      (modify fun s' => { s' with frame := s.frame, callers := s.callers })
      fun _ s' => s'.In t scope ∧ True := by
    intro s'
    exact ⟨List.suffix_refl _, fun ⟨hs', hs⟩ _ => ⟨⟨⟨hs.frames, hs'.notes⟩, hs.scope⟩, trivial⟩⟩
  have hresult : ∀ flow, Keeps t program scope True (M.result f.declared flow) fun _ => True := by
    rintro (_ | _ | value)
    · exact .raise fun _ _ => id
    · exact .raise fun _ _ => id
    · exact .pure id
  have hrest := (sound_entered hM args hf s).bind fun _ =>
    Sound.bind (hinside.imp (fun _ => trivial) fun _ _ => id) fun flow => hrestore.bind fun _ =>
      (hresult flow).bind fun value => keeps_yielded hM name value
  refine (hrest { s with frame := .start name f args, callers := s.frames }).mono ?_ ?_
  · exact fun _ s' ⟨hgrow, he⟩ => ⟨hgrow, fun hs => he ⟨⟨rfl, rfl, rfl⟩, hs.1⟩⟩
  · exact fun a s' ⟨hgrow, ha⟩ => ⟨hgrow, fun hs => ha ⟨⟨rfl, rfl, rfl⟩, hs.1⟩⟩

/-- The function of a name that no function of the program has is a built-in one. -/
def BuiltinsKnown (t : SymbolTable) (program : List Stmt) : Prop :=
  ∀ {name n}, t.Callable name n → program.findSome? (Stmt.function? name) = none →
    ∃ b ∈ SymbolTable.builtinList, b.name = name ∧
      ∀ value, b.ret.Has value → (t.callTy name).Has value

theorem keeps_consult (hknown : BuiltinsKnown t program) {n : Nat} (hcallee : t.Callable name n)
    (hnone : program.findSome? (Stmt.function? name) = none) (args : List Constant) :
    Keeps t program scope True (consult M name args)
      fun value => ∀ v ∈ value, (t.callTy name).Has v := by
  obtain ⟨b, hb, hname, hret⟩ := hknown hcallee hnone
  intro s
  -- The record of the call touches neither the variables nor the notes.
  have hsame (hs : s.In t scope) : State.In t scope { s with calls := s.calls ++ [⟨name, args⟩] } :=
    ⟨⟨hs.frames, hs.notes⟩, hs.scope⟩
  refine (Keeps.raise (K := True) ?_ { s with calls := s.calls ++ [⟨name, args⟩] }).mono
    (fun _ s' ⟨hgrow, he⟩ => ⟨hgrow, fun hs => he (hs.imp_left hsame)⟩)
    fun a s' ⟨hgrow, ha⟩ => ⟨hgrow, fun hs => ha (hs.imp_left hsame)⟩
  rintro _ hvalue _ v rfl
  exact hret v (hM.builtin hvalue b hb hname)

/-- Every function of the program is made of settled statements over the names of its scope. -/
def FunctionsSettled (t : SymbolTable) (program : List Stmt) : Prop :=
  ∀ {name f}, program.findSome? (Stmt.function? name) = some f → ∀ s ∈ f.body,
    s.Over (t.vocabulary (some name)) ∧ s.Settled t (some ⟨name, f.declared.isNone⟩)

theorem keeps_dispatch (hknown : BuiltinsKnown t program) {n : Nat} (hcallee : t.Callable name n)
    {inside : Function → Noting E (Flow Constant)}
    (hinside : ∀ f, program.findSome? (Stmt.function? name) = some f →
      Keeps t program (some name) True (inside f) fun _ => True) (args : List Constant) :
    Keeps t program scope True (dispatch M program inside name args)
      fun value => ∀ v ∈ value, (t.callTy name).Has v := by
  unfold dispatch
  split
  · rename_i f hf
    exact keeps_within hM args hf (hinside f hf)
  · rename_i hnone
    exact keeps_consult hM hknown hcallee hnone args

theorem callsSound_invoke (hknown : BuiltinsKnown t program)
    (hfunctions : FunctionsSettled t program) (loops depth : Nat) :
    CallsSound t program (invoke M program loops depth) := by
  induction depth with
  | zero => exact fun hcallee args _ => keeps_dispatch hM hknown hcallee (fun _ _ => .throw) args
  | succ depth ih =>
    intro name n hcallee args scope
    refine keeps_dispatch hM hknown hcallee (fun f hf => keeps_execAll loops fun s hs => ?_) args
    obtain ⟨hover, hsettled⟩ := hfunctions hf s hs
    exact keeps_exec hM ih loops hsettled hover

/-- A program of settled statements keeps the variables in their types. -/
theorem keeps_main (hknown : BuiltinsKnown t program) (hfunctions : FunctionsSettled t program)
    (hover : ∀ s ∈ program, s.OverTop t.lexicon) (hsettled : ∀ s ∈ program, s.Settled t none)
    (fuel : Nat) : Keeps t program none True (main M program fuel) fun _ => True := by
  refine keeps_execAll fuel fun s hs => ?_
  cases hover s hs with
  | stmt hs' =>
    exact keeps_exec hM (callsSound_invoke hM hknown hfunctions fuel fuel) fuel (hsettled s hs) hs'
  | function => exact .pure id

end Calls

end Meaning

/-! ## Analyzed programs -/

theorem Stmt.function?_eq_some {s : Stmt} (h : s.function? name = some f) :
    s = .function name f.params f.declared f.body := by
  cases s with
  | function g params declared body =>
    rw [Stmt.function?] at h
    split at h
    · rename_i hname
      cases h
      rw [hname]
    · cases h
  | _ => cases h

theorem Stmt.functionName?_of_function? {program : List Stmt}
    (h : program.findSome? (Stmt.function? name) = none) :
    name ∉ program.filterMap Stmt.functionName? := by
  intro hmem
  obtain ⟨s, hs, hname⟩ := List.mem_filterMap.mp hmem
  have hnone := List.findSome?_eq_none_iff.mp h s hs
  cases s with
  | function g params declared body =>
    cases hname
    rw [Stmt.function?, if_pos rfl] at hnone
    cases hnone
  | _ => cases hname

namespace Checked.Sound

variable {checked : Checked} {program : List Stmt}

theorem functionsSettled (h : checked.Sound program) :
    FunctionsSettled checked.table program := by
  intro name f hf s hs
  obtain ⟨u, hu, hfun⟩ := List.exists_of_findSome?_eq_some hf
  rw [Stmt.function?_eq_some hfun] at hu
  constructor
  · exact (h.known _ hu).inside s hs
  · cases h.settled _ hu with
    | function hbody => exact hbody s hs

theorem builtinsKnown (h : checked.Sound program) : BuiltinsKnown checked.table program := by
  intro name n hcallee hnone
  obtain ⟨s, hs, hfun, _⟩ := hcallee
  obtain ⟨t, hhoists, hgrows⟩ := h.grown
  obtain ⟨s0, hs0⟩ := hgrows.functions hs hfun
  obtain ⟨s', hs', hg⟩ := hgrows.symbols hs0
  cases hs.symm.trans hs'
  rw [hhoists.others name (Stmt.functionName?_of_function? hnone)] at hs0
  obtain ⟨b, hb, rfl⟩ := List.mem_map.mp (List.mem_of_find?_eq_some hs0)
  refine ⟨b, hb, Table.find?_name hs0, fun value hvalue => ?_⟩
  unfold SymbolTable.callTy
  rw [hs, Option.map_some, Option.getD_some, Symbol.callType]
  split
  · exact .inr (Ty.subset_refl _)
  · exact hvalue.mono hg.ty

end Checked.Sound

/-- The settled types are sound: in every run of an analyzed program in which the arguments of
functions belong to the types of the parameters and what calls of functions yield belongs to the
types of the calls, the value of every variable that is set belongs to its type at every moment, and
so does the value of every expression that is evaluated. -/
theorem settled_types_sound {source : String} {checked : Checked}
    (h : analyze false source = .ok checked) :
    ∃ program, checked.program.tree? = some program ∧
      ∀ {E : Type} (M : Model Constant E (List (Moment Constant))), M.Typed → ∀ fuel,
        Fair checked.table program (after (main M program fuel (.start []))).notes →
        (∀ f ∈ (after (main M program fuel (.start []))).frames, f.Typed checked.table) ∧
          ∀ m ∈ (after (main M program fuel (.start []))).notes, m.Typed checked.table := by
  have hsound := analyze_sound source
  rw [h] at hsound
  obtain ⟨_, program, hprogram⟩ := hsound
  refine ⟨program, hprogram.holds.tree?_eq, fun M hM fuel hfair => ?_⟩
  have hstart : State.In checked.table none (.start []) ∧ True :=
    ⟨⟨⟨List.forall_mem_singleton.mpr nofun, nofun⟩, rfl⟩, trivial⟩
  have hmain := keeps_main hM hprogram.builtinsKnown hprogram.functionsSettled hprogram.known
    hprogram.settled fuel (.start [])
  have htyped : (after (main M program fuel (.start []))).Typed checked.table := by
    cases hrun : main M program fuel (.start []) with
    | ok flow s =>
      rw [hrun] at hfair
      exact ((hmain.of_ok hrun).2 hstart hfair).1.toTyped
    | error e s =>
      rw [hrun] at hfair
      exact (hmain.of_error hrun).2 hstart hfair
  exact ⟨htyped.frames, htyped.notes⟩

/-- The model of the ints: every other operand is refused, and built-in functions yield no value. -/
def Meaning.Model.ints : Model Constant Unit (List (Moment Constant)) where
  constant c := c
  binary
    | op, .int a, .int b => ((Node.foldInts? op a b).bind Node.constant?).elim (.error ()) .ok
    | _, _, _ => .error ()
  unary
    | .negate, .int a => .ok (.int (-a))
    | .not, .int a => .ok (.int (if a = 0 then 1 else 0))
    | _, _ => .error ()
  truth
    | .int a => .ok (a != 0)
    | _ => .error ()
  builtin _ _ := .ok none
  bare _ := .ok none
  fallOff _ := .ok none
  absent := .error ()
  note := List.cons

theorem Node.eq_int_of_foldInts? {a b : Int64} {node : Node}
    (h : Node.foldInts? op a b = some node) : (∃ k, node = .int k) ∧ op ≠ .div ∧ op ≠ .concat := by
  unfold Node.foldInts? at h
  split at h
  all_goals first
    | exact ⟨(Option.map_eq_some_iff.mp h).imp fun _ hk => hk.2.symm, by decide⟩
    | exact ⟨⟨_, (Option.some.inj h).symm⟩, by decide⟩
    | cases h

theorem Meaning.Model.ints_binary {a b : Constant} (h : Model.ints.binary op a b = .ok value) :
    a.ty = .int ∧ b.ty = .int ∧ value.ty = .int ∧ op ≠ .div ∧ op ≠ .concat := by
  cases a with
  | int x =>
    cases b with
    | int y =>
      replace h : ((Node.foldInts? op x y).bind Node.constant?).elim
          (Except.error ()) Except.ok = .ok value := h
      cases hfold : Node.foldInts? op x y with
      | none =>
        rw [hfold] at h
        cases h
      | some node =>
        obtain ⟨⟨k, rfl⟩, hdiv, hconcat⟩ := Node.eq_int_of_foldInts? hfold
        rw [hfold] at h
        cases h
        exact ⟨rfl, rfl, rfl, hdiv, hconcat⟩
    | _ => cases h
  | _ => cases h

theorem Meaning.Model.ints_typed : Model.ints.Typed where
  constant _ := rfl
  sum _ h := by
    obtain ⟨ha, hb, hvalue, _⟩ := ints_binary h
    rw [ha, hb, hvalue, Constant.sumTy, ha, hb]
    decide
  div h := absurd rfl (ints_binary h).2.2.2.1
  concat h := absurd rfl (ints_binary h).2.2.2.2
  truth _ h := (ints_binary h).2.2.1
  negate {a value} h := by
    cases a <;> cases h
    exact ⟨by rintro ⟨⟩, rfl⟩
  not {a value} h := by
    cases a <;> cases h
    rfl
  builtin h := by cases h
  absent _ := nofun
  note _ _ := rfl

theorem settled_types_sound_sample :
    ∃ checked program, analyze false sample = .ok checked ∧ checked.program.tree? = some program ∧
      Fair checked.table program
        (after (main .ints program 10 (.start []))).notes ∧
      (∀ f ∈ (after (main .ints program 10 (.start []))).frames,
        f.Typed checked.table) ∧
      ∀ m ∈ (after (main .ints program 10 (.start []))).notes,
        m.Typed checked.table := by
  obtain ⟨checked, h, program, htree, hfair⟩ : ∃ checked, analyze false sample = .ok checked ∧
      ∃ program, checked.program.tree? = some program ∧
        Fair checked.table program (after (main .ints program 10 (.start []))).notes := by
    decide +kernel
  obtain ⟨program', htree', hsound⟩ := settled_types_sound h
  cases htree.symm.trans htree'
  exact ⟨checked, program, h, htree, hfair, hsound _ Model.ints_typed 10 hfair⟩

end Ifj22
