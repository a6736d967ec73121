import Ifj22.Proofs.Code.Tree
import Ifj22.Proofs.Machine.Basic
import Ifj22.Proofs.Meaning.Interpreter
import Ifj22.Proofs.Outcome
set_option autoImplicit false

/-!
# Meaning: integer programs

The trees of integer programs are run on ints.  Arithmetic is exact, and where a result does not fit
into 64 bits it is what the machine makes of it.  Comparisons and logical operators yield 1 or 0.
`write` is the only built-in function, and it yields nothing.  A run stops with a fault where a
function ends without a value.
-/

namespace Ifj22

variable {op : BinOp} {e left right : Expr} {name : String}

/-- The int that stands for a truth value. -/
def bit (b : Bool) : Int := if b then 1 else 0

/-- The truth that an operator finds in two ints. -/
def BinOp.holds : BinOp → Int → Int → Bool
  | .less, a, b => a < b
  | .lessEqual, a, b => a ≤ b
  | .greater, a, b => a > b
  | .greaterEqual, a, b => a ≥ b
  | .equal, a, b | .identical, a, b => a == b
  | .notEqual, a, b | .notIdentical, a, b => a != b
  | .and, a, b => a != 0 && b != 0
  | .or, a, b => a != 0 || b != 0
  | _, _, _ => false

/-- The expression yields a truth value: a comparison or a logical operation. -/
def Expr.isTruth : Expr → Bool
  | .binary op _ _ => !op.isValue
  | .unary .not _ => true
  | _ => false

namespace Meaning

/-- The int for an exact result. -/
def rounded (m : Machine) (n : Int) : Except Unit Int :=
  match m.round n with
  | some k => .ok k
  | none => .error ()

/-- What integer programs mean. -/
def Model.integer (m : Machine) : Model Int Unit Unit where
  constant
    | .int n => n.toInt
    | _ => 0
  binary
    | .add, a, b => rounded m (a + b)
    | .sub, a, b => rounded m (a - b)
    | .mul, a, b => rounded m (a * b)
    | .div, _, _ | .concat, _, _ => .error ()
    | op, a, b => .ok (bit (op.holds a b))
  unary
    | .negate, a => rounded m (-a)
    | .not, a => .ok (bit (a == 0))
  truth a := .ok (a != 0)
  builtin _ c := if c.name = "write" then .ok none else .error ()
  bare _ := .error ()
  fallOff _ := .error ()
  absent := .error ()
  note _ w := w

/-- What the built-in calls of an integer program have written. -/
def written (calls : List (BuiltinCall Int)) : String :=
  String.join (calls.flatMap fun c => c.args.map toString)

variable {m : Machine} {call : String → List Int → Run Int Unit Unit (Option Int)}
  {s s' : State Int Unit} {v : Int} {b : Bool}

theorem rounded_eq_ok {n k : Int} : rounded m n = .ok k ↔ m.round n = some k := by
  unfold rounded
  cases m.round n <;> simp

theorem raise_eq_ok {α : Type} {x : Except Unit α} {a : α} :
    (raise x : Run Int Unit Unit α) s = .ok a s' ↔ x = .ok a ∧ s' = s := by
  cases x with
  | error e => exact ⟨fun h => (nomatch h), fun h => (nomatch h.1)⟩
  | ok x =>
    show EStateM.Result.ok x s = .ok a s' ↔ _
    simp [eq_comm]

@[simp] theorem evaluated_integer (e : Expr) (v : Int) :
    evaluated (.integer m) e v = pure v := rfl

/-! ## Expressions -/

theorem readVar_eq_ok {x : String} : (readVar x : Run Int Unit Unit Int) s = .ok v s' ↔
    s.frame.vars x = some v ∧ s' = s := by
  unfold readVar
  rw [bind_eq_ok]
  constructor
  · rintro ⟨_, _, ⟨⟩, h⟩
    cases hx : s.frame.vars x with
    | none =>
      rw [hx] at h
      cases h
    | some w =>
      rw [hx] at h
      cases h
      exact ⟨rfl, rfl⟩
  · rintro ⟨hx, rfl⟩
    refine ⟨s', s', rfl, ?_⟩
    rw [hx]
    rfl

theorem eval_var_iff {x : String} : (Expr.var x).eval (.integer m) call s = .ok v s' ↔
    s.frame.vars x = some v ∧ s' = s := by
  rw [Expr.eval]
  simp only [evaluated_integer, bind_pure]
  exact readVar_eq_ok

/-- An operator that needs both operands. -/
theorem eval_binary (hop : op.shortcut? = none)
    (h : (Expr.binary op left right).eval (.integer m) call s = .ok v s') :
    ∃ a s1 b, left.eval (.integer m) call s = .ok a s1 ∧
      right.eval (.integer m) call s1 = .ok b s' ∧ (Model.integer m).binary op a b = .ok v := by
  rw [Expr.eval, bind_eq_ok] at h
  obtain ⟨a, s1, hleft, h⟩ := h
  unfold operate at h
  simp only [hop, evaluated_integer, bind_pure, bind_eq_ok, raise_eq_ok] at h
  obtain ⟨b, _, hright, hbinary, rfl⟩ := h
  exact ⟨a, s1, b, hleft, hright, hbinary⟩

theorem eval_negate (h : (Expr.unary .negate e).eval (.integer m) call s = .ok v s') :
    ∃ a, e.eval (.integer m) call s = .ok a s' ∧ m.round (-a) = some v := by
  rw [Expr.eval, bind_eq_ok] at h
  simp only [evaluated_integer, bind_pure, raise_eq_ok] at h
  obtain ⟨a, _, he, hround, rfl⟩ := h
  exact ⟨a, he, rounded_eq_ok.mp hround⟩

theorem eval_call {args : List Expr}
    (h : (Expr.call name args).eval (.integer m) call s = .ok v s') :
    ∃ values s1, Expr.evalAll (.integer m) call args s = .ok values s1 ∧
      call name values s1 = .ok (some v) s' := by
  rw [Expr.eval] at h
  simp only [bind_eq_ok] at h
  obtain ⟨values, s1, hargs, r, s2, hcall, h⟩ := h
  cases r with
  | none => exact absurd h (fun h => nomatch h)
  | some w =>
    rw [answered, evaluated_integer] at h
    cases h
    exact ⟨values, s1, hargs, hcall⟩

theorem evalAll_cons {rest : List Expr} {values : List Int}
    (h : Expr.evalAll (.integer m) call (e :: rest) s = .ok values s') :
    ∃ v s1 values', e.eval (.integer m) call s = .ok v s1 ∧
      Expr.evalAll (.integer m) call rest s1 = .ok values' s' ∧ values = v :: values' := by
  rw [Expr.evalAll] at h
  simp only [bind_eq_ok] at h
  obtain ⟨v, s1, he, values', s2, hrest, h⟩ := h
  cases h
  exact ⟨v, s1, values', he, hrest, rfl⟩

theorem length_evalAll {args : List Expr} : ∀ {s : State Int Unit} {values : List Int},
    Expr.evalAll (.integer m) call args s = .ok values s' → values.length = args.length := by
  induction args with
  | nil =>
    intro s values h
    rw [Expr.evalAll] at h
    cases h
    rfl
  | cons e rest ih =>
    intro s values h
    obtain ⟨v, s1, values', _, hrest, rfl⟩ := evalAll_cons h
    rw [List.length_cons, List.length_cons, ih hrest]

/-! ## Truth -/

theorem test_eq_ok : e.test (.integer m) call s = .ok b s' ↔
    ∃ v, e.eval (.integer m) call s = .ok v s' ∧ b = (v != 0) := by
  unfold Expr.test
  rw [bind_eq_ok]
  simp only [raise_eq_ok, Model.integer, Except.ok.injEq]
  constructor
  · rintro ⟨v, _, he, rfl, rfl⟩
    exact ⟨v, he, rfl⟩
  · rintro ⟨v, he, rfl⟩
    exact ⟨v, s', he, rfl, rfl⟩

@[simp] theorem bit_ne_zero (b : Bool) : (bit b != 0) = b := by cases b <;> rfl

theorem binary_of_not_isValue (hop : op.isValue = false) (a b : Int) :
    (Model.integer m).binary op a b = .ok (bit (op.holds a b)) := by
  cases op <;> first | rfl | cases hop

/-- An operator without a shortcut that yields a truth value. -/
theorem test_binary (hop : op.isValue = false) (hshort : op.shortcut? = none)
    (h : (Expr.binary op left right).test (.integer m) call s = .ok b s') :
    ∃ x s1 y, left.eval (.integer m) call s = .ok x s1 ∧
      right.eval (.integer m) call s1 = .ok y s' ∧ b = op.holds x y := by
  obtain ⟨v, he, rfl⟩ := test_eq_ok.mp h
  obtain ⟨x, s1, y, hleft, hright, hbinary⟩ := eval_binary hshort he
  rw [binary_of_not_isValue hop] at hbinary
  cases hbinary
  exact ⟨x, s1, y, hleft, hright, bit_ne_zero _⟩

/-- The right operand of a logical operator is left out if the left one decides. -/
theorem test_logical {decided : Bool} (hop : op.shortcut? = some decided)
    (h : (Expr.binary op left right).test (.integer m) call s = .ok b s') :
    ∃ x s1, left.test (.integer m) call s = .ok x s1 ∧
      if x = decided then b = decided ∧ s' = s1
      else right.test (.integer m) call s1 = .ok b s' := by
  obtain ⟨v, he, rfl⟩ := test_eq_ok.mp h
  rw [Expr.eval, bind_eq_ok] at he
  obtain ⟨a, s1, hleft, he⟩ := he
  refine ⟨a != 0, s1, test_eq_ok.mpr ⟨a, hleft, rfl⟩, ?_⟩
  unfold operate at he
  simp only [hop, evaluated_integer, bind_pure] at he
  rw [bind_eq_ok] at he
  obtain ⟨x, _, htruth, he⟩ := he
  obtain ⟨hx, rfl⟩ := raise_eq_ok.mp htruth
  obtain rfl : (a != 0) = x := Except.ok.inj hx
  split
  · rename_i hdecided
    rw [if_pos hdecided] at he
    cases he
    cases decided <;> exact ⟨rfl, rfl⟩
  · rename_i hdecided
    rw [if_neg hdecided, bind_eq_ok] at he
    obtain ⟨c, _, hright, he⟩ := he
    obtain ⟨hbinary, rfl⟩ := raise_eq_ok.mp he
    refine test_eq_ok.mpr ⟨c, hright, ?_⟩
    cases op with
    | and =>
      cases hop
      cases hbinary
      rw [bit_ne_zero, BinOp.holds, (Bool.not_eq_false _).mp hdecided, Bool.true_and]
    | or =>
      cases hop
      cases hbinary
      rw [bit_ne_zero, BinOp.holds, (Bool.not_eq_true _).mp hdecided, Bool.false_or]
    | _ => cases hop

theorem test_not (h : (Expr.unary .not e).test (.integer m) call s = .ok b s') :
    e.test (.integer m) call s = .ok (!b) s' := by
  obtain ⟨v, he, rfl⟩ := test_eq_ok.mp h
  rw [Expr.eval, bind_eq_ok] at he
  simp only [evaluated_integer, bind_pure, raise_eq_ok] at he
  obtain ⟨a, _, he, hv, rfl⟩ := he
  obtain rfl : bit (a == 0) = v := Except.ok.inj hv
  refine test_eq_ok.mpr ⟨a, he, ?_⟩
  rw [bit_ne_zero]
  rfl

/-- An expression that yields a truth value yields 1 or 0. -/
theorem eval_of_isTruth (htruth : e.isTruth = true) (h : e.eval (.integer m) call s = .ok v s') :
    v = bit (v != 0) := by
  have hbit : ∀ b : Bool, bit b = bit (bit b != 0) := fun b => by rw [bit_ne_zero]
  cases e with
  | binary op left right =>
    have hop : op.isValue = false := by simpa [Expr.isTruth] using htruth
    rw [Expr.eval, bind_eq_ok] at h
    obtain ⟨a, s1, _, h⟩ := h
    unfold operate at h
    cases hshort : op.shortcut? with
    | none =>
      simp only [hshort, evaluated_integer, bind_pure, bind_eq_ok, raise_eq_ok] at h
      obtain ⟨c, _, _, hbinary, _⟩ := h
      rw [binary_of_not_isValue hop] at hbinary
      cases hbinary
      exact hbit _
    | some decided =>
      simp only [hshort, evaluated_integer, bind_pure] at h
      rw [bind_eq_ok] at h
      obtain ⟨x, _, _, h⟩ := h
      split at h
      · cases h
        cases decided <;> rfl
      · simp only [bind_eq_ok, raise_eq_ok, binary_of_not_isValue hop] at h
        obtain ⟨c, _, _, hbinary, _⟩ := h
        cases hbinary
        exact hbit _
  | unary op operand =>
    cases op with
    | negate => cases htruth
    | not =>
      rw [Expr.eval, bind_eq_ok] at h
      simp only [evaluated_integer, bind_pure, raise_eq_ok] at h
      obtain ⟨a, _, _, hv, _⟩ := h
      obtain rfl : bit (a == 0) = v := Except.ok.inj hv
      exact hbit _
  | _ => cases htruth

/-! ## Calls -/

/-- A call of a built-in function is one of `write`. -/
theorem consult_eq_ok {args : List Int} {r : Option Int}
    (h : consult (.integer m) name args s = .ok r s') :
    name = "write" ∧ r = none ∧ s' = { s with calls := s.calls ++ [⟨name, args⟩] } := by
  unfold consult at h
  obtain ⟨_, _, ⟨⟩, h⟩ := bind_eq_ok.mp h
  obtain ⟨_, _, ⟨⟩, h⟩ := bind_eq_ok.mp h
  obtain ⟨hanswer, rfl⟩ := raise_eq_ok.mp h
  have hanswer : (if name = "write" then .ok none else .error ()) = Except.ok r := hanswer
  split at hanswer
  · cases hanswer
    exact ⟨‹_›, rfl, rfl⟩
  · cases hanswer

/-- A call of a function ends with a return of a value. -/
theorem within_eq_ok {f : Function} {args : List Int} {r : Option Int}
    {inside : Run Int Unit Unit (Flow Int)}
    (h : within (.integer m) name f args inside s = .ok r s') :
    f.params.length = args.length ∧ ∃ v s1, r = some v ∧
      inside { s with frame := .start name f args, callers := s.frames } =
        .ok (.returned (some v)) s1 ∧
      s' = { s1 with frame := s.frame, callers := s.callers } := by
  unfold within at h
  by_cases hlength : f.params.length = args.length
  · rw [if_pos hlength] at h
    obtain ⟨_, _, ⟨⟩, h⟩ := bind_eq_ok.mp h
    obtain ⟨_, _, ⟨⟩, h⟩ := bind_eq_ok.mp h
    obtain ⟨_, _, ⟨⟩, h⟩ := bind_eq_ok.mp h
    obtain ⟨flow, s1, hinside, h⟩ := bind_eq_ok.mp h
    obtain ⟨_, _, ⟨⟩, h⟩ := bind_eq_ok.mp h
    obtain ⟨w, _, hresult, h⟩ := bind_eq_ok.mp h
    rcases flow with _ | _ | v
    · cases hresult
    · cases hresult
    · cases hresult
      cases h
      exact ⟨hlength, v, s1, rfl, hinside, rfl⟩
  · rw [if_neg hlength] at h
    cases h

theorem written_append (calls : List (BuiltinCall Int)) (c : BuiltinCall Int) :
    written (calls ++ [c]) = written calls ++ String.join (c.args.map toString) := by
  unfold written
  rw [List.flatMap_append, List.flatMap_singleton, String.join_append]

end Meaning

end Ifj22
