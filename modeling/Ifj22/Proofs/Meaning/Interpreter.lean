import Ifj22.Proofs.Tree.Syntax
set_option autoImplicit false

/-!
# Meaning: an interpreter of trees

Trees are run from left to right; `&&` and `||` leave out their right side when the left one
decides; a call has variables of its own.  What values are, what the operators do to them and what
the built-in functions answer is left to a `Model`: a built-in function may answer by everything
that was called before.

A run is bounded in the rounds of a loop and in the depth of calls, and ends in `Fault.timeout` where
a bound is used up.  `Computation.Ends` and `Computation.Diverges` say what a run does without
bounds.
-/

namespace Ifj22

/-- The operand value that decides a logical operator without the other operand. -/
def BinOp.shortcut? : BinOp → Option Bool
  | .and => some false
  | .or => some true
  | _ => none

/-- The head and the body of a function. -/
structure Function where
  params : List Param
  declared : Option Ty
  body : List Stmt

/-- The function that a statement declares under a name. -/
def Stmt.function? (name : String) : Stmt → Option Function
  | .function f params declared body => if f = name then some ⟨params, declared, body⟩ else none
  | _ => none

namespace Meaning

variable {V E W α : Type}

/-- The variables of the top level, or of a call in the scope of its function. -/
structure Frame (V : Type) where
  scope : Option String
  vars : String → Option V

/-- A frame with a variable set. -/
def Frame.set (f : Frame V) (target : String) (value : V) : Frame V :=
  { f with vars := fun x => if x = target then some value else f.vars x }

/-- The frame in which a function starts. -/
def Frame.start (name : String) (f : Function) (args : List V) : Frame V :=
  ⟨some name, fun x => ((f.params.map (·.name)).zip args).lookup x⟩

/-- What a run does that can be noted. -/
inductive Event (V : Type)
  | evaluated (e : Expr) (value : V)
  | assigned (target : String) (value : V)
  | entered (callee : String) (args : List V)
  | yielded (callee : String) (value : V)

/-- An event, and the frames right behind it, the innermost one first. -/
structure Moment (V : Type) where
  frames : List (Frame V)
  event : Event V

/-- A call of a built-in function. -/
structure BuiltinCall (V : Type) where
  name : String
  args : List V

/-- What the trees leave open.  The order of evaluation, the scopes of variables and the ways
through a statement are the interpreter's own; what values are, and what operators and built-in
functions make of them, is not. -/
structure Model (V E W : Type) where
  /-- The value of a constant. -/
  constant : Constant → V
  /-- The result of an operator on the values of both operands. -/
  binary : BinOp → V → V → Except E V
  unary : UnaryOp → V → Except E V
  /-- How a value decides a condition. -/
  truth : V → Except E Bool
  /-- The answer of a built-in function, after the built-in calls before. -/
  builtin : List (BuiltinCall V) → BuiltinCall V → Except E (Option V)
  /-- What a call yields whose body returns without a value. -/
  bare : Option Ty → Except E (Option V)
  /-- What a call yields whose body ends without a return. -/
  fallOff : Option Ty → Except E (Option V)
  /-- What stands for the value of a call that yields none. -/
  absent : Except E V
  /-- What is noted of a moment. -/
  note : Moment V → W → W

/-- Where a run is. -/
structure State (V W : Type) where
  frame : Frame V
  /-- The frames of the calls around this one, and of the top level. -/
  callers : List (Frame V)
  /-- The built-in calls so far, the first one first. -/
  calls : List (BuiltinCall V)
  notes : W

/-- Why a run stops. -/
inductive Fault (E : Type)
  | unset (name : String)
  | arity (name : String)
  | raised (e : E)
  /-- A bound of the run is used up. -/
  | timeout
  deriving DecidableEq

/-- A run that yields a value or stops. -/
abbrev Run (V E W : Type) := EStateM (Fault E) (State V W)

/-- How a statement ends: the next one follows, or the function returns. -/
inductive Flow (V : Type)
  | normal
  | returned (value : Option V)

/-! ## Steps -/

/-- The frames of a state, the innermost one first. -/
def State.frames (s : State V W) : List (Frame V) := s.frame :: s.callers

/-- A result of the model. -/
def raise : Except E α → Run V E W α
  | .ok a => pure a
  | .error e => throw (.raised e)

variable (M : Model V E W)

/-- The int that stands for a truth value. -/
def Model.ofBool (b : Bool) : V := M.constant (.int (if b then 1 else 0))

/-- Notes an event. -/
def noting (event : Event V) : Run V E W Unit :=
  modify fun s => { s with notes := M.note ⟨s.frames, event⟩ s.notes }

/-- The value of an expression, noted. -/
def evaluated (e : Expr) (value : V) : Run V E W V := do
  noting M (.evaluated e value)
  pure value

/-- The value of a call in an expression. -/
def answered (e : Expr) : Option V → Run V E W V
  | some value => evaluated M e value
  | none => raise M.absent

/-- What a call of a function yields, noted. -/
def yielded (name : String) : Option V → Run V E W (Option V)
  | some value => do
    noting M (.yielded name value)
    pure (some value)
  | none => pure none

/-- The value of a variable. -/
def readVar (name : String) : Run V E W V := do
  match (← get).frame.vars name with
  | some value => pure value
  | none => throw (.unset name)

/-- Sets a variable. -/
def writeVar (target : String) (value : V) : Run V E W Unit := do
  modify fun s => { s with frame := s.frame.set target value }
  noting M (.assigned target value)

/-- The result of a binary operator whose left operand is known. -/
def operate (op : BinOp) (left : V) (right : Run V E W V) : Run V E W V :=
  match op.shortcut? with
  | some decided => do
    if (← raise (M.truth left)) = decided then pure (M.ofBool decided)
    else raise (M.binary op left (← right))
  | none => do
    raise (M.binary op left (← right))

/-- Calls a built-in function. -/
def consult (name : String) (args : List V) : Run V E W (Option V) := do
  let s : State V W ← get
  set { s with calls := s.calls ++ [BuiltinCall.mk name args] }
  raise (M.builtin s.calls ⟨name, args⟩)

/-- What a function yields that ended so. -/
def Model.result (declared : Option Ty) : Flow V → Run V E W (Option V)
  | .returned (some value) => pure (some value)
  | .returned none => raise (M.bare declared)
  | .normal => raise (M.fallOff declared)

/-- Runs the body of a function in a frame of its own, and comes back. -/
def within (name : String) (f : Function) (args : List V) (inside : Run V E W (Flow V)) :
    Run V E W (Option V) :=
  if f.params.length = args.length then do
    let outer : State V W ← get
    set { outer with frame := .start name f args, callers := outer.frames }
    noting M (.entered name args)
    let flow ← inside
    modify fun s => { s with frame := outer.frame, callers := outer.callers }
    yielded M name (← M.result f.declared flow)
  else throw (.arity name)

/-- Rounds of a loop, until the condition fails or the body returns. -/
def rounds (cond : Run V E W Bool) (body : Run V E W (Flow V)) : Nat → Run V E W (Flow V)
  | 0 => do if ← cond then throw .timeout else pure .normal
  | n + 1 => do
    if ← cond then
      match ← body with
      | .normal => rounds cond body n
      | .returned value => pure (.returned value)
    else pure .normal

end Meaning

/-! ## Expressions and statements

`call` is what becomes of a call, and `loops` bounds the rounds of each loop. -/

open Meaning

variable {V E W : Type} (M : Model V E W) (call : String → List V → Run V E W (Option V))

namespace Expr

mutual

/-- The value of an expression. -/
def eval : Expr → Run V E W V
  | .constant c => evaluated M (.constant c) (M.constant c)
  | .var name => do evaluated M (.var name) (← readVar name)
  | .binary op left right => do
    let a ← left.eval
    evaluated M (.binary op left right) (← operate M op a right.eval)
  | .unary op operand => do
    let a ← operand.eval
    evaluated M (.unary op operand) (← raise (M.unary op a))
  | .call name args => do
    answered M (.call name args) (← call name (← evalAll args))

/-- The values of expressions, from left to right. -/
def evalAll : List Expr → Run V E W (List V)
  | [] => pure []
  | e :: rest => do
    let value ← e.eval
    let values ← evalAll rest
    pure (value :: values)

end

/-- The truth of an expression. -/
def test (e : Expr) : Run V E W Bool := do raise (M.truth (← e.eval M call))

/-- An expression as a statement: a call need not yield a value there. -/
def perform : Expr → Run V E W Unit
  | .call name args => do
    match ← call name (← evalAll M call args) with
    | some value => noting M (.evaluated (.call name args) value)
    | none => pure ()
  | e => do
    let _ ← e.eval M call
    pure ()

end Expr

namespace Stmt

variable (loops : Nat)

mutual

/-- Runs a statement. -/
def exec : Stmt → Run V E W (Flow V)
  | .assign target value => do
    writeVar M target (← value.eval M call)
    pure .normal
  | .expr value => do
    value.perform M call
    pure .normal
  | .ret none => pure (.returned none)
  | .ret (some value) => do pure (.returned (some (← value.eval M call)))
  | .block body => execAll body
  | .ifElse cond thenBody none => do
    if ← cond.test M call then execAll thenBody else pure .normal
  | .ifElse cond thenBody (some elseBody) => do
    if ← cond.test M call then execAll thenBody else execAll elseBody
  | .whileLoop cond body => rounds (cond.test M call) (execAll body) loops
  | .function _ _ _ _ => pure .normal

/-- Runs statements until one of them returns. -/
def execAll : List Stmt → Run V E W (Flow V)
  | [] => pure .normal
  | s :: rest => do
    match ← s.exec with
    | .normal => execAll rest
    | .returned value => pure (.returned value)

end

end Stmt

/-! ## Programs -/

namespace Meaning

/-- A call in a program: of its function of that name, run as given, or of a built-in one. -/
def dispatch (program : List Stmt) (inside : Function → Run V E W (Flow V)) (name : String)
    (args : List V) : Run V E W (Option V) :=
  match program.findSome? (Stmt.function? name) with
  | some f => within M name f args (inside f)
  | none => consult M name args

/-- A call in a program, with calls below it up to a depth. -/
def invoke (program : List Stmt) (loops : Nat) : Nat → String → List V → Run V E W (Option V)
  | 0 => dispatch M program fun _ => throw .timeout
  | depth + 1 =>
    dispatch M program fun f => Stmt.execAll M (invoke program loops depth) loops f.body

/-- The top level of a program. -/
def main (program : List Stmt) (fuel : Nat) : Run V E W (Flow V) :=
  Stmt.execAll M (invoke M program fuel fuel) fuel program

/-- The state before a program, with nothing set and nothing called. -/
def State.start (notes : W) : State V W := ⟨⟨none, fun _ => none⟩, [], [], notes⟩

end Meaning

end Ifj22
