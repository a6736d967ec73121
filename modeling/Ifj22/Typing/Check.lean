import Ifj22.Error
import Ifj22.Typing.Infer
set_option autoImplicit false

/-!
# Typing: checking a program

The checker walks over a program in source order.  It refuses reads of names that have no value yet,
calls that do not fit their callee, operands of the wrong type, and returns that do not fit their
function.  On the way it declares what is assigned, and converts constant operands where the
operation asks for it.

A checker that failed keeps what it had found up to there, its function included.
-/

namespace Ifj22

/-- The function that is being checked. -/
structure Enclosing where
  name : String
  /-- Its declared return type. -/
  declared : Option Ty
  /-- A return has been seen. -/
  returned : Bool
  deriving DecidableEq, Repr, Inhabited

/-- The state of checking a program. -/
structure Checker where
  arena : Arena
  table : SymbolTable
  /-- The function that the walk is in; at the top level there is none. -/
  enclosing : Option Enclosing
  deriving DecidableEq, Repr, Inhabited

/-- A step of a checker: it yields a value or an error, and the checker behind it either way. -/
abbrev Check := EStateM CompileError Checker

namespace Checker

/-- The checker before the first program. -/
def start (table : SymbolTable) : Checker := ⟨.empty, table, none⟩

/-- Changes the symbol table. -/
def modifyTable (f : SymbolTable → SymbolTable) : Check Unit :=
  modify fun c => { c with table := f c.table }

/-! ## Functions are known before the walk -/

/-- Declares a parameter of a function. -/
def declareParam (function : String) (param : Param) : Check Unit := do
  let t := (← get).table
  if ((t.locals? function).bind (·.find? param.name)).isSome then
    throw (.undefined (.paramTaken param.name function))
  match t.declareLocal? function param.name param.ty with
  | some t => modifyTable fun _ => t
  | none => throw (.internal (.noLocalScope function))

/-- Declares a function and its parameters. -/
def declareFunction (name : String) (params : List Param) (declared : Option Ty) : Check Unit := do
  let tys := params.map (·.ty)
  match (← get).table.declareFunction? name (declared.getD .never) tys.length tys with
  | none => throw (.undefined (.functionTaken name))
  | some t =>
    modifyTable fun _ => t.modify name fun s => { s with defined := true }
    params.forM (declareParam name)

/-- Declares the functions among the statements of a list. -/
def hoist (root : NodeId) : Check Unit := do
  let a := (← get).arena
  (a.statements root).forM fun stmt =>
    match a.node stmt with
    | .function name params declared _ => declareFunction name params declared
    | _ => pure ()

/-! ## Expressions -/

/-- The variable of the given name in the scope of the walk. -/
def varTy? (c : Checker) (name : String) : Option Ty :=
  match c.enclosing with
  | some f => ((c.table.locals? f.name).bind (·.find? name)).map (·.ty)
  | none => (c.table.find? name).map (·.ty)

/-- The type of an expression whose value is used. -/
def used (expr : Check Ty) : Check Ty := do
  let ty ← expr
  if ty.isVoid then throw (.semantic .voidValue) else pure ty

/-- Converts the constant at a place, if there is a conversion. -/
def coerceAt (target : Ty) (id : NodeId) : Check Unit :=
  modify fun c =>
    match (c.arena.node id).coerce? target with
    | some node => { c with arena := c.arena.set id node }
    | none => c

/-- The type that constant operands of an operation with the given result are converted to. -/
def operandTarget? (op : BinOp) (result : Ty) : Option Ty :=
  if op = .concat then some .string
  else if op.isArithmetic ∧ result = .float then some .float
  else none

/-- The type of a binary operation whose operands have been checked. -/
def binary (op : BinOp) (left right : NodeId) (leftTy rightTy : Ty) : Check Ty := do
  if (op.isArithmetic || op.isOrdering) && (leftTy.isStringOnly || rightTy.isStringOnly) then
    throw (.mistyped (.operands op leftTy rightTy))
  let result := op.resultTy leftTy rightTy
  match operandTarget? op result with
  | some target =>
    coerceAt target left
    coerceAt target right
  | none => pure ()
  pure result

/-- The first argument that does not fit its parameter: its position, its type and the type
expected. -/
def badArgument? : Nat → List Ty → List Ty → Option (Nat × Ty × Ty)
  | position, got :: gots, expected :: rest =>
    if got.compatible expected then badArgument? (position + 1) gots rest
    else some (position, got, expected)
  | _, _, _ => none

/-- The type of a call whose arguments have been checked. -/
def call (name : String) (args : List Ty) : Check Ty := do
  match (← get).table.find? name with
  | none => throw (.undefined (.unknownFunction name))
  | some callee =>
    if !callee.isFunction then
      throw (.undefined (.unknownFunction name))
    if !callee.isVariadic then
      if callee.arity ≠ args.length then
        throw (.argument (.count name callee.arity args.length))
      match badArgument? 1 args callee.params with
      | some (position, got, expected) => throw (.argument (.kind position name got expected))
      | none => pure ()
    modifyTable (·.markCalled name)
    pure callee.callType

/-- Checks the expression at a place, followed `fuel` levels down, and yields its type. -/
def expr : Nat → NodeId → Check Ty
  | 0, _ => pure .never
  | fuel + 1, id => do
    match (← get).arena.node id with
    | .int _ => pure .int
    | .float _ => pure .float
    | .str _ => pure .string
    | .null => pure .null
    | .var name =>
      match (← get).varTy? name with
      | some ty => pure ty
      | none => throw (.undefined (.unassigned name))
    | .binary op left right =>
      let leftTy ← used (expr fuel left)
      let rightTy ← used (expr fuel right)
      binary op left right leftTy rightTy
    | .unary op operand =>
      let ty ← used (expr fuel operand)
      if op = .negate ∧ ty.isStringOnly then throw (.mistyped .negatedString)
      pure (op.resultTy ty)
    | .call name args =>
      let values := (← get).arena.arguments args
      let tys ← values.mapM fun value => used (expr fuel value)
      call name tys
    | node => throw (.internal (.misplaced node))

/-! ## Statements -/

/-- Declares an assigned variable in the scope of the walk. -/
def assigned (name : String) (ty : Ty) : Check Unit := do
  let c ← get
  match c.enclosing with
  | none => modifyTable (·.declare name ty)
  | some f =>
    match c.table.declareLocal? f.name name ty with
    | some t => modifyTable fun _ => t
    | none => throw (.internal (.noLocalScope f.name))

/-- Checks a return with a value of the given type against the function it stands in.  At the top
level every return is fine. -/
def returned (ty : Option Ty) : Check Unit := do
  match (← get).enclosing with
  | none => pure ()
  | some f =>
    modify fun c => { c with enclosing := some { f with returned := true } }
    match f.declared, ty with
    | some declared, some got =>
      if declared.isVoid then throw (.returned (.unwanted f.name))
      else if got.compatible declared then pure ()
      else throw (.returned (.mismatch f.name got declared))
    | some declared, none =>
      if declared.isVoid then pure () else throw (.returned (.missing f.name declared))
    | none, _ => modifyTable (·.includeTy f.name (ty.getD .null))

/-- Enters a function. -/
def enter (name : String) (declared : Option Ty) : Check Unit :=
  modify fun c => { c with enclosing := some ⟨name, declared, false⟩ }

/-- Leaves a function.  One with a declared type other than void must have a return; one without a
declared type that returned nothing yields null. -/
def leave (name : String) (declared : Option Ty) : Check Unit := do
  let hasReturned := (((← get).enclosing).map (·.returned)).getD false
  modify fun c => { c with enclosing := none }
  match declared with
  | some ty =>
    if !ty.isVoid && !hasReturned then throw (.returned (.missing name ty))
  | none =>
    modifyTable fun t => t.modify name fun s => if s.ty.isEmpty then { s with ty := .null } else s

/-- Checks the statement at a place, followed `fuel` levels down. -/
def stmt : Nat → NodeId → Check Unit
  | 0, _ => pure ()
  | fuel + 1, id => do
    let a := (← get).arena
    match a.node id with
    | .sequence _ _ => (a.statements id).forM (stmt fuel)
    | .assign target value =>
      let ty ← used (expr fuel value)
      assigned target ty
    | .ifElse cond thenBody elseBody =>
      let _ ← used (expr fuel cond)
      stmt fuel thenBody
      elseBody.forM (stmt fuel)
    | .whileLoop cond body =>
      let _ ← used (expr fuel cond)
      stmt fuel body
    | .function name _ declared body =>
      enter name declared
      stmt fuel body
      leave name declared
    | .ret value =>
      let ty ← value.mapM fun value => used (expr fuel value)
      returned ty
    | _ =>
      let _ ← expr (fuel + 1) id

end Checker

end Ifj22
