import Ifj22.Code.Generator
set_option autoImplicit false

/-!
# Code: expressions

`expr` yields an operand that holds the value of an expression, `condition` one that holds its
truth.  Values of a known type are used as they are.  Constants are converted at compile time, and
values whose type is not known are converted by a support routine.

An expression and a condition at one place may call each other once, so a walk down an arena takes
at most two levels a node.
-/

namespace Ifj22.Code.Generator

/-! ## Conversions -/

/-- An operand that holds the value as a number of the target type, int or float. -/
def normalize (value : Operand) (ty target : Ty) : Generate Operand := do
  let toInt := target == .int
  match value with
  | .int i => pure (if toInt then value else .float (Number.ofWord i))
  | .float f => pure (if toInt then .int (Number.truncate f) else value)
  | .nil => pure (if toInt then .int 0 else .float 0.0)
  | .bool b =>
    pure (if toInt then .int (if b then 1 else 0) else .float (if b then 1.0 else 0.0))
  | .str _ => pure value
  | .var v =>
    if ty = target then pure value
    else
      let shadow ← newShadow
      if ty = .int ∧ !toInt then emit (.unary .int2float shadow v)
      else convert (if toInt then .toInt else .toFloat) v shadow
      pure shadow

/-- The numbers: int and float. -/
def numberTy : Ty := .int ∪ .float

/-- An operand that holds the value as an int or a float; null is zero. -/
def asNumber (value : Operand) (ty : Ty) : Generate Operand := do
  match value with
  | .nil => pure (.int 0)
  | .bool b => pure (.int (if b then 1 else 0))
  | .var v =>
    if ty.subset numberTy then pure value
    else
      let shadow ← newShadow
      convert .toNumber v shadow
      pure shadow
  | _ => pure value

/-- An operand that holds the text of the value. -/
def asText (value : Operand) (ty : Ty) : Generate Operand := do
  match value with
  | .int i => pure (.str (Number.decimal i))
  | .float f => pure (.str (Number.fixedText f))
  | .nil => pure (.str "")
  | .var v =>
    if ty = .string then pure value
    else
      let shadow ← newShadow
      convert .toText v shadow
      pure shadow
  | _ => pure value

/-- The truth of a constant. -/
def immediateTruth? : Operand → Option Bool
  | .int i => some (i != 0)
  | .float f => some (f != 0.0)
  | .str s => some (s != "" && s != "0")
  | .bool b => some b
  | .nil => some false
  | .var _ => none

/-- An operand that holds the truth of the value. -/
def asTruth (value : Operand) (ty : Ty) : Generate Operand := do
  match immediateTruth? value with
  | some b => pure (.bool b)
  | none =>
    let t ← newTemp
    if ty = .int then
      emit (.binary .eq t value (.int 0))
      emit (.unary .not t t)
    else convert .toBool value t
    pure t

/-- An operand that holds the int of a truth value. -/
def truthAsInt (cond : Operand) : Generate Operand := do
  match cond with
  | .bool b => pure (.int (if b then 1 else 0))
  | _ =>
    let n ← newLabel
    let t ← newTemp
    emit (.move t (.int 0))
    emit (.jumpIfEq (.branch .bool n) cond (.bool false))
    emit (.move t (.int 1))
    emit (.label (.branch .bool n))
    pure t

/-! ## Operations -/

/-- The instruction of an arithmetic operator. -/
def arithmeticOp : BinOp → Binary
  | .add => .add
  | .sub => .sub
  | .mul => .mul
  | _ => .div

/-- The type of a value that has been read as a number. -/
def numericTy (ty : Ty) : Ty := if ty.subset numberTy then ty else numberTy

/-- Jumps to the float part of an operation unless the operand is an int. -/
def testInt (n : Nat) (value : Operand) : Generate Unit := do
  match value with
  | .var v =>
    let ty ← newTemp
    emit (.unary .typeOf ty v)
    emit (.jumpIfNeq (.branch .arithFloat n) ty (.str "int"))
  | _ => pure ()

/-- An operation whose result may be an int or a float: at run time it is carried out on ints unless
an operand is a float. -/
def mixedArithmetic (op : Binary) (t : Var) (a : Operand) (leftTy : Ty) (b : Operand)
    (rightTy : Ty) : Generate Unit := do
  let a ← asNumber a leftTy
  let b ← asNumber b rightTy
  let n ← newLabel
  testInt n a
  testInt n b
  emit (.binary op t a b)
  emit (.jump (.branch .arithEnd n))
  emit (.label (.branch .arithFloat n))
  let a ← normalize a (numericTy leftTy) .float
  let b ← normalize b (numericTy rightTy) .float
  emit (.binary op t a b)
  emit (.label (.branch .arithEnd n))

/-- An arithmetic operation on operands of the given types, with a result of type `target`. -/
def arithmetic (op : BinOp) (a : Operand) (leftTy : Ty) (b : Operand) (rightTy target : Ty) :
    Generate Operand := do
  let t ← newTemp
  if target = .int ∨ target = .float then
    let a ← normalize a leftTy target
    let b ← normalize b rightTy target
    emit (.binary (arithmeticOp op) t a b)
  else mixedArithmetic (arithmeticOp op) t a leftTy b rightTy
  pure t

/-- The instruction of an ordering, and whether its result is negated. -/
def orderingOp : BinOp → Binary × Bool
  | .less => (.lt, false)
  | .greater => (.gt, false)
  | .lessEqual => (.gt, true)
  | .greaterEqual => (.lt, true)
  | .equal => (.eq, false)
  | _ => (.eq, true)

/-- A comparison of two numbers of one type. -/
def ordering (op : BinOp) (a b : Operand) : Generate Operand := do
  let t ← newTemp
  emit (.binary (orderingOp op).1 t a b)
  if (orderingOp op).2 then emit (.unary .not t t)
  pure t

/-- A comparison of kinds and values. -/
def identity (op : BinOp) (a b : Operand) : Generate Operand := do
  let n ← newLabel
  let leftTy ← newTemp
  let rightTy ← newTemp
  let t ← newTemp
  emit (.unary .typeOf leftTy a)
  emit (.unary .typeOf rightTy b)
  emit (.move t (.bool false))
  emit (.jumpIfNeq (.branch .compare n) leftTy rightTy)
  emit (.binary .eq t a b)
  emit (.label (.branch .compare n))
  if op = .notIdentical then emit (.unary .not t t)
  pure t

/-- The negation of a truth value. -/
def negation (value : Operand) : Generate Operand := do
  match value with
  | .bool b => pure (.bool !b)
  | _ =>
    let t ← newTemp
    emit (.unary .not t value)
    pure t

/-- A conjunction or disjunction, given how to find its operands; the right one is skipped if the
left one decides. -/
def logical (op : BinOp) (left right : Generate Operand) : Generate Operand := do
  let n ← newLabel
  let skip : Label := .branch (if op = .and then .and else .or) n
  let t ← newTemp
  let a ← left
  emit (.move t a)
  emit (.jumpIfEq skip t (.bool (op != .and)))
  let b ← right
  emit (.move t b)
  emit (.label skip)
  pure t

/-- A call, given how to push its arguments; `write` is also told their number. -/
def callWith (name : String) (pushArg : NodeId → Generate Unit) (args : List NodeId) :
    Generate Unit := do
  args.forM pushArg
  if name = "write" then emit (.push (.int (Int64.ofNat args.length)))
  emit .createFrame
  emit (.call (.entry name))

/-! ## Expressions -/

mutual

/-- An operand that holds the value of the expression at a place, followed `fuel` levels down. -/
def exprAt (arena : Arena) : Nat → NodeId → Generate Operand
  | 0, _ => pure .nil
  | fuel + 1, id => do
    let env := (← get).env
    match arena.node id with
    | .int value => pure (.int value)
    | .float value => pure (.float value)
    | .str value => pure (.str value)
    | .null => pure .nil
    | .var name =>
      let v ← variableOf name
      pure v
    | .call name args =>
      callWith name (pushAt arena fuel) (arena.arguments args)
      let t ← newTemp
      emit (.move t Var.returned)
      pure t
    | .binary op left right =>
      if op.isArithmetic then
        let a ← exprAt arena fuel left
        let b ← exprAt arena fuel right
        arithmetic op a (arena.infer env left) b (arena.infer env right) (arena.infer env id)
      else if op = .concat then
        let a ← exprAt arena fuel left
        let a ← asText a (arena.infer env left)
        let b ← exprAt arena fuel right
        let b ← asText b (arena.infer env right)
        let t ← newTemp
        emit (.binary .concat t a b)
        pure t
      else
        let cond ← conditionAt arena fuel id
        truthAsInt cond
    | .unary .negate operand =>
      let value ← exprAt arena fuel operand
      arithmetic .sub (.int 0) .int value (arena.infer env operand) (arena.infer env id)
    | .unary .not _ =>
      let cond ← conditionAt arena fuel id
      truthAsInt cond
    | node => throw (.internal (.ungenerable node))

/-- Pushes the value of the expression at a place. -/
def pushAt (arena : Arena) : Nat → NodeId → Generate Unit
  | 0, _ => pure ()
  | fuel + 1, id => do
    let value ← exprAt arena fuel id
    emit (.push value)

/-- An operand that holds the truth of the expression at a place, followed `fuel` levels down. -/
def conditionAt (arena : Arena) : Nat → NodeId → Generate Operand
  | 0, _ => pure .nil
  | fuel + 1, id => do
    let env := (← get).env
    match arena.node id with
    | .binary op left right =>
      if op.isIdentity then
        let a ← exprAt arena fuel left
        let b ← exprAt arena fuel right
        identity op a b
      else if op.isOrdering then
        let (leftTy, rightTy) := (arena.infer env left, arena.infer env right)
        let target := leftTy.widen rightTy
        let a ← exprAt arena fuel left
        let a ← normalize a leftTy target
        let b ← exprAt arena fuel right
        let b ← normalize b rightTy target
        ordering op a b
      else if op.isLogical then
        logical op (conditionAt arena fuel left) (conditionAt arena fuel right)
      else
        let value ← exprAt arena fuel id
        asTruth value (arena.infer env id)
    | .unary .not operand =>
      let value ← conditionAt arena fuel operand
      negation value
    | _ =>
      let value ← exprAt arena fuel id
      asTruth value (arena.infer env id)

end

/-- The levels that suffice for every walk down an arena. -/
def depth (arena : Arena) : Nat := 2 * arena.size + 2

/-- An operand that holds the value of the expression at a place. -/
def expr (arena : Arena) (id : NodeId) : Generate Operand := exprAt arena (depth arena) id

/-- An operand that holds the truth of the expression at a place. -/
def condition (arena : Arena) (id : NodeId) : Generate Operand := conditionAt arena (depth arena) id

/-- A call that stands as a statement. -/
def call (arena : Arena) (name : String) (args : Option NodeId) : Generate Unit :=
  callWith name (pushAt arena (depth arena)) (arena.arguments args)

end Ifj22.Code.Generator
