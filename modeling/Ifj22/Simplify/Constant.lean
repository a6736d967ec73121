import Ifj22.Arena.Basic
set_option autoImplicit false

/-!
# Simplify: operations on constants

An operation whose operands are constant numbers is replaced by its result, from the leaves up.
Sums, differences and products of ints are exact or not folded at all.  Division always yields a
float, and division by zero is left alone, as is every result that is not finite.
-/

namespace Ifj22

namespace Node

/-- The int that stands for a truth value. -/
def ofBool (b : Bool) : Node := .int (if b then 1 else 0)

/-- The truth value of a constant number: zero is false. -/
def truth? : Node → Option Bool
  | .int value => some (value != 0)
  | .float value => some (value != 0.0)
  | _ => none

/-- The result of an operation on two ints, division apart. -/
def foldInts? (op : BinOp) (a b : Int64) : Option Node :=
  match op with
  | .add => (Number.word? (a.toInt + b.toInt)).map .int
  | .sub => (Number.word? (a.toInt - b.toInt)).map .int
  | .mul => (Number.word? (a.toInt * b.toInt)).map .int
  | .less => some (ofBool (a < b))
  | .lessEqual => some (ofBool (a ≤ b))
  | .greater => some (ofBool (b < a))
  | .greaterEqual => some (ofBool (b ≤ a))
  | .equal | .identical => some (ofBool (a == b))
  | .notEqual | .notIdentical => some (ofBool (a != b))
  | _ => none

/-- A float constant, if the value is finite. -/
def finite? (value : Float) : Option Node := if value.isFinite then some (.float value) else none

/-- The result of an operation on two numbers read as floats; `sameKind` tells whether they are both
ints or both floats. -/
def foldFloats? (op : BinOp) (sameKind : Bool) (a b : Float) : Option Node :=
  match op with
  | .add => finite? (a + b)
  | .sub => finite? (a - b)
  | .mul => finite? (a * b)
  | .div => if b == 0.0 then none else finite? (a / b)
  | .less => some (ofBool (a < b))
  | .lessEqual => some (ofBool (a ≤ b))
  | .greater => some (ofBool (a > b))
  | .greaterEqual => some (ofBool (a ≥ b))
  | .equal => some (ofBool (a == b))
  | .notEqual => some (ofBool (a != b))
  | .identical => some (ofBool (sameKind && a == b))
  | .notIdentical => some (ofBool (!sameKind || a != b))
  | _ => none

/-- The result of a binary operation on constant numbers. -/
def foldBinary? (op : BinOp) (left right : Node) : Option Node :=
  match left, right with
  | .int a, .int b =>
    if op = .div then foldFloats? op true (Number.ofWord a) (Number.ofWord b) else foldInts? op a b
  | .int a, .float b => foldFloats? op false (Number.ofWord a) b
  | .float a, .int b => foldFloats? op false a (Number.ofWord b)
  | .float a, .float b => foldFloats? op true a b
  | _, _ => none

/-- The result of a unary operation on a constant number. -/
def foldUnary? (op : UnaryOp) (operand : Node) : Option Node :=
  match op, operand with
  | .negate, .int value => (Number.word? (-value.toInt)).map .int
  | .negate, .float value => some (.float (-value))
  | .negate, _ => none
  | .not, _ => operand.truth?.map fun b => ofBool !b

end Node

/-! ## Folding in an arena -/

/-- A step that overwrites nodes of an arena in place. -/
abbrev Edit := StateM Arena

namespace Edit

/-- Runs a step on every item and adds up what they count. -/
def total {α : Type} (step : α → Edit Nat) : List α → Edit Nat
  | [] => pure 0
  | item :: rest => do
    let first ← step item
    let others ← total step rest
    pure (first + others)

/-- Overwrites the node at a place, if there is another for it, and counts that. -/
def replace? (id : NodeId) : Option Node → Edit Nat
  | some node => do
    modify (·.set id node)
    pure 1
  | none => pure 0

/-- Folds the expression at a place, followed `fuel` levels down, and counts the nodes replaced. -/
def foldAt : Nat → NodeId → Edit Nat
  | 0, _ => pure 0
  | fuel + 1, id => do
    match (← get).node id with
    | .binary op left right =>
      let inLeft ← foldAt fuel left
      let inRight ← foldAt fuel right
      let a ← get
      let here ← replace? id (Node.foldBinary? op (a.node left) (a.node right))
      pure (inLeft + inRight + here)
    | .unary op operand =>
      let inner ← foldAt fuel operand
      let a ← get
      let here ← replace? id (Node.foldUnary? op (a.node operand))
      pure (inner + here)
    | .call _ args => total (foldAt fuel) ((← get).arguments args)
    | _ => pure 0

/-- Folds the expression at a place and counts the nodes replaced. -/
def fold (id : NodeId) : Edit Nat := do
  foldAt (← get).size id

end Edit

end Ifj22
