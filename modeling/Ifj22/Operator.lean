set_option autoImplicit false

/-!
# Operator: the operators of expressions
-/

namespace Ifj22

/-- The binary operators. -/
inductive BinOp
  | add | sub | mul | div | concat
  | less | lessEqual | greater | greaterEqual | equal | notEqual | identical | notIdentical
  | and | or
  deriving DecidableEq, Repr, Inhabited

namespace BinOp

/-- The four operators of arithmetic. -/
def isArithmetic : BinOp → Bool
  | .add | .sub | .mul | .div => true
  | _ => false

/-- The six comparisons of numbers. -/
def isOrdering : BinOp → Bool
  | .less | .lessEqual | .greater | .greaterEqual | .equal | .notEqual => true
  | _ => false

/-- The two comparisons that also compare kinds. -/
def isIdentity : BinOp → Bool
  | .identical | .notIdentical => true
  | _ => false

/-- The eight comparisons. -/
def isComparison (op : BinOp) : Bool := op.isOrdering || op.isIdentity

/-- The two operators that may skip their right operand. -/
def isLogical : BinOp → Bool
  | .and | .or => true
  | _ => false

/-- How tightly an operator binds its operands; all operators are left associative. -/
def precedence : BinOp → Nat
  | .or => 1
  | .and => 2
  | .equal | .notEqual | .identical | .notIdentical => 3
  | .less | .lessEqual | .greater | .greaterEqual => 4
  | .add | .sub | .concat => 5
  | .mul | .div => 6

/-- The spelling of an operator. -/
def symbol : BinOp → String
  | .add => "+" | .sub => "-" | .mul => "*" | .div => "/" | .concat => "."
  | .less => "<" | .lessEqual => "<=" | .greater => ">" | .greaterEqual => ">="
  | .equal => "==" | .notEqual => "!=" | .identical => "===" | .notIdentical => "!=="
  | .and => "&&" | .or => "||"

/-- The name of an operator in tree dumps. -/
def name : BinOp → String
  | .add => "Add" | .sub => "Sub" | .mul => "Mul" | .div => "Div" | .concat => "Concat"
  | .less => "Less" | .lessEqual => "LessEqual" | .greater => "Greater"
  | .greaterEqual => "GreaterEqual" | .equal => "Equal" | .notEqual => "NotEqual"
  | .identical => "Identical" | .notIdentical => "NotIdentical"
  | .and => "And" | .or => "Or"

/-- Every operator once. -/
def all : List BinOp :=
  [.add, .sub, .mul, .div, .concat, .less, .lessEqual, .greater, .greaterEqual, .equal, .notEqual,
   .identical, .notIdentical, .and, .or]

theorem mem_all (op : BinOp) : op ∈ all := by cases op <;> decide

/-- The operator with the given name. -/
def ofName? (s : String) : Option BinOp := all.find? (·.name == s)

end BinOp

/-- The unary operators. -/
inductive UnaryOp
  | negate | not
  deriving DecidableEq, Repr, Inhabited

namespace UnaryOp

/-- The name of an operator in tree dumps. -/
def name : UnaryOp → String
  | .negate => "Negate"
  | .not => "Not"

/-- The operator with the given name. -/
def ofName? (s : String) : Option UnaryOp := [negate, not].find? (·.name == s)

end UnaryOp

end Ifj22
