import Ifj22.Arena.Basic
import Ifj22.Number.Fixed
import Ifj22.Symbol
set_option autoImplicit false

/-!
# Typing: the types of expressions

`infer` gives the type of an expression when the types of the names in it are known.  `coerce?`
gives the constant that a constant becomes when it is converted to another type.
-/

namespace Ifj22

/-- The type of a binary operation on operands of the given types. -/
def BinOp.resultTy (op : BinOp) (left right : Ty) : Ty :=
  match op with
  | .div => .float
  | .concat => .string
  | .add | .sub | .mul => left.arithmetic right
  | _ => .int

/-- The type of a unary operation on an operand of the given type. -/
def UnaryOp.resultTy (op : UnaryOp) (operand : Ty) : Ty :=
  match op with
  | .negate => Ty.int.arithmetic operand
  | .not => .int

/-- What is known of the names in an expression. -/
structure TypeEnv where
  /-- The type of a variable. -/
  varTy : String → Ty
  /-- The type of a call. -/
  callTy : String → Ty

namespace TypeEnv

/-- The environment of the top level. -/
def toplevel (t : SymbolTable) : TypeEnv := ⟨t.tyOf, t.callTy⟩

/-- The environment inside a function; one without a local table sees the top level. -/
def inside (t : SymbolTable) (function : String) : TypeEnv :=
  match t.locals? function with
  | some locals => ⟨locals.tyOf, t.callTy⟩
  | none => toplevel t

/-- The environment of the given scope. -/
def ofScope (t : SymbolTable) : Option String → TypeEnv
  | some function => inside t function
  | none => toplevel t

end TypeEnv

namespace Arena

/-- The type of the expression at a place, followed `fuel` levels down. -/
def inferAt (a : Arena) (env : TypeEnv) : Nat → NodeId → Ty
  | 0, _ => .never
  | fuel + 1, id =>
    match a.node id with
    | .int _ => .int
    | .float _ => .float
    | .str _ => .string
    | .null => .null
    | .var name => env.varTy name
    | .binary op left right => op.resultTy (a.inferAt env fuel left) (a.inferAt env fuel right)
    | .unary op operand => op.resultTy (a.inferAt env fuel operand)
    | .call name _ => env.callTy name
    | .assign _ value => a.inferAt env fuel value
    | _ => .never

/-- The type of the expression at a place; a statement has none. -/
def infer (a : Arena) (env : TypeEnv) (id : NodeId) : Ty := a.inferAt env a.size id

end Arena

/-- The constant converted to the target type, if there is a conversion that changes it: ints become
floats, and numbers and null become strings. -/
def Node.coerce? (node : Node) (target : Ty) : Option Node :=
  match node with
  | .int value =>
    if target = .float then some (.float (Number.ofWord value))
    else if target = .string then some (.str (Number.decimal value))
    else none
  | .float value => if target = .string then some (.str (Number.fixedText value)) else none
  | .null => if target = .string then some (.str "") else none
  | _ => none

end Ifj22
