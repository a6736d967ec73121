import Ifj22.Arena.Basic
set_option autoImplicit false

/-!
# Tree: programs as trees

An arena stores a program by places, and every stage of the compiler walks over places.  What a
program says does not depend on the places: it is a tree.  Here are the trees of expressions and
statements.  Argument lists and statement lists are lists, so a tree cannot be ill-formed in the way
in which a chain of nodes can.
-/

namespace Ifj22

/-- A constant of the language. -/
inductive Constant
  | int (value : Int64)
  | float (value : Float)
  | str (value : String)
  | null
  deriving DecidableEq, Repr, Inhabited

namespace Constant

/-- The node of a constant. -/
def node : Constant → Node
  | .int value => .int value
  | .float value => .float value
  | .str value => .str value
  | .null => .null

theorem node_injective {c d : Constant} (h : c.node = d.node) : c = d := by
  cases c <;> cases d <;> simp_all [node]

end Constant

/-- The constant that a node holds. -/
def Node.constant? : Node → Option Constant
  | .int value => some (.int value)
  | .float value => some (.float value)
  | .str value => some (.str value)
  | .null => some .null
  | _ => none

@[simp] theorem Constant.constant?_node (c : Constant) : c.node.constant? = some c := by
  cases c <;> rfl

theorem Node.eq_node_of_constant? {n : Node} {c : Constant} (h : n.constant? = some c) :
    n = c.node := by
  cases n <;> simp_all [Node.constant?, Constant.node] <;> subst h <;> rfl

theorem Node.isLiteral_iff (n : Node) : n.isLiteral = true ↔ ∃ c : Constant, n = c.node := by
  constructor
  · intro h
    cases n with
    | int value => exact ⟨.int value, rfl⟩
    | float value => exact ⟨.float value, rfl⟩
    | str value => exact ⟨.str value, rfl⟩
    | null => exact ⟨.null, rfl⟩
    | _ => simp [Node.isLiteral] at h
  · rintro ⟨c, rfl⟩
    cases c <;> rfl

/-- An expression. -/
inductive Expr
  | constant (c : Constant)
  | var (name : String)
  | binary (op : BinOp) (left right : Expr)
  | unary (op : UnaryOp) (operand : Expr)
  | call (name : String) (args : List Expr)
  deriving Repr, Inhabited

/-- A statement. -/
inductive Stmt
  | assign (target : String) (value : Expr)
  | expr (value : Expr)
  | ret (value : Option Expr)
  | block (body : List Stmt)
  | ifElse (cond : Expr) (thenBody : List Stmt) (elseBody : Option (List Stmt))
  | whileLoop (cond : Expr) (body : List Stmt)
  | function (name : String) (params : List Param) (declared : Option Ty) (body : List Stmt)
  deriving Repr, Inhabited

/-! ## Induction -/

/-- Induction over an expression; in a call the statement holds of every argument. -/
@[elab_as_elim, induction_eliminator]
theorem Expr.induction {motive : Expr → Prop}
    (constant : ∀ c, motive (.constant c))
    (var : ∀ name, motive (.var name))
    (binary : ∀ op left right, motive left → motive right → motive (.binary op left right))
    (unary : ∀ op operand, motive operand → motive (.unary op operand))
    (call : ∀ name args, (∀ e ∈ args, motive e) → motive (.call name args)) :
    ∀ e, motive e
  | .constant c => constant c
  | .var name => var name
  | .binary op left right =>
    binary op left right (induction constant var binary unary call left)
      (induction constant var binary unary call right)
  | .unary op operand => unary op operand (induction constant var binary unary call operand)
  | .call name args =>
    call name args fun e _ => induction constant var binary unary call e

/-- Induction over a statement; the statement holds of all members of the lists below it. -/
@[elab_as_elim, induction_eliminator]
theorem Stmt.induction {motive : Stmt → Prop}
    (assign : ∀ target value, motive (.assign target value))
    (expr : ∀ value, motive (.expr value))
    (ret : ∀ value, motive (.ret value))
    (block : ∀ body, (∀ s ∈ body, motive s) → motive (.block body))
    (ifElse : ∀ cond thenBody elseBody, (∀ s ∈ thenBody, motive s) →
      (∀ body, elseBody = some body → ∀ s ∈ body, motive s) →
      motive (.ifElse cond thenBody elseBody))
    (whileLoop : ∀ cond body, (∀ s ∈ body, motive s) → motive (.whileLoop cond body))
    (function : ∀ name params declared body, (∀ s ∈ body, motive s) →
      motive (.function name params declared body)) :
    ∀ s, motive s
  | .assign target value => assign target value
  | .expr value => expr value
  | .ret value => ret value
  | .block body =>
    block body fun s _ => induction assign expr ret block ifElse whileLoop function s
  | .ifElse cond thenBody none =>
    ifElse cond thenBody none
      (fun s _ => induction assign expr ret block ifElse whileLoop function s)
      (fun _ h => absurd h (by simp))
  | .ifElse cond thenBody (some elseBody) =>
    ifElse cond thenBody (some elseBody)
      (fun s _ => induction assign expr ret block ifElse whileLoop function s)
      (fun body h s hs =>
        have : s ∈ elseBody := Option.some.inj h ▸ hs
        induction assign expr ret block ifElse whileLoop function s)
  | .whileLoop cond body =>
    whileLoop cond body fun s _ =>
      induction assign expr ret block ifElse whileLoop function s
  | .function name params declared body =>
    function name params declared body fun s _ =>
      induction assign expr ret block ifElse whileLoop function s
termination_by s => sizeOf s
decreasing_by
  all_goals
    have := List.sizeOf_lt_of_mem ‹s ∈ _›
    simp only [Stmt.block.sizeOf_spec, Stmt.ifElse.sizeOf_spec, Stmt.whileLoop.sizeOf_spec,
      Stmt.function.sizeOf_spec, Option.some.sizeOf_spec]
    omega

end Ifj22
