import Ifj22.Proofs.Tree.Syntax
import Ifj22.Simplify.Program
set_option autoImplicit false

/-!
# Simplify: simplifying trees

Folding, replacing reads and spreading a constant, as functions on trees.  `Sweeps` says what a pass
makes of a list of statements, `Stmt.NormalList` that there is nothing for a pass to do.  The changes
that a pass counts are a matter of the arena: of the tree, only whether there is one.
-/

namespace Ifj22

/-! ## Folding -/

/-- The constant that an operation on two constants folds to. -/
def Constant.foldBinary? (op : BinOp) (a b : Constant) : Option Constant :=
  (Node.foldBinary? op a.node b.node).bind Node.constant?

/-- The constant that an operation on a constant folds to. -/
def Constant.foldUnary? (op : UnaryOp) (a : Constant) : Option Constant :=
  (Node.foldUnary? op a.node).bind Node.constant?

namespace Expr

/-- The constant that the expression is. -/
def constant? : Expr → Option Constant
  | .constant c => some c
  | _ => none

/-- The constant that a binary operation folds to. -/
def foldBinary? (op : BinOp) (left right : Expr) : Option Constant :=
  left.constant?.bind fun a => right.constant?.bind fun b => Constant.foldBinary? op a b

/-- The constant that a unary operation folds to. -/
def foldUnary? (op : UnaryOp) (operand : Expr) : Option Constant :=
  operand.constant?.bind (Constant.foldUnary? op)

mutual

/-- The expression with its operations on constants carried out. -/
def fold : Expr → Expr
  | .binary op left right =>
    ((foldBinary? op left.fold right.fold).map .constant).getD (.binary op left.fold right.fold)
  | .unary op operand =>
    ((foldUnary? op operand.fold).map .constant).getD (.unary op operand.fold)
  | .call name args => .call name (foldAll args)
  | e => e

def foldAll : List Expr → List Expr
  | [] => []
  | e :: rest => e.fold :: foldAll rest

end

/-! ## Replacing reads -/

mutual

/-- The expression with a constant in place of a variable. -/
def replace (name : String) (c : Constant) : Expr → Expr
  | .var other => if other = name then .constant c else .var other
  | .binary op left right => .binary op (left.replace name c) (right.replace name c)
  | .unary op operand => .unary op (operand.replace name c)
  | .call callee args => .call callee (replaceAll name c args)
  | .constant k => .constant k

def replaceAll (name : String) (c : Constant) : List Expr → List Expr
  | [] => []
  | e :: rest => e.replace name c :: replaceAll name c rest

end

theorem replaceAll_eq (name : String) (c : Constant) (args : List Expr) :
    replaceAll name c args = args.map (replace name c) := by
  induction args with
  | nil => rfl
  | cons e rest ih => rw [replaceAll, ih, List.map_cons]

end Expr

namespace Stmt

mutual

/-- The statement with a constant in place of a variable; functions have variables of their own. -/
def replace (name : String) (c : Constant) : Stmt → Stmt
  | .assign target value => .assign target (value.replace name c)
  | .expr value => .expr (value.replace name c)
  | .ret value => .ret (value.map (Expr.replace name c))
  | .block body => .block (replaceAll name c body)
  | .ifElse cond thenBody none => .ifElse (cond.replace name c) (replaceAll name c thenBody) none
  | .ifElse cond thenBody (some elseBody) =>
    .ifElse (cond.replace name c) (replaceAll name c thenBody) (some (replaceAll name c elseBody))
  | .whileLoop cond body => .whileLoop (cond.replace name c) (replaceAll name c body)
  | .function f params declared body => .function f params declared body

def replaceAll (name : String) (c : Constant) : List Stmt → List Stmt
  | [] => []
  | s :: rest => s.replace name c :: replaceAll name c rest

end

/-! ## Spreading a constant up to the next assignment -/

mutual

/-- The statement may assign the variable. -/
def writes (name : String) : Stmt → Bool
  | .assign target _ => target == name
  | .block body => writesAny name body
  | .ifElse _ thenBody none => writesAny name thenBody
  | .ifElse _ thenBody (some elseBody) => writesAny name thenBody || writesAny name elseBody
  | .whileLoop _ body => writesAny name body
  | _ => false

def writesAny (name : String) : List Stmt → Bool
  | [] => false
  | s :: rest => s.writes name || writesAny name rest

end

mutual

/-- The statement with a constant in place of the variable up to its next assignment. -/
def spread (name : String) (c : Constant) : Stmt → Stmt
  | .assign target value => .assign target (value.replace name c)
  | .expr value => .expr (value.replace name c)
  | .ret value => .ret (value.map (Expr.replace name c))
  | .block body => .block (spreadAll name c body)
  | .ifElse cond thenBody none => .ifElse (cond.replace name c) (spreadAll name c thenBody) none
  | .ifElse cond thenBody (some elseBody) =>
    .ifElse (cond.replace name c) (spreadAll name c thenBody) (some (spreadAll name c elseBody))
  | .whileLoop cond body =>
    if writesAny name body then .whileLoop cond body
    else .whileLoop (cond.replace name c) (replaceAll name c body)
  | .function f params declared body => .function f params declared body

/-- The statements with a constant in place of the variable up to its next assignment. -/
def spreadAll (name : String) (c : Constant) : List Stmt → List Stmt
  | [] => []
  | s :: rest => s.spread name c :: if s.writes name then rest else spreadAll name c rest

end

mutual

/-- Over a statement that does not assign the variable, spreading replaces every read. -/
theorem spread_eq_replace {name : String} (c : Constant) :
    ∀ {s : Stmt}, s.writes name = false → s.spread name c = s.replace name c
  | .assign _ _, _ | .expr _, _ | .ret _, _ | .function _ _ _ _, _ => by rw [spread, replace]
  | .block body, h => by rw [spread, replace, spreadAll_eq_replaceAll c h]
  | .ifElse cond thenBody none, h => by rw [spread, replace, spreadAll_eq_replaceAll c h]
  | .ifElse cond thenBody (some elseBody), h => by
    obtain ⟨hthen, helse⟩ := Bool.or_eq_false_iff.mp h
    rw [spread, replace, spreadAll_eq_replaceAll c hthen, spreadAll_eq_replaceAll c helse]
  | .whileLoop cond body, h => by
    have hbody : writesAny name body = false := h
    rw [spread, replace, hbody, if_neg Bool.false_ne_true]

theorem spreadAll_eq_replaceAll {name : String} (c : Constant) :
    ∀ {body : List Stmt}, writesAny name body = false →
      spreadAll name c body = replaceAll name c body
  | [], _ => rfl
  | s :: rest, h => by
    obtain ⟨hs, hrest⟩ := Bool.or_eq_false_iff.mp h
    rw [spreadAll, replaceAll, hs, spread_eq_replace c hs, if_neg Bool.false_ne_true,
      spreadAll_eq_replaceAll c hrest]

end

/-- The constant that a statement assigns, with its target. -/
def assigned? : Stmt → Option (String × Constant)
  | .assign target (.constant c) => some (target, c)
  | _ => none

/-- The statements behind one that assigns a constant, with the constant spread over them. -/
def spreadBehind (s : Stmt) (later : List Stmt) : List Stmt :=
  match s.assigned? with
  | some (target, c) => spreadAll target c later
  | none => later

end Stmt

/-! ## A pass -/

/-- The truth of a constant number. -/
def Constant.truth? (c : Constant) : Option Bool := c.node.truth?

/-- The truth of an expression that is a constant number. -/
def Expr.truth? (e : Expr) : Option Bool := e.constant?.bind Constant.truth?

/-- A pass makes the second list of the first one. -/
inductive Sweeps : List Stmt → List Stmt → Prop
  | nil : Sweeps [] []
  | assign {target : String} {value : Expr} {later rest : List Stmt}
    (hrest : Sweeps (Stmt.spreadBehind (.assign target value.fold) later) rest) :
    Sweeps (.assign target value :: later) (.assign target value.fold :: rest)
  | expr {value : Expr} {later rest : List Stmt} (hrest : Sweeps later rest) :
    Sweeps (.expr value :: later) (.expr value.fold :: rest)
  | ret {value : Option Expr} {later rest : List Stmt} (hrest : Sweeps later rest) :
    Sweeps (.ret value :: later) (.ret (value.map Expr.fold) :: rest)
  | block {body body' later rest : List Stmt} (hbody : Sweeps body body')
    (hrest : Sweeps later rest) : Sweeps (.block body :: later) (.block body' :: rest)
  /-- A condition that folds to a number decides which branch is left. -/
  | taken {cond : Expr} {thenBody : List Stmt} {elseBody : Option (List Stmt)} {b : Bool}
    {body' later rest : List Stmt} (hcond : cond.fold.truth? = some b)
    (hbody : Sweeps (if b then thenBody else elseBody.getD []) body')
    (hrest : Sweeps later rest) :
    Sweeps (.ifElse cond thenBody elseBody :: later) (.block body' :: rest)
  | ifElse {cond : Expr} {thenBody thenBody' : List Stmt} {elseBody elseBody' : Option (List Stmt)}
    {later rest : List Stmt} (hcond : cond.fold.truth? = none)
    (hthen : Sweeps thenBody thenBody') (hsome : elseBody'.isSome = elseBody.isSome)
    (helse : Sweeps (elseBody.getD []) (elseBody'.getD [])) (hrest : Sweeps later rest) :
    Sweeps (.ifElse cond thenBody elseBody :: later)
      (.ifElse cond.fold thenBody' elseBody' :: rest)
  /-- A loop whose condition folds to zero is never entered. -/
  | skipped {cond : Expr} {body later rest : List Stmt}
    (hcond : cond.fold.truth? = some false) (hrest : Sweeps later rest) :
    Sweeps (.whileLoop cond body :: later) (.block [] :: rest)
  | whileLoop {cond : Expr} {body body' later rest : List Stmt}
    (hcond : cond.fold.truth? ≠ some false) (hbody : Sweeps body body')
    (hrest : Sweeps later rest) :
    Sweeps (.whileLoop cond body :: later) (.whileLoop cond.fold body' :: rest)
  | function {name : String} {params : List Param} {declared : Option Ty}
    {body body' later rest : List Stmt} (hbody : Sweeps body body') (hrest : Sweeps later rest) :
    Sweeps (.function name params declared body :: later)
      (.function name params declared body' :: rest)

mutual

/-- Nothing in the statement can be folded, decided or spread. -/
inductive Stmt.Normal : Stmt → Prop
  | assign {target : String} {value : Expr} (h : value.fold = value) : Normal (.assign target value)
  | expr {value : Expr} (h : value.fold = value) : Normal (.expr value)
  | ret {value : Option Expr} (h : value.map Expr.fold = value) : Normal (.ret value)
  | block {body : List Stmt} (h : NormalList body) : Normal (.block body)
  | ifElse {cond : Expr} {thenBody : List Stmt} {elseBody : Option (List Stmt)}
    (hc : cond.fold = cond) (hopen : cond.truth? = none) (ht : NormalList thenBody)
    (he : NormalList (elseBody.getD [])) : Normal (.ifElse cond thenBody elseBody)
  | whileLoop {cond : Expr} {body : List Stmt} (hc : cond.fold = cond)
    (hopen : cond.truth? ≠ some false) (h : NormalList body) : Normal (.whileLoop cond body)
  | function {name : String} {params : List Param} {declared : Option Ty} {body : List Stmt}
    (h : NormalList body) : Normal (.function name params declared body)

/-- Nothing in the statements can be folded or decided, and no constant that one of them assigns
replaces a read behind it. -/
inductive Stmt.NormalList : List Stmt → Prop
  | nil : NormalList []
  | cons {s : Stmt} {later : List Stmt} (hs : Normal s) (hspent : s.spreadBehind later = later)
    (h : NormalList later) : NormalList (s :: later)

end

/-- Passes make the second list of the first one. -/
inductive Simplifies : List Stmt → List Stmt → Prop
  | refl (body : List Stmt) : Simplifies body body
  | step {body body' body'' : List Stmt} (hpass : Sweeps body body')
    (hrest : Simplifies body' body'') : Simplifies body body''

end Ifj22
