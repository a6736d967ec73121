import Ifj22.Simplify.Substitute
set_option autoImplicit false

/-!
# Simplify: whole programs

A pass goes over the statements of a program in order.  It folds the expressions of a statement,
decides branches and loops whose condition is constant, and spreads an assigned constant over the
statements that follow.  Passes are repeated until one changes nothing.

Every change puts a constant in the place of an operation or of a variable that is read, or decides a
conditional or a loop, and nothing of this kind comes up anew.  So there are at most as many changes as
nodes, and the passes come to an end before the number that is allowed for is used up.
-/

namespace Ifj22

namespace Edit

/-- Spreads the constant that a statement assigns, if it does, over the statements that follow. -/
def spreadAssigned (stmt : NodeId) (later : List NodeId) : Edit Nat := do
  let a ← get
  match a.node stmt with
  | .assign target value =>
    let constant := a.node value
    if constant.isLiteral then
      let outcome ← untilStop (spread target constant) later
      pure outcome.replaced
    else pure 0
  | _ => pure 0

/-- Simplifies a list of statements, given how to simplify one. -/
def sweep (simplify : NodeId → Edit Nat) : List NodeId → Edit Nat
  | [] => pure 0
  | stmt :: later => do
    let here ← simplify stmt
    let ahead ← spreadAssigned stmt later
    let rest ← sweep simplify later
    pure (here + ahead + rest)

/-- Simplifies the statements of the list at a place, given how to simplify one. -/
def sweepList (simplify : NodeId → Edit Nat) (id : NodeId) : Edit Nat := do
  sweep simplify ((← get).statements id)

/-- The branch that a constant condition takes. -/
def taken (a : Arena) (thenBody : NodeId) (elseBody : Option NodeId) (condition : Bool) : Node :=
  if condition then a.node thenBody else (elseBody.map a.node).getD .empty

/-- Simplifies the statement at a place, followed `fuel` levels down, and counts the changes. -/
def stmtAt : Nat → NodeId → Edit Nat
  | 0, _ => pure 0
  | fuel + 1, id => do
    match (← get).node id with
    | .sequence _ _ => sweepList (stmtAt fuel) id
    | .assign _ value => fold value
    | .ifElse cond thenBody elseBody =>
      let inCond ← fold cond
      let a ← get
      match (a.node cond).truth? with
      | some condition =>
        modify (·.set id (taken a thenBody elseBody condition))
        let inBranch ← sweepList (stmtAt fuel) id
        pure (inCond + 1 + inBranch)
      | none =>
        let inThen ← sweepList (stmtAt fuel) thenBody
        let inElse ← total (sweepList (stmtAt fuel)) elseBody.toList
        pure (inCond + inThen + inElse)
    | .whileLoop cond body =>
      let inCond ← fold cond
      if ((← get).node cond).truth? = some false then
        modify (·.set id .empty)
        pure (inCond + 1)
      else
        let inBody ← sweepList (stmtAt fuel) body
        pure (inCond + inBody)
    | .function _ _ _ body => sweepList (stmtAt fuel) body
    | .ret value => total fold value.toList
    | _ => fold id

/-- One pass over the statement list at a place. -/
def pass (root : NodeId) : Edit Nat := do
  sweepList (stmtAt (← get).size) root

/-- Passes until one changes nothing, at most `fuel` of them. -/
def passes (root : NodeId) : Nat → Arena → Arena
  | 0, a => a
  | fuel + 1, a =>
    let (changes, a) := (pass root).run a
    if changes = 0 then a else passes root fuel a

end Edit

/-- The program with its constants folded and spread and its constant branches decided. -/
def Program.simplify (p : Program) : Program :=
  { p with arena := Edit.passes p.root ((p.arena.size + 1) * (p.arena.size + 1)) p.arena }

end Ifj22
