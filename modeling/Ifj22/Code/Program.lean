import Ifj22.Code.Expr
import Ifj22.Code.Routine.Body
set_option autoImplicit false

/-!
# Code: statements and programs

A listing is the whole code of a program: the main body, then each function, then the routines that
the code uses, in their fixed order.
-/

namespace Ifj22.Code

/-- The code of a program. -/
structure Listing where
  main : List Instr
  functions : List (List Instr)
  routines : List Routine
  deriving DecidableEq, Repr, Inhabited

namespace Listing

/-- All instructions of a listing in order. -/
def instructions (l : Listing) : List Instr :=
  l.main ++ l.functions.flatten ++ l.routines.flatMap Routine.body

/-- The text of a listing. -/
def text (l : Listing) : String := ".IFJcode22\n" ++ listingText l.instructions

end Listing

namespace Generator

/-! ## Statements -/

/-- A conditional, given how to generate a statement. -/
def ifElseWith (arena : Arena) (stmt : NodeId → Generate Unit) (cond thenBody : NodeId)
    (elseBody : Option NodeId) : Generate Unit := do
  let n ← newLabel
  let value ← condition arena cond
  emit (.jumpIfEq (.branch .ifElse n) value (.bool false))
  stmt thenBody
  emit (.jump (.branch .ifEnd n))
  emit (.label (.branch .ifElse n))
  elseBody.forM stmt
  emit (.label (.branch .ifEnd n))

/-- A loop, given how to generate a statement. -/
def whileLoopWith (arena : Arena) (stmt : NodeId → Generate Unit) (cond body : NodeId) :
    Generate Unit := do
  let n ← newLabel
  emit (.label (.branch .whileStart n))
  let value ← condition arena cond
  emit (.jumpIfEq (.branch .whileEnd n) value (.bool false))
  stmt body
  emit (.jump (.branch .whileStart n))
  emit (.label (.branch .whileEnd n))

/-- A return: it leaves the function, or ends the program. -/
def returnStmt (arena : Arena) (value : Option NodeId) : Generate Unit := do
  let value ← value.mapM (expr arena)
  if (← get).function.isNone then emit (.exit (.int 0))
  else
    value.forM fun value => emit (.move Var.result value)
    emit .popFrame
    emit .ret

/-- The code of a function: it enters a frame of its own, takes its parameters from the stack and
runs its body. -/
def functionCode (name : String) (pops : List Instr) (segment : Segment) : List Instr :=
  [.label (.entry name), .pushFrame, .defVar Var.result, .move Var.result .nil]
    ++ segment.declarations ++ pops ++ segment.body.toList ++ [.popFrame, .ret]

/-- A function, given how to generate a statement.  Its parameters are on the stack with the last
one on top. -/
def functionWith (stmt : NodeId → Generate Unit) (name : String) (params : List Param)
    (body : NodeId) : Generate Unit := do
  let outer := (← get).segment
  modify fun g => { g with segment := .empty .lf, function := some name }
  let pops ← params.reverse.mapM fun p => do
    let v ← variableOf p.name
    pure (.pop v)
  stmt body
  modify fun g =>
    { g with
      function := none
      segment := outer
      functions := g.functions.push (functionCode name pops g.segment) }

/-- Generates the statement at a place, followed `fuel` levels down. -/
def stmtAt (arena : Arena) : Nat → NodeId → Generate Unit
  | 0, _ => pure ()
  | fuel + 1, id => do
    match arena.node id with
    | .sequence _ _ => (arena.statements id).forM (stmtAt arena fuel)
    | .assign target value =>
      let value ← expr arena value
      let v ← variableOf target
      emit (.move v value)
    | .ifElse cond thenBody elseBody =>
      ifElseWith arena (stmtAt arena fuel) cond thenBody elseBody
    | .whileLoop cond body => whileLoopWith arena (stmtAt arena fuel) cond body
    | .function name params _ body => functionWith (stmtAt arena fuel) name params body
    | .ret value => returnStmt arena value
    | .call name args => call arena name args
    | _ =>
      let _ ← expr arena id

/-! ## Programs -/

/-- The routine is called by the code, as a built-in function or as a conversion. -/
def calls (g : Generator) (r : Routine) : Bool :=
  r ∈ g.helpers ||
    g.table.symbols.any fun s => s.builtin && s.called && Routine.ofBuiltin? s.name == some r

/-- The routines that the code needs: those that it calls and those that these jump to. -/
def routines (g : Generator) : List Routine :=
  Routine.all.filter fun r =>
    g.calls r || Routine.all.any fun caller => g.calls caller && r ∈ caller.dependencies

/-- The code so far. -/
def listing (g : Generator) : Listing where
  main := g.segment.declarations ++ g.segment.body.toList
  functions := g.functions.toList
  routines := g.routines

/-- Generates the code of a program. -/
def program (p : Program) : Generate Listing := do
  stmtAt p.arena p.arena.size p.root
  emit (.exit (.int 0))
  pure (← get).listing

end Generator

end Ifj22.Code
