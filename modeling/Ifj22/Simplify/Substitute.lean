import Ifj22.Simplify.Constant
set_option autoImplicit false

/-!
# Simplify: constants in place of variables

After an assignment of a constant, reads of the variable are replaced by the constant up to the next
assignment to it.  A statement that may assign the variable ends that: in a branch the reads before
the assignment are still replaced, in a loop that assigns the variable none is.  Functions have
variables of their own.
-/

namespace Ifj22

/-- What came of replacing reads in a statement. -/
structure Spread where
  /-- The statement may assign the variable. -/
  stop : Bool
  /-- The reads that were replaced. -/
  replaced : Nat
  deriving DecidableEq, Repr, Inhabited

namespace Arena

/-- The tree at a place, followed `fuel` levels down, assigns the variable outside functions. -/
def writesAt (a : Arena) (name : String) : Nat → NodeId → Bool
  | 0, _ => false
  | fuel + 1, id =>
    match a.node id with
    | .function _ _ _ _ => false
    | .assign target value => target == name || a.writesAt name fuel value
    | node => node.children.any (a.writesAt name fuel)

/-- The tree at a place assigns the variable outside functions. -/
def writes (a : Arena) (name : String) (id : NodeId) : Bool := a.writesAt name a.size id

end Arena

namespace Edit

/-- Replaces the reads of a variable in the tree at a place, followed `fuel` levels down, by a
constant, and counts them. -/
def replaceReadsAt (name : String) (constant : Node) : Nat → NodeId → Edit Nat
  | 0, _ => pure 0
  | fuel + 1, id => do
    match (← get).node id with
    | .var other => replace? id (if other = name then some constant else none)
    | .function _ _ _ _ => pure 0
    | node => total (replaceReadsAt name constant fuel) node.children

/-- Replaces the reads of a variable in the tree at a place by a constant, and counts them. -/
def replaceReads (name : String) (constant : Node) (id : NodeId) : Edit Nat := do
  replaceReadsAt name constant (← get).size id

/-- Runs a step on one item after the other until one stops. -/
def untilStop {α : Type} (step : α → Edit Spread) : List α → Edit Spread
  | [] => pure ⟨false, 0⟩
  | item :: rest => do
    let first ← step item
    if first.stop then pure first
    else
      let others ← untilStop step rest
      pure ⟨others.stop, first.replaced + others.replaced⟩

/-- Replaces the reads of a variable that come before its next assignment in the statement at a
place, followed `fuel` levels down. -/
def spreadAt (name : String) (constant : Node) : Nat → NodeId → Edit Spread
  | 0, _ => pure ⟨false, 0⟩
  | fuel + 1, id => do
    match (← get).node id with
    | .sequence _ _ => untilStop (spreadAt name constant fuel) ((← get).statements id)
    | .assign target value =>
      let n ← replaceReads name constant value
      pure ⟨target == name, n⟩
    | .ifElse cond thenBody elseBody =>
      let n ← replaceReads name constant cond
      let yes ← spreadAt name constant fuel thenBody
      match elseBody with
      | some elseBody =>
        let no ← spreadAt name constant fuel elseBody
        pure ⟨yes.stop || no.stop, n + yes.replaced + no.replaced⟩
      | none => pure ⟨yes.stop, n + yes.replaced⟩
    | .whileLoop cond body =>
      if (← get).writes name body then pure ⟨true, 0⟩
      else
        let n ← replaceReads name constant cond
        let m ← replaceReads name constant body
        pure ⟨false, n + m⟩
    | .function _ _ _ _ => pure ⟨false, 0⟩
    | _ =>
      let n ← replaceReads name constant id
      pure ⟨false, n⟩

/-- Replaces the reads of a variable that come before its next assignment in the statement at a
place. -/
def spread (name : String) (constant : Node) (id : NodeId) : Edit Spread := do
  spreadAt name constant (← get).size id

end Edit

end Ifj22
