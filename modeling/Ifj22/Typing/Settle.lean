import Ifj22.Typing.Infer
set_option autoImplicit false

/-!
# Typing: settling the types of names

A loop may assign to a variable a value whose type depends on a later assignment.  So the walk over
the program is followed by rounds that widen every assigned variable, and every return type that is
not declared, by the types of its values under the tables so far.  When a round changes nothing,
every value that is stored fits the type of its variable.

A round that changes something adds a kind to the type of a symbol.  There are six kinds and rounds
add no symbols, so the rounds end.
-/

namespace Ifj22

/-- The function that a statement stands in. -/
structure SettleScope where
  name : String
  /-- Its return type is not declared. -/
  inferred : Bool
  deriving DecidableEq, Repr, Inhabited

namespace SymbolTable

/-- Widens the type of a symbol, and tells whether that changed it. -/
def widenSymbol (name : String) (ty : Ty) : StateM SymbolTable Bool :=
  modifyGet fun t => (t.lacksTy name ty, if t.lacksTy name ty then t.includeTy name ty else t)

/-- Widens the type of a local variable of a function, and tells whether that changed it. -/
def widenLocal (function name : String) (ty : Ty) : StateM SymbolTable Bool :=
  modifyGet fun t =>
    let lacks := ((t.locals? function).map (·.lacksTy name ty)).getD false
    (lacks, (t.modifyLocals? function fun l => if lacks then l.includeTy name ty else l).getD t)

/-- Runs a step on every item and tells whether one of them changed something. -/
def anyChange {α : Type} (step : α → StateM SymbolTable Bool) : List α → StateM SymbolTable Bool
  | [] => pure false
  | item :: rest => do
    let first ← step item
    let others ← anyChange step rest
    pure (first || others)

/-- One round over the statement at a place, followed `fuel` levels down. -/
def settleAt (a : Arena) (scope : Option SettleScope) : Nat → NodeId → StateM SymbolTable Bool
  | 0, _ => pure false
  | fuel + 1, id => do
    let tyOf (t : SymbolTable) (value : NodeId) : Ty :=
      a.infer (TypeEnv.ofScope t (scope.map (·.name))) value
    match a.node id with
    | .sequence _ _ => anyChange (settleAt a scope fuel) (a.statements id)
    | .assign target value =>
      let ty := tyOf (← get) value
      match scope with
      | some f => widenLocal f.name target ty
      | none => widenSymbol target ty
    | .ifElse _ thenBody elseBody => anyChange (settleAt a scope fuel) (thenBody :: elseBody.toList)
    | .whileLoop _ body => settleAt a scope fuel body
    | .function name _ declared body =>
      settleAt a (some ⟨name, declared.isNone⟩) fuel body
    | .ret value =>
      match scope with
      | some f =>
        if f.inferred then
          let ty := (value.map (tyOf (← get))).getD .null
          widenSymbol f.name ty
        else pure false
      | none => pure false
    | _ => pure false

/-- One round over a program. -/
def settleRound (a : Arena) (root : NodeId) : StateM SymbolTable Bool :=
  settleAt a none a.size root

/-- Rounds until one changes nothing, at most `fuel` of them. -/
def settleRounds (a : Arena) (root : NodeId) : Nat → SymbolTable → SymbolTable
  | 0, t => t
  | fuel + 1, t =>
    let (changed, t) := (settleRound a root).run t
    if changed then settleRounds a root fuel t else t

/-- The table with the types of its names settled. -/
def settle (a : Arena) (root : NodeId) (t : SymbolTable) : SymbolTable :=
  settleRounds a root (6 * t.symbolCount + 1) t

end SymbolTable

end Ifj22
