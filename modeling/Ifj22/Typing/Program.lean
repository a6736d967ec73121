import Ifj22.Typing.Check
import Ifj22.Typing.Settle
set_option autoImplicit false

/-!
# Typing: whole programs

A program is checked in three steps: its functions are declared, its statements are checked in
source order, and the types of its names are settled.  The table is then handed out.
-/

namespace Ifj22

namespace Checker

/-- Checks the program in the arena of the checker and hands out its symbol table; what stays behind
is an empty table. -/
def program (root : NodeId) : Check SymbolTable := do
  hoist root
  stmt (← get).arena.size root
  modifyGet fun c => (c.table.settle c.arena root, { c with table := .empty })

/-- Goes on with the arena of another program. -/
def withArena (c : Checker) (a : Arena) : Checker := { c with arena := a }

end Checker

/-- A program whose names are known and fit. -/
structure Checked where
  program : Program
  table : SymbolTable
  deriving DecidableEq, Repr, Inhabited

/-- Checks a program that starts from the built-in functions. -/
def Program.check (p : Program) : Except CompileError Checked :=
  match (Checker.program p.root).run ((Checker.start .builtins).withArena p.arena) with
  | .ok table c => .ok ⟨⟨c.arena, p.root⟩, table⟩
  | .error e _ => .error e

end Ifj22
