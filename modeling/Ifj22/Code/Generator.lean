import Ifj22.Code.Routine.Basic
import Ifj22.Error
import Ifj22.Typing.Infer
set_option autoImplicit false

/-!
# Code: the generator

A generator collects the code of a program.  It fills one segment at a time: that of the main body,
or that of a function.  The variables of a segment are declared ahead of its instructions, so that
no jump can pass a declaration twice.

Temporaries and labels are numbered through the whole program.  A generator that failed keeps what
it had up to there.
-/

namespace Ifj22.Code

/-- The code of the main body or of a function. -/
structure Segment where
  /-- The frame of its variables. -/
  frame : Frame
  /-- Its variables, in the order of their first use. -/
  declared : Array Var
  body : Array Instr
  deriving DecidableEq, Repr, Inhabited

namespace Segment

/-- The segment without instructions. -/
def empty (frame : Frame) : Segment := ⟨frame, #[], #[]⟩

/-- The declarations of a segment. -/
def declarations (s : Segment) : List Instr := s.declared.toList.map .defVar

end Segment

/-- The state of generating code. -/
structure Generator where
  /-- The number of the last label. -/
  labels : Nat
  /-- The number of the last temporary. -/
  temps : Nat
  table : SymbolTable
  /-- The function that is being generated; in the main body there is none. -/
  function : Option String
  segment : Segment
  /-- The code of the functions that are done. -/
  functions : Array (List Instr)
  /-- The conversions that the code calls. -/
  helpers : List Routine
  deriving DecidableEq, Repr, Inhabited

/-- A step of a generator: it yields a value or an error, and the generator behind it either way. -/
abbrev Generate := EStateM CompileError Generator

namespace Generator

/-- The generator before the first instruction. -/
def start (table : SymbolTable) : Generator where
  labels := 0
  temps := 0
  table := table
  function := none
  segment := .empty .gf
  functions := #[]
  helpers := []

/-- What is known of the names in the scope of the generator. -/
def env (g : Generator) : TypeEnv :=
  match g.function with
  | some f => ⟨((g.table.locals? f).getD (Table.empty .function)).tyOf, g.table.callTy⟩
  | none => .toplevel g.table

/-- Changes the segment. -/
def modifySegment (f : Segment → Segment) : Generate Unit :=
  modify fun g => { g with segment := f g.segment }

/-- Adds an instruction. -/
def emit (i : Instr) : Generate Unit :=
  modifySegment fun s => { s with body := s.body.push i }

/-- Adds a declaration of a variable. -/
def declare (v : Var) : Generate Unit :=
  modifySegment fun s => { s with declared := s.declared.push v }

/-- The number of the next label. -/
def newLabel : Generate Nat :=
  modifyGet fun g => (g.labels + 1, { g with labels := g.labels + 1 })

/-- Declares a numbered variable whose name starts as given. -/
def newNumbered (stem : String) : Generate Var := do
  let n ← modifyGet fun g => (g.temps + 1, { g with temps := g.temps + 1 })
  let v : Var := ⟨(← get).segment.frame, stem ++ toString n⟩
  declare v
  pure v

/-- A variable for the value of an expression. -/
def newTemp : Generate Var := newNumbered "%t"

/-- A variable for a converted copy of a value. -/
def newShadow : Generate Var := newNumbered "%s"

/-- The name of a variable without its dollar signs. -/
def bareName (name : String) : String := String.ofList (name.toList.dropWhile (· == '$'))

/-- The symbol of a variable in the scope of the generator was declared in the code before; none if
there is no such symbol. -/
def emitted? (g : Generator) (name : String) : Option Bool :=
  match g.function with
  | some f => ((g.table.locals? f).bind (·.find? name)).map (·.emitted)
  | none => (g.table.find? name).map (·.emitted)

/-- Notes that a variable in the scope of the generator has been declared in the code. -/
def markEmitted (g : Generator) (name : String) : Generator :=
  match g.function with
  | some f =>
    let mark (l : LocalTable) : LocalTable := l.modify name fun s => { s with emitted := true }
    { g with table := (g.table.modifyLocals? f mark).getD g.table }
  | none => { g with table := g.table.modify name fun s => { s with emitted := true } }

/-- The frame variable of a variable of the program; it is declared when it is first met. -/
def variableOf (name : String) : Generate Var := do
  let g ← get
  let v : Var := ⟨g.segment.frame, bareName name⟩
  match g.emitted? name with
  | none => throw (.internal (.noSymbol name))
  | some true => pure v
  | some false =>
    modify (·.markEmitted name)
    declare v
    pure v

/-- Calls a conversion on a value and moves the result to `dest`. -/
def convert (r : Routine) (value : Operand) (dest : Var) : Generate Unit := do
  modify fun g => { g with helpers := if r ∈ g.helpers then g.helpers else r :: g.helpers }
  emit (.push value)
  emit .createFrame
  emit (.call r.entry)
  emit (.move dest Var.returned)

end Generator

end Ifj22.Code
