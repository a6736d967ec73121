import Ifj22.Code.Instr
set_option autoImplicit false

/-!
# Code: support routines

A program that calls a built-in function, or that converts a value whose type is not known, needs a
routine for it at the end of its code.  A routine takes its arguments from the data stack and leaves
its result in its frame.  Routines that are no built-in functions have a percent sign before their
name.
-/

namespace Ifj22.Code

/-- The support routines, in the order in which they are written. -/
inductive Routine
  | readi | readf | reads | write | strlen | ord | chr | substring | intval | floatval | strval
  | toInt | toFloat | toText | toBool | toNumber | typeError
  deriving DecidableEq, Repr, Inhabited

namespace Routine

/-- Every routine once, in the order in which they are written. -/
def all : List Routine :=
  [.readi, .readf, .reads, .write, .strlen, .ord, .chr, .substring, .intval, .floatval, .strval,
   .toInt, .toFloat, .toText, .toBool, .toNumber, .typeError]

theorem mem_all (r : Routine) : r ∈ all := by cases r <;> decide

/-- The routine is a built-in function of the language. -/
def isBuiltin : Routine → Bool
  | .toInt | .toFloat | .toText | .toBool | .toNumber | .typeError => false
  | _ => true

/-- The name of a routine without its percent sign. -/
def base : Routine → String
  | .readi => "readi"
  | .readf => "readf"
  | .reads => "reads"
  | .write => "write"
  | .strlen => "strlen"
  | .ord => "ord"
  | .chr => "chr"
  | .substring => "substring"
  | .intval => "intval"
  | .floatval => "floatval"
  | .strval => "strval"
  | .toInt => "toint"
  | .toFloat => "tofloat"
  | .toText => "tostring"
  | .toBool => "tobool"
  | .toNumber => "tonumber"
  | .typeError => "type_error"

/-- The name of a routine. -/
def name (r : Routine) : String := if r.isBuiltin then r.base else "%" ++ r.base

/-- The place where a routine starts. -/
def entry (r : Routine) : Label := .entry r.name

/-- A place inside a routine. -/
def inside (r : Routine) (spot : String) : Label := .inside r.base spot

/-- The routine of a built-in function. -/
def ofBuiltin? (name : String) : Option Routine :=
  all.find? fun r => r.isBuiltin && r.name == name

/-- The other routines that a routine jumps to. -/
def dependencies : Routine → List Routine
  | .readi | .readf | .reads | .write | .toBool | .typeError => []
  | _ => [.typeError]

/-! ## Pieces of routines -/

/-- A variable of the routine's own frame. -/
def lf (name : String) : Var := ⟨.lf, name⟩

/-- Declarations of variables of the routine's own frame. -/
def declare (names : List String) : List Instr := names.map fun name => .defVar (lf name)

/-- A routine around its instructions: it enters a frame of its own with a variable for the result,
and leaves the frame at the end. -/
def framed (r : Routine) (inner : List Instr) : List Instr :=
  [Instr.label r.entry, .pushFrame, .defVar Var.result] ++ inner ++ [Instr.popFrame, .ret]

/-- Instructions of a routine behind one of its labels. -/
def block (r : Routine) (spot : String) (code : List Instr) : List Instr :=
  .label (r.inside spot) :: code

/-- Ends the program with a type error unless the variable holds a value of the named type. -/
def require (name type : String) : List Instr :=
  [.unary .typeOf (lf "type") (lf name),
   .jumpIfNeq typeError.entry (lf "type") (.str type)]

end Routine

end Ifj22.Code
