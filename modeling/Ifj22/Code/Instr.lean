import Ifj22.Code.Operand
set_option autoImplicit false

/-!
# Code: instructions

The instructions of IFJcode22 that the compiler uses, and their text.  A label is the entry of a
function, a place that a statement or an expression of the program jumps to, or a place inside a
support routine.  The latter two start with a percent sign, which no name in a program does.
-/

namespace Ifj22.Code

/-- What a generated label is for. -/
inductive Site
  | ifElse | ifEnd | whileStart | whileEnd | arithFloat | arithEnd | bool | compare | and | or
  deriving DecidableEq, Repr, Inhabited

/-- The text of a generated label with the given number. -/
def Site.text (site : Site) (n : Nat) : String :=
  let number := toString n
  match site with
  | ifElse => "%if" ++ number ++ "_else"
  | ifEnd => "%if" ++ number ++ "_end"
  | whileStart => "%while" ++ number ++ "_start"
  | whileEnd => "%while" ++ number ++ "_end"
  | arithFloat => "%arith" ++ number ++ "_float"
  | arithEnd => "%arith" ++ number ++ "_end"
  | bool => "%bool" ++ number
  | compare => "%cmp" ++ number
  | and => "%and" ++ number
  | or => "%or" ++ number

/-- A place in the code. -/
inductive Label
  /-- The entry of a function or a support routine. -/
  | entry (name : String)
  /-- A place that generated code jumps to. -/
  | branch (site : Site) (n : Nat)
  /-- A place inside a support routine. -/
  | inside (owner spot : String)
  deriving DecidableEq, Repr, Inhabited

/-- The text of a label. -/
def Label.text : Label → String
  | .entry name => name
  | .branch site n => site.text n
  | .inside owner spot => "%" ++ owner ++ "_" ++ spot

/-- The operations on two values. -/
inductive Binary
  | add | sub | mul | div | idiv | lt | gt | eq | stri2int | concat | getChar
  deriving DecidableEq, Repr, Inhabited

/-- The operation code. -/
def Binary.text : Binary → String
  | .add => "ADD" | .sub => "SUB" | .mul => "MUL" | .div => "DIV" | .idiv => "IDIV"
  | .lt => "LT" | .gt => "GT" | .eq => "EQ" | .stri2int => "STRI2INT" | .concat => "CONCAT"
  | .getChar => "GETCHAR"

/-- The operations on one value. -/
inductive Unary
  | not | int2float | float2int | int2char | strlen | typeOf
  deriving DecidableEq, Repr, Inhabited

/-- The operation code. -/
def Unary.text : Unary → String
  | .not => "NOT" | .int2float => "INT2FLOAT" | .float2int => "FLOAT2INT"
  | .int2char => "INT2CHAR" | .strlen => "STRLEN" | .typeOf => "TYPE"

/-- The kinds of value that can be read from the input. -/
inductive InputKind
  | int | float | string
  deriving DecidableEq, Repr, Inhabited

/-- The name of a kind of input. -/
def InputKind.text : InputKind → String
  | .int => "int"
  | .float => "float"
  | .string => "string"

/-- An instruction. -/
inductive Instr
  | move (dest : Var) (src : Operand)
  | createFrame
  | pushFrame
  | popFrame
  | defVar (v : Var)
  | call (target : Label)
  | ret
  | push (src : Operand)
  | pop (dest : Var)
  | binary (op : Binary) (dest : Var) (a b : Operand)
  | unary (op : Unary) (dest : Var) (a : Operand)
  | read (dest : Var) (kind : InputKind)
  | write (src : Operand)
  | label (l : Label)
  | jump (target : Label)
  | jumpIfEq (target : Label) (a b : Operand)
  | jumpIfNeq (target : Label) (a b : Operand)
  | exit (code : Operand)
  deriving DecidableEq, Repr, Inhabited

namespace Instr

/-- The operation code and the operands of an instruction. -/
def words : Instr → List String
  | .move dest src => ["MOVE", dest.text, src.text]
  | .createFrame => ["CREATEFRAME"]
  | .pushFrame => ["PUSHFRAME"]
  | .popFrame => ["POPFRAME"]
  | .defVar v => ["DEFVAR", v.text]
  | .call target => ["CALL", target.text]
  | .ret => ["RETURN"]
  | .push src => ["PUSHS", src.text]
  | .pop dest => ["POPS", dest.text]
  | .binary op dest a b => [op.text, dest.text, a.text, b.text]
  | .unary op dest a => [op.text, dest.text, a.text]
  | .read dest kind => ["READ", dest.text, kind.text]
  | .write src => ["WRITE", src.text]
  | .label l => ["LABEL", l.text]
  | .jump target => ["JUMP", target.text]
  | .jumpIfEq target a b => ["JUMPIFEQ", target.text, a.text, b.text]
  | .jumpIfNeq target a b => ["JUMPIFNEQ", target.text, a.text, b.text]
  | .exit code => ["EXIT", code.text]

/-- The line of an instruction. -/
def text (i : Instr) : String := " ".intercalate i.words

end Instr

/-- The text of a list of instructions, one a line. -/
def listingText (code : List Instr) : String := String.join (code.map fun i => i.text ++ "\n")

end Ifj22.Code
