import Ifj22.Number.Hex
import Ifj22.Number.Word
set_option autoImplicit false

/-!
# Code: operands of instructions

An operand of an IFJcode22 instruction is a variable of a frame or a constant with its type.  Blanks
and control characters, the comment sign and the backslash are written as a backslash and three
decimal digits, so that a line can be cut at its blanks.
-/

namespace Ifj22.Code

/-- The frames of the target machine: global, local and temporary. -/
inductive Frame
  | gf | lf | tf
  deriving DecidableEq, Repr, Inhabited

/-- The text of a frame. -/
def Frame.text : Frame → String
  | gf => "GF"
  | lf => "LF"
  | tf => "TF"

/-- A variable of a frame. -/
structure Var where
  frame : Frame
  name : String
  deriving DecidableEq, Repr, Inhabited

namespace Var

/-- The text of a variable. -/
def text (v : Var) : String := v.frame.text ++ "@" ++ v.name

/-- The variable that a function leaves its result in, seen from inside. -/
def result : Var := ⟨.lf, "%retval"⟩

/-- The variable that a function left its result in, seen by the caller. -/
def returned : Var := ⟨.tf, "%retval"⟩

end Var

/-- The three decimal digits of a number below a thousand. -/
def threeDigits (n : Nat) : List Char :=
  [Nat.digitChar (n / 100 % 10), Nat.digitChar (n / 10 % 10), Nat.digitChar (n % 10)]

/-- The character is written as an escape. -/
def isEscaped (c : Char) : Bool := c.toNat ≤ 32 || c == '#' || c == '\\'

/-- The text of a character in a string constant. -/
def escapeChar (c : Char) : List Char := if isEscaped c then '\\' :: threeDigits c.toNat else [c]

/-- The text of a string constant. -/
def escape (s : String) : String := String.ofList (s.toList.flatMap escapeChar)

/-- An operand of an instruction. -/
inductive Operand
  | var (v : Var)
  | int (value : Int64)
  | float (value : Float)
  | str (value : String)
  | bool (value : Bool)
  | nil
  deriving DecidableEq, Repr, Inhabited

namespace Operand

instance : Coe Var Operand := ⟨.var⟩

/-- The operand is a constant. -/
def isImmediate : Operand → Bool
  | .var _ => false
  | _ => true

/-- The text of an operand. -/
def text : Operand → String
  | .var v => v.text
  | .int value => "int@" ++ Number.decimal value
  | .float value => "float@" ++ Number.hexText value
  | .str value => "string@" ++ escape value
  | .bool value => if value then "bool@true" else "bool@false"
  | .nil => "nil@nil"

end Operand

end Ifj22.Code
