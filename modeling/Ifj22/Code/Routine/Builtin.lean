import Ifj22.Code.Routine.Basic
set_option autoImplicit false

/-!
# Code: routines of input, output and text
-/

namespace Ifj22.Code.Routine

/-- Reads a value of a kind from the input. -/
def readBody (r : Routine) (kind : InputKind) : List Instr := r.framed [.read Var.result kind]

/-- Takes the number of the arguments and, if there are any, the last one of them; `write` is called
for those before, and the last one is printed then. -/
def writeLast : List Instr :=
  [.pop (lf "count"),
   .jumpIfEq (write.inside "end") (lf "count") (.int 0),
   .pop (lf "value"),
   .binary .sub (lf "count") (lf "count") (.int 1),
   .push (lf "count"),
   .createFrame,
   .call write.entry,
   .write (lf "value")]

/-- Prints its arguments in source order.  On top of the stack is their number, and below it the
last of them. -/
def writeBody : List Instr := write.framed <|
  [Instr.move Var.result .nil] ++ declare ["count", "value"] ++ writeLast ++ write.block "end" []

/-- The length of a string. -/
def strlenBody : List Instr := strlen.framed <|
  declare ["s", "type"] ++ [Instr.pop (lf "s")] ++ require "s" "string" ++
  [Instr.unary .strlen Var.result (lf "s")]

/-- The code of the first character of a string; the empty string gives zero. -/
def ordBody : List Instr := ord.framed <|
  [Instr.move Var.result (.int 0)] ++ declare ["s", "type"] ++ [Instr.pop (lf "s")] ++
  require "s" "string" ++
  [Instr.jumpIfEq (ord.inside "end") (lf "s") (.str ""),
   .binary .stri2int Var.result (lf "s") (.int 0),
   .label (ord.inside "end")]

/-- The character with a code from 0 to 255; any other code gives null. -/
def chrBody : List Instr := chr.framed <|
  [Instr.move Var.result .nil] ++ declare ["i", "type", "bad"] ++ [Instr.pop (lf "i")] ++
  require "i" "int" ++
  [Instr.binary .lt (lf "bad") (lf "i") (.int 0),
   .jumpIfEq (chr.inside "end") (lf "bad") (.bool true),
   .binary .gt (lf "bad") (lf "i") (.int 255),
   .jumpIfEq (chr.inside "end") (lf "bad") (.bool true),
   .unary .int2char Var.result (lf "i"),
   .label (chr.inside "end")]

/-- Leaves `substring` with null unless the positions are in order inside the string; the result is
empty then, and the first position is counted from zero. -/
def substringChecks : List Instr :=
  [.binary .lt (lf "bad") (lf "i") (.int 1),
   .jumpIfEq (substring.inside "end") (lf "bad") (.bool true),
   .binary .gt (lf "bad") (lf "i") (lf "j"),
   .jumpIfEq (substring.inside "end") (lf "bad") (.bool true),
   .binary .gt (lf "bad") (lf "j") (lf "len"),
   .jumpIfEq (substring.inside "end") (lf "bad") (.bool true),
   .move Var.result (.str ""),
   .binary .sub (lf "i") (lf "i") (.int 1)]

/-- Copies the character at the first position, unless it is behind the last one. -/
def substringLoop : List Instr :=
  [.jumpIfEq (substring.inside "end") (lf "i") (lf "j"),
   .binary .getChar (lf "char") (lf "s") (lf "i"),
   .binary .concat Var.result Var.result (lf "char"),
   .binary .add (lf "i") (lf "i") (.int 1),
   .jump (substring.inside "loop")]

/-- The part of a string between two positions, both counted from one and included; null if they are
not in order inside the string. -/
def substringBody : List Instr := substring.framed <|
  [Instr.move Var.result .nil] ++ declare ["s", "i", "j", "len", "bad", "char", "type"] ++
  [Instr.pop (lf "j"), .pop (lf "i"), .pop (lf "s")] ++
  require "s" "string" ++ require "i" "int" ++ require "j" "int" ++
  [Instr.unary .strlen (lf "len") (lf "s")] ++ substringChecks ++
  substring.block "loop" substringLoop ++ substring.block "end" []

end Ifj22.Code.Routine
