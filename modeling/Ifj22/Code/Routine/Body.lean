import Ifj22.Code.Routine.Builtin
import Ifj22.Code.Routine.Convert
import Ifj22.Error
set_option autoImplicit false

/-!
# Code: the instructions of every routine
-/

namespace Ifj22.Code.Routine

/-- Ends the program with the exit code of a type mismatch. -/
def typeErrorBody : List Instr :=
  [.label typeError.entry, .exit (.int (Int64.ofNat ErrorKind.mistyped.exitCode))]

/-- The instructions of a routine. -/
def body : Routine → List Instr
  | .readi => readi.readBody .int
  | .readf => readf.readBody .float
  | .reads => reads.readBody .string
  | .write => writeBody
  | .strlen => strlenBody
  | .ord => ordBody
  | .chr => chrBody
  | .substring => substringBody
  | .intval => intval.toIntBody
  | .floatval => floatval.toFloatBody
  | .strval => strval.toTextBody
  | .toInt => toInt.toIntBody
  | .toFloat => toFloat.toFloatBody
  | .toText => toText.toTextBody
  | .toBool => toBoolBody
  | .toNumber => toNumberBody
  | .typeError => typeErrorBody

end Ifj22.Code.Routine
