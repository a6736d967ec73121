import Ifj22.Code.Routine.Basic
set_option autoImplicit false

/-!
# Code: routines of conversion

Each body serves a built-in function and a conversion that generated code calls, so it is given for
the routine that it belongs to.
-/

namespace Ifj22.Code.Routine

/-- Takes the argument of a conversion and finds its type. -/
def takeValue : List Instr := [.pop (lf "value"), .unary .typeOf (lf "type") (lf "value")]

/-- The tests of a conversion to a number: null becomes zero, a value of the one type stays, and one of
the other type is converted. -/
def numberTests (r : Routine) (zero : Operand) (kind other : String) (conversion : List Instr) :
    List Instr :=
  [.move Var.result zero,
   .jumpIfEq (r.inside "end") (lf "type") (.str "nil"),
   .move Var.result (lf "value"),
   .jumpIfEq (r.inside "end") (lf "type") (.str kind),
   .jumpIfNeq typeError.entry (lf "type") (.str other)] ++ conversion

/-- A conversion to a number. -/
def numberBody (r : Routine) (zero : Operand) (kind other : String) (conversion : List Instr) :
    List Instr :=
  r.framed (declare ["value", "type"] ++ takeValue ++
    (r.numberTests zero kind other conversion ++ r.block "end" []))

/-- The int that a number or null is read as. -/
def toIntBody (r : Routine) : List Instr :=
  r.numberBody (.int 0) "int" "float" [.unary .float2int Var.result (lf "value")]

/-- The float that a number or null is read as. -/
def toFloatBody (r : Routine) : List Instr :=
  r.numberBody (.float 0.0) "float" "int" [.unary .int2float Var.result (lf "value")]

/-- The number that a number or null is read as. -/
def toNumberBody : List Instr := toNumber.numberBody (.int 0) "int" "float" []

/-- Finds how to read a value as a truth value by its type; null is done at once, and so is what is a
truth value already. -/
def truthByKind : List Instr :=
  [.move Var.result (.bool false),
   .jumpIfEq (toBool.inside "end") (lf "type") (.str "nil"),
   .jumpIfEq (toBool.inside "int") (lf "type") (.str "int"),
   .jumpIfEq (toBool.inside "float") (lf "type") (.str "float"),
   .jumpIfEq (toBool.inside "string") (lf "type") (.str "string"),
   .move Var.result (lf "value"),
   .jump (toBool.inside "end")]

/-- A value is true unless it is one of those of its type that are false. -/
def trueUnless (falsy : List Operand) : List Instr :=
  falsy.map (.jumpIfEq (toBool.inside "end") (lf "value")) ++ [.move Var.result (.bool true)]

/-- The truth of a value: null, zero, the empty string and the string of zero are false. -/
def toBoolBody : List Instr := toBool.framed <|
  declare ["value", "type"] ++ takeValue ++ (truthByKind ++
  toBool.block "int" (trueUnless [.int 0] ++ [.jump (toBool.inside "end")]) ++
  toBool.block "float" (trueUnless [.float 0.0] ++ [.jump (toBool.inside "end")]) ++
  toBool.block "string" (trueUnless [.str "", .str "0"]) ++ toBool.block "end" [])

/-! ## The text of a value -/

/-- Takes the last decimal digit off `number`: the digit becomes a character and `tmp` holds what is
left. -/
def lastDigit (number : String) : List Instr :=
  [.binary .idiv (lf "tmp") (lf number) (.int 10),
   .binary .mul (lf "digit") (lf "tmp") (.int 10),
   .binary .sub (lf "digit") (lf number) (lf "digit"),
   .binary .add (lf "digit") (lf "digit") (.int 48),
   .unary .int2char (lf "char") (lf "digit")]

/-- Finds how to render a value by its type; null and strings are done at once. -/
def textByKind (r : Routine) : List Instr :=
  [.move Var.result (.str ""),
   .move (lf "fracstr") (.str ""),
   .jumpIfEq (r.inside "end") (lf "type") (.str "nil"),
   .jumpIfEq (r.inside "int") (lf "type") (.str "int"),
   .jumpIfEq (r.inside "float") (lf "type") (.str "float"),
   .jumpIfNeq typeError.entry (lf "type") (.str "string"),
   .move Var.result (lf "value"),
   .jump (r.inside "end")]

/-- Splits an int into a sign and digits. -/
def textIntSign (r : Routine) : List Instr :=
  [.move (lf "digits") (lf "value"),
   .binary .lt (lf "neg") (lf "digits") (.int 0),
   .jumpIfEq (r.inside "int_abs") (lf "neg") (.bool false),
   .binary .sub (lf "digits") (.int 0) (lf "digits")]

/-- An int has no fraction. -/
def textNoFraction (r : Routine) : List Instr :=
  [.move (lf "frac") (.int 0), .jump (r.inside "render")]

/-- The digits of an int. -/
def textOfInt (r : Routine) : List Instr :=
  r.block "int" r.textIntSign ++ r.block "int_abs" r.textNoFraction

/-- Splits a float into a sign and a magnitude. -/
def textFloatSign (r : Routine) : List Instr :=
  [.binary .lt (lf "neg") (lf "value") (.float 0.0),
   .move (lf "tmp") (lf "value"),
   .jumpIfEq (r.inside "float_abs") (lf "neg") (.bool false),
   .binary .sub (lf "tmp") (.float 0.0) (lf "value")]

/-- Splits a magnitude, rounded to six places, into digits and a fraction; zero has no sign. -/
def textFloatSplit (r : Routine) : List Instr :=
  [.binary .mul (lf "tmp") (lf "tmp") (.float 1000000.0),
   .binary .add (lf "tmp") (lf "tmp") (.float 0.5),
   .unary .float2int (lf "tmp") (lf "tmp"),
   .binary .idiv (lf "digits") (lf "tmp") (.int 1000000),
   .binary .mul (lf "frac") (lf "digits") (.int 1000000),
   .binary .sub (lf "frac") (lf "tmp") (lf "frac"),
   .jumpIfNeq (r.inside "trim") (lf "tmp") (.int 0),
   .move (lf "neg") (.bool false)]

/-- The digits of a float and its fraction. -/
def textOfFloat (r : Routine) : List Instr :=
  r.block "float" r.textFloatSign ++ r.block "float_abs" r.textFloatSplit

/-- Drops the last place of the fraction if it is a zero; `count` is the number of places that stay. -/
def textTrimLoop (r : Routine) : List Instr :=
  [.jumpIfEq (r.inside "render") (lf "frac") (.int 0),
   .binary .idiv (lf "tmp") (lf "frac") (.int 10),
   .binary .mul (lf "digit") (lf "tmp") (.int 10),
   .jumpIfNeq (r.inside "render") (lf "digit") (lf "frac"),
   .move (lf "frac") (lf "tmp"),
   .binary .sub (lf "count") (lf "count") (.int 1),
   .jump (r.inside "trim_loop")]

/-- Drops the zeros at the end of the fraction. -/
def textTrim (r : Routine) : List Instr :=
  r.block "trim" [.move (lf "count") (.int 6)] ++ r.block "trim_loop" r.textTrimLoop

/-- Renders the last place of the fraction, if there is one left. -/
def textFractionLoop (r : Routine) : List Instr :=
  [Instr.jumpIfEq (r.inside "frac_done") (lf "count") (.int 0)] ++ lastDigit "frac" ++
  [Instr.binary .concat (lf "fracstr") (lf "char") (lf "fracstr"),
   .move (lf "frac") (lf "tmp"),
   .binary .sub (lf "count") (lf "count") (.int 1),
   .jump (r.inside "frac_loop")]

/-- Renders the point before the fraction. -/
def textPoint (r : Routine) : List Instr :=
  r.block "frac_done" [.binary .concat (lf "fracstr") (.str ".") (lf "fracstr")]

/-- Renders the fraction, if there is one, and the point before it. -/
def textFraction (r : Routine) : List Instr :=
  r.block "render" [.jumpIfEq (r.inside "whole") (lf "frac") (.int 0)] ++
  r.block "frac_loop" r.textFractionLoop ++ r.textPoint

/-- Renders the last digit before the point; when there is no digit left, the fraction is put behind
them and the sign before them. -/
def textWholeLoop (r : Routine) : List Instr :=
  lastDigit "digits" ++
  [Instr.binary .concat Var.result (lf "char") Var.result,
   .move (lf "digits") (lf "tmp"),
   .jumpIfNeq (r.inside "whole") (lf "digits") (.int 0),
   .binary .concat Var.result Var.result (lf "fracstr"),
   .jumpIfEq (r.inside "end") (lf "neg") (.bool false),
   .binary .concat Var.result (.str "-") Var.result]

/-- Renders the digits before the point, and puts the sign and the fraction to them. -/
def textWhole (r : Routine) : List Instr := r.block "whole" r.textWholeLoop ++ r.block "end" []

/-- The text of a value: ints in decimal, floats with at most six places, null as nothing. -/
def toTextBody (r : Routine) : List Instr := r.framed <|
  declare ["value", "type", "digits", "digit", "char", "neg", "frac", "fracstr", "count", "tmp"] ++
  takeValue ++ r.textByKind ++ r.textOfInt ++ r.textOfFloat ++ r.textTrim ++ r.textFraction ++
  r.textWhole

end Ifj22.Code.Routine
