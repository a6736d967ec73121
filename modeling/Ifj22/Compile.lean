import Ifj22.Code.Program
import Ifj22.Parser.Stmt
import Ifj22.Simplify.Program
import Ifj22.Typing.Program
set_option autoImplicit false

/-!
# Compile: from source text to code

The stages of the compiler in order: tokens, a program, a checked program, perhaps a simplified one,
and code.  The first stage that refuses the program decides the error.
-/

namespace Ifj22

/-- The checked program of a token list, simplified if asked for. -/
def analyzeTokens (simplify : Bool) (tokens : List Token) : Except CompileError Checked := do
  let program ← parseTokens tokens
  let checked ← program.check
  pure (if simplify then { checked with program := checked.program.simplify } else checked)

/-- The checked program of a source text, simplified if asked for. -/
def analyze (simplify : Bool) (source : String) : Except CompileError Checked := do
  let tokens ← (tokenize source).mapError .lexical
  analyzeTokens simplify tokens

/-- The code of a checked program. -/
def Checked.generate (c : Checked) : Except CompileError Code.Listing :=
  match (Code.Generator.program c.program).run (.start c.table) with
  | .ok listing _ => .ok listing
  | .error e _ => .error e

/-- The code of a source text. -/
def compile (simplify : Bool) (source : String) : Except CompileError Code.Listing := do
  let checked ← analyze simplify source
  checked.generate

end Ifj22
