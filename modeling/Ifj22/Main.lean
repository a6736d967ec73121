import Ifj22.CommandLine.Run
set_option autoImplicit false

/-!
# Main: the program

The command line on the machine itself.
-/

namespace Ifj22.Main

/-- Why an access to a file failed. -/
def reason : IO.Error → String
  | .noFileOrDirectory _ _ _ => "No such file or directory (os error 2)"
  | .permissionDenied _ _ _ => "Permission denied (os error 13)"
  | .inappropriateType _ _ _ => "Is a directory (os error 21)"
  | e => toString e

/-- Runs an access to a file and catches its failure. -/
def attempt {α : Type} (access : IO α) : IO (Except String α) := do
  match ← access.toBaseIO with
  | .ok a => pure (.ok a)
  | .error e => pure (.error (reason e))

/-- The host that is the machine itself. -/
def machine : CommandLine.Host IO where
  readStdin := attempt do (← IO.getStdin).readBinToEnd
  readFile path := attempt (IO.FS.readBinFile path)
  writeFile path text := attempt (IO.FS.writeFile path text)
  print := IO.print
  printError := IO.eprint

end Ifj22.Main

/-- Runs the compiler. -/
def main (args : List String) : IO UInt32 := do
  let code ← Ifj22.CommandLine.run Ifj22.Main.machine args
  pure (UInt32.ofNat code)
