import Ifj22.CommandLine.Session
import Ifj22.Main
import Ifj22.Proofs.Code.Text
import Ifj22.Proofs.Literal
import Ifj22.Proofs.Machine.Balance
import Ifj22.Proofs.Machine.Compare
import Ifj22.Proofs.Machine.Program
import Ifj22.Proofs.Machine.Substring
import Ifj22.Proofs.Number.Hex
import Ifj22.Proofs.Parser.PrintedProgram
import Ifj22.Proofs.Parser.Progress
import Ifj22.Proofs.Simplify.Exact
import Ifj22.Proofs.Simplify.Meaning
import Ifj22.Proofs.Simplify.Normal
import Ifj22.Proofs.Simplify.Spread
import Ifj22.Proofs.Token.Fault
import Ifj22.Proofs.Token.Lines
import Ifj22.Proofs.Tree.Copy
import Ifj22.Proofs.Typing.Fixpoint
import Ifj22.Proofs.Typing.Index
import Ifj22.Proofs.Typing.Values
