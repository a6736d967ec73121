import Ifj22.Arena.Dump
import Ifj22.CommandLine.Args
import Ifj22.Compile
set_option autoImplicit false

/-!
# CommandLine: running a request

A run reads the source text, compiles it and delivers the code.  It does so through a host, which
gives access to files and to the standard streams; the host may be the machine itself or a session
in memory.  Blanks at the end of the source text do not count.

Every run ends with an exit code: zero, the code of the error, or two for arguments that make no
sense.
-/

namespace Ifj22.CommandLine

/-- Access to files and standard streams.  What fails gives its reason. -/
structure Host (m : Type → Type) where
  readStdin : m (Except String ByteArray)
  readFile : String → m (Except String ByteArray)
  writeFile : String → String → m (Except String Unit)
  print : String → m Unit
  printError : String → m Unit

/-- The source text in the bytes of a file. -/
def sourceText (bytes : ByteArray) : Except String String :=
  match String.fromUTF8? bytes with
  | some text => .ok (Text.trimEnd text)
  | none => .error "stream did not contain valid UTF-8"

/-- A number in a field of four characters. -/
def lineField (n : Nat) : String :=
  let digits := toString n
  String.ofList (List.replicate (4 - digits.length) ' ') ++ digits

/-- The line of a token in a token dump. -/
def tokenLine (t : Token) : String :=
  lineField t.line ++ " " ++ t.kind.name ++ " " ++ Text.quoted t.lexeme ++ "\n"

/-- The dump of a token list. -/
def tokenDump (tokens : List Token) : String := String.join (tokens.map tokenLine)

/-- The answer to a request for the version. -/
def versionText : String := "phpcc 0.1.0\n"

/-- The answer to a request for help. -/
def helpText : String :=
  "Compiles a PHP subset to IFJcode22\n\n" ++
  "Usage: phpcc [OPTIONS] [INPUT]\n\n" ++
  "Arguments:\n" ++
  "  [INPUT]  Source file, `-` for stdin [default: -]\n\n" ++
  "Options:\n" ++
  "  -o, --output <OUTPUT>  Write the instructions here instead of stdout\n" ++
  "      --no-optimize      Skip folding, propagation and dead-branch removal\n" ++
  "      --dump-tokens      \n" ++
  "      --dump-ast         \n" ++
  "  -h, --help             Print help\n" ++
  "  -V, --version          Print version\n"

/-- The exit code for arguments that make no sense. -/
def usageExitCode : Nat := 2

section

variable {m : Type → Type} [Monad m] (host : Host m)

/-- Reports an error and yields its exit code. -/
def fail (e : CompileError) : m Nat := do
  host.printError ("error: " ++ e.diagnostic.text ++ "\n")
  pure e.kind.exitCode

/-- Writes the code to where it is wanted. -/
def deliver (output : Option String) (code : String) : m Nat := do
  match output with
  | none =>
    host.print code
    pure 0
  | some path =>
    match ← host.writeFile path code with
    | .ok () => pure 0
    | .error reason => fail host (.internal (.unwritable path reason))

/-- Compiles a source text and delivers the code. -/
def compileText (o : Options) (source : String) : m Nat := do
  match tokenize source with
  | .error e => fail host (.lexical e)
  | .ok tokens =>
    if o.dumpTokens then host.printError (tokenDump tokens)
    match analyzeTokens o.simplify tokens with
    | .error e => fail host e
    | .ok checked =>
      if o.dumpTree then host.printError (checked.program.arena.dump checked.program.root)
      match checked.generate with
      | .error e => fail host e
      | .ok listing => deliver host o.output listing.text

/-- Reads the source text that is asked for. -/
def readSource (input : Input) : m (Except String String) := do
  let bytes ← match input with
    | .stdin => host.readStdin
    | .file path => host.readFile path
  pure (bytes.bind sourceText)

/-- Does what is asked for and yields the exit code. -/
def perform : Request → m Nat
  | .version => do
    host.print versionText
    pure 0
  | .help => do
    host.print helpText
    pure 0
  | .compile o => do
    match ← readSource host o.input with
    | .error reason => fail host (.internal (.unreadable reason))
    | .ok source => compileText host o source

/-- Runs the program with the given arguments and yields the exit code. -/
def run (args : List String) : m Nat := do
  match request args with
  | .ok r => perform host r
  | .error e => do
    host.printError ("error: " ++ e.message ++ "\n")
    pure usageExitCode

end

end Ifj22.CommandLine
