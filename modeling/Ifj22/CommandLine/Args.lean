set_option autoImplicit false

/-!
# CommandLine: arguments

Arguments are read from left to right.  An argument that starts with a dash and has something behind
it is an option; a lone dash is not.  Behind `--` there are no options any more.  Every option is
given at most once, and there is at most one input.  Asking for help or for the version ends the
reading at once.
-/

namespace Ifj22.CommandLine

/-- Where the source text comes from. -/
inductive Input
  | stdin
  | file (path : String)
  deriving DecidableEq, Repr, Inhabited

/-- What to compile and how. -/
structure Options where
  input : Input
  /-- The file to write to; without one the code goes to the standard output. -/
  output : Option String
  simplify : Bool
  dumpTokens : Bool
  dumpTree : Bool
  deriving DecidableEq, Repr, Inhabited

/-- What the arguments ask for. -/
inductive Request
  | compile (options : Options)
  | help
  | version
  deriving DecidableEq, Repr, Inhabited

/-- Why arguments are refused. -/
inductive UsageError
  | unknownOption (arg : String)
  | missingValue (arg : String)
  | unneededValue (arg : String)
  | repeatedOption (arg : String)
  | extraInput (arg : String)
  deriving DecidableEq, Repr, Inhabited

/-- The message of a usage error. -/
def UsageError.message : UsageError → String
  | .unknownOption arg => "unexpected argument '" ++ arg ++ "' found"
  | .missingValue arg => "a value is required for '" ++ arg ++ "' but none was supplied"
  | .unneededValue arg => "unexpected value in '" ++ arg ++ "' found; no more were expected"
  | .repeatedOption arg => "the argument '" ++ arg ++ "' cannot be used multiple times"
  | .extraInput arg => "unexpected argument '" ++ arg ++ "' found"

/-! ## One argument -/

/-- The options without a value. -/
inductive Flag
  | noOptimize | dumpTokens | dumpTree | help | version
  deriving DecidableEq, Repr, Inhabited

/-- The flag with the given long name. -/
def Flag.ofName? : String → Option Flag
  | "no-optimize" => some .noOptimize
  | "dump-tokens" => some .dumpTokens
  | "dump-ast" => some .dumpTree
  | "help" => some .help
  | "version" => some .version
  | _ => none

/-- What one argument says by itself. -/
inductive Word
  /-- There are no options behind it. -/
  | endOfOptions
  | flag (f : Flag)
  /-- The output option, with its value if that stands in the same argument. -/
  | output (value : Option String)
  | positional
  | bad (e : UsageError)
  deriving DecidableEq, Repr, Inhabited

/-- The argument is an option or the end of options. -/
def isOption (arg : String) : Bool :=
  match arg.toList with
  | '-' :: _ :: _ => true
  | _ => false

/-- The value behind a short option: an equals sign before it is dropped. -/
def shortValue? : List Char → Option String
  | [] => none
  | '=' :: value => some (String.ofList value)
  | value => some (String.ofList value)

/-- What a long option says: its name and, behind an equals sign, its value. -/
def longWord (arg : String) (body : List Char) : Word :=
  let name := String.ofList (body.takeWhile (· != '='))
  let value := match body.dropWhile (· != '=') with
    | _ :: value => some (String.ofList value)
    | [] => none
  if name = "output" then .output value
  else
    match Flag.ofName? name, value with
    | some f, none => .flag f
    | some _, some _ => .bad (.unneededValue arg)
    | none, _ => .bad (.unknownOption arg)

/-- What an argument says by itself. -/
def word (arg : String) : Word :=
  match arg.toList with
  | ['-', '-'] => .endOfOptions
  | '-' :: '-' :: body => longWord arg body
  | '-' :: 'o' :: value => .output (shortValue? value)
  | '-' :: 'V' :: _ => .flag .version
  | '-' :: 'h' :: _ => .flag .help
  | '-' :: _ :: _ => .bad (.unknownOption arg)
  | _ => .positional

/-! ## All arguments -/

/-- What has been read of the arguments. -/
structure Seen where
  input : Option String
  output : Option String
  noOptimize : Bool
  dumpTokens : Bool
  dumpTree : Bool
  deriving DecidableEq, Repr, Inhabited

namespace Seen

/-- Nothing has been read. -/
def nothing : Seen := ⟨none, none, false, false, false⟩

/-- Without an input, or with a lone dash for it, the standard input is read. -/
def options (s : Seen) : Options where
  input := match s.input with
    | none | some "-" => .stdin
    | some path => .file path
  output := s.output
  simplify := !s.noOptimize
  dumpTokens := s.dumpTokens
  dumpTree := s.dumpTree

/-- Takes the input. -/
def addInput (s : Seen) (arg : String) : Except UsageError Seen :=
  if s.input.isSome then .error (.extraInput arg) else .ok { s with input := some arg }

/-- Takes the value of the output option. -/
def addOutput (s : Seen) (arg value : String) : Except UsageError Seen :=
  if s.output.isSome then .error (.repeatedOption arg) else .ok { s with output := some value }

end Seen

/-- Reads arguments behind the end of options. -/
def readInputs (s : Seen) : List String → Except UsageError Seen
  | [] => .ok s
  | arg :: rest => do
    let s ← s.addInput arg
    readInputs s rest

/-- Reads arguments. -/
def readArgs (s : Seen) : List String → Except UsageError Request
  | [] => .ok (.compile s.options)
  | arg :: rest =>
    match word arg with
    | .endOfOptions => do
      let s ← readInputs s rest
      .ok (.compile s.options)
    | .positional => do
      let s ← s.addInput arg
      readArgs s rest
    | .output (some value) => do
      let s ← s.addOutput arg value
      readArgs s rest
    | .output none =>
      match rest with
      | [] => .error (.missingValue arg)
      | value :: rest =>
        if isOption value then .error (.missingValue arg)
        else do
          let s ← s.addOutput arg value
          readArgs s rest
    | .flag .help => .ok .help
    | .flag .version => .ok .version
    | .flag .noOptimize =>
      if s.noOptimize then .error (.repeatedOption arg)
      else readArgs { s with noOptimize := true } rest
    | .flag .dumpTokens =>
      if s.dumpTokens then .error (.repeatedOption arg)
      else readArgs { s with dumpTokens := true } rest
    | .flag .dumpTree =>
      if s.dumpTree then .error (.repeatedOption arg)
      else readArgs { s with dumpTree := true } rest
    | .bad e => .error e

/-- What the arguments of the program ask for. -/
def request (args : List String) : Except UsageError Request := readArgs .nothing args

end Ifj22.CommandLine
