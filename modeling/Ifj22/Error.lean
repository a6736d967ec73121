import Ifj22.Node
import Ifj22.Token.Lexer
set_option autoImplicit false

/-!
# Error: why a program is refused

Every stage has its own reasons to refuse a program; each reason is a constructor here, with what is
needed to explain it.  `CompileError.diagnostic` gives the kind, the line and the message of an
error, `Diagnostic.text` the line that the user reads.  The kind decides the exit code.
-/

namespace Ifj22

/-! ## Reasons -/

/-- What the grammar admits at a place where something else stands. -/
inductive Expected
  | token (kind : TokenKind)
  | statement
  | expression
  | returnType
  | nullableType
  deriving DecidableEq, Repr, Inhabited

/-- What was expected, in words. -/
def Expected.text : Expected → String
  | .token kind => kind.name
  | .statement => "a statement"
  | .expression => "an expression"
  | .returnType => "a return type"
  | .nullableType => "a type after `?`"

/-- Why a token list is no program. -/
inductive GrammarFault
  | unexpected (kind : TokenKind) (lexeme : String) (expected : Expected)
  | endOfInput (expected : Expected)
  | wrongWord (expected got : String)
  | strictTypes
  | nestedFunction
  deriving DecidableEq, Repr, Inhabited

/-- A name that is declared twice, or used without a declaration. -/
inductive NameFault
  | functionTaken (name : String)
  | paramTaken (param function : String)
  | unassigned (name : String)
  | unknownFunction (name : String)
  deriving DecidableEq, Repr, Inhabited

/-- A call that does not fit the signature of its callee. -/
inductive ArgumentFault
  | count (callee : String) (arity : Int) (got : Nat)
  | kind (position : Nat) (callee : String) (got expected : Ty)
  deriving DecidableEq, Repr, Inhabited

/-- A return that does not fit the declaration of its function. -/
inductive ReturnFault
  | missing (function : String) (declared : Ty)
  | unwanted (function : String)
  | mismatch (function : String) (got declared : Ty)
  deriving DecidableEq, Repr, Inhabited

/-- Operands that an operator does not take. -/
inductive TypeFault
  | negatedString
  | operands (op : BinOp) (left right : Ty)
  deriving DecidableEq, Repr, Inhabited

/-- Other misuse. -/
inductive SemanticFault
  | voidValue
  deriving DecidableEq, Repr, Inhabited

/-- Failures that are not the program's fault. -/
inductive InternalFault
  | noLocalScope (function : String)
  | noSymbol (name : String)
  /-- Analysis met a statement where an expression belongs. -/
  | misplaced (node : Node)
  /-- Code generation met a statement where an expression belongs. -/
  | ungenerable (node : Node)
  | unreadable (reason : String)
  | unwritable (path reason : String)
  /-- A recursion ran past the bound that its input sets. -/
  | exhausted
  deriving DecidableEq, Repr, Inhabited

/-- Why a program is refused. -/
inductive CompileError
  | lexical (fault : Located LexicalFault)
  | grammar (fault : Located GrammarFault)
  | undefined (fault : NameFault)
  | argument (fault : ArgumentFault)
  | returned (fault : ReturnFault)
  | mistyped (fault : TypeFault)
  | semantic (fault : SemanticFault)
  | internal (fault : InternalFault)
  deriving DecidableEq, Repr, Inhabited

/-! ## Kinds and exit codes -/

/-- The kinds of errors. -/
inductive ErrorKind
  | lexical | grammar | undefined | argument | returned | mistyped | semantic | internal
  deriving DecidableEq, Repr, Inhabited

namespace ErrorKind

/-- The exit code of the compiler after an error of the kind. -/
def exitCode : ErrorKind → Nat
  | lexical => 1
  | grammar => 2
  | undefined => 3
  | argument => 4
  | returned => 6
  | mistyped => 7
  | semantic => 8
  | internal => 99

/-- The opening words of an error of the kind. -/
def title : ErrorKind → String
  | lexical => "lexical error"
  | grammar => "syntax error"
  | undefined => "undefined symbol"
  | argument => "bad call argument"
  | returned => "bad return"
  | mistyped => "type mismatch"
  | semantic => "semantic error"
  | internal => "internal compiler error"

/-- Errors of the kind name the line they were found on. -/
def isLocated : ErrorKind → Bool
  | lexical | grammar => true
  | _ => false

end ErrorKind

/-- What the user is told of an error. -/
structure Diagnostic where
  kind : ErrorKind
  line : Nat
  message : String
  deriving DecidableEq, Repr, Inhabited

/-- The text of a diagnostic. -/
def Diagnostic.text (d : Diagnostic) : String :=
  let place := if d.kind.isLocated then " on line " ++ toString d.line else ""
  d.kind.title ++ place ++ ": " ++ d.message

/-! ## Messages -/

/-- The message of a lexical fault. -/
def LexicalFault.message : LexicalFault → String
  | .danglingDollar => "`$` must be followed by a letter or underscore"
  | .unpaired c => "expected `" ++ String.ofList [c, c] ++ "`"
  | .malformedTag => "malformed opening tag"
  | .unseparatedTag => "opening tag must be followed by whitespace"
  | .openString => "unterminated string literal"
  | .openComment => "unterminated block comment"
  | .strayChar c => "unexpected character " ++ Text.quotedSingle c
  | .trailingText => "unexpected text after closing tag"
  | .intRange lexeme => "integer literal " ++ lexeme ++ " is out of range"
  | .floatForm lexeme => "malformed float literal " ++ lexeme

/-- The message of a grammar fault. -/
def GrammarFault.message : GrammarFault → String
  | .unexpected kind lexeme expected =>
    "unexpected " ++ kind.name ++ " `" ++ lexeme ++ "` (was expecting " ++ expected.text ++ ")"
  | .endOfInput expected => "expected " ++ expected.text ++ ", got end of input"
  | .wrongWord expected got => "expected `" ++ expected ++ "`, got `" ++ got ++ "`"
  | .strictTypes => "strict_types must be 1"
  | .nestedFunction => "functions can only be declared at the top level"

/-- The message of a name fault. -/
def NameFault.message : NameFault → String
  | .functionTaken name => "function " ++ name ++ " is already declared"
  | .paramTaken param function =>
    "parameter " ++ param ++ " of " ++ function ++ " is declared twice"
  | .unassigned name => "variable " ++ name ++ " is used before it is assigned"
  | .unknownFunction name => "call to undefined function " ++ name

/-- The message of an argument fault. -/
def ArgumentFault.message : ArgumentFault → String
  | .count callee arity got =>
    callee ++ " expects " ++ toString arity ++ " argument(s), got " ++ toString got
  | .kind position callee got expected =>
    "argument " ++ toString position ++ " of " ++ callee ++ " is " ++ got.text ++ ", expected "
      ++ expected.text

/-- The message of a return fault. -/
def ReturnFault.message : ReturnFault → String
  | .missing function declared =>
    "function " ++ function ++ " must return a value of type " ++ declared.text
  | .unwanted function => "void function " ++ function ++ " must not return a value"
  | .mismatch function got declared =>
    "function " ++ function ++ " returns " ++ got.text ++ " but is declared " ++ declared.text

/-- The message of a type fault. -/
def TypeFault.message : TypeFault → String
  | .negatedString => "cannot negate a string"
  | .operands op left right =>
    "operator " ++ op.symbol ++ " needs numeric operands, got " ++ left.text ++ " and "
      ++ right.text

/-- The message of a semantic fault. -/
def SemanticFault.message : SemanticFault → String
  | .voidValue => "a void function result is used as a value"

/-- The message of an internal fault. -/
def InternalFault.message : InternalFault → String
  | .noLocalScope function => "no local scope for " ++ function
  | .noSymbol name => "no symbol for variable " ++ name
  | .misplaced node => "unexpected statement in expression position: " ++ node.fullForm
  | .ungenerable node => "statement " ++ node.fullForm ++ " in expression position"
  | .unreadable reason => "cannot read input: " ++ reason
  | .unwritable path reason => "cannot write " ++ path ++ ": " ++ reason
  | .exhausted => "recursion bound exceeded"

namespace CompileError

/-- What the user is told of an error. -/
def diagnostic : CompileError → Diagnostic
  | .lexical e => ⟨.lexical, e.line, e.fault.message⟩
  | .grammar e => ⟨.grammar, e.line, e.fault.message⟩
  | .undefined fault => ⟨.undefined, 0, fault.message⟩
  | .argument fault => ⟨.argument, 0, fault.message⟩
  | .returned fault => ⟨.returned, 0, fault.message⟩
  | .mistyped fault => ⟨.mistyped, 0, fault.message⟩
  | .semantic fault => ⟨.semantic, 0, fault.message⟩
  | .internal fault => ⟨.internal, 0, fault.message⟩

/-- The kind of an error. -/
def kind (e : CompileError) : ErrorKind := e.diagnostic.kind

end CompileError

end Ifj22
