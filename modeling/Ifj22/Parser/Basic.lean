import Ifj22.Arena.Basic
import Ifj22.Error
import Ifj22.Symbol
set_option autoImplicit false

/-!
# Parser: reading a token list

A parser holds a token list and a place in it, the arena that it fills, and the global symbol table
that the program starts from.  Reading past the last token finds the last token again; the token
`eof` is never passed.  A failed step leaves the parser where the failure was found.
-/

namespace Ifj22

/-- The state of reading a token list. -/
structure Parser where
  tokens : Array Token
  /-- The place of the current token. -/
  index : Nat
  /-- The nodes read so far. -/
  arena : Arena
  /-- The symbol table of the program to come. -/
  table : SymbolTable
  deriving DecidableEq, Repr, Inhabited

/-- A step of a parser: it yields a value or an error, and the parser behind it either way. -/
abbrev Parse := EStateM CompileError Parser

namespace Parser

/-- The parser at the start of a token list. -/
def ofTokens (tokens : List Token) : Parser where
  tokens := tokens.toArray
  index := 0
  arena := .empty
  table := .builtins

/-! ## The current token -/

/-- The current token; an empty list has none. -/
def current? (p : Parser) : Option Token := p.tokens[min p.index (p.tokens.size - 1)]?

/-- The kind of the current token; an empty list is at its end. -/
def kind (p : Parser) : TokenKind := (p.current?.map (·.kind)).getD .eof

/-- The line of the current token; an empty list has line zero. -/
def line (p : Parser) : Nat := (p.current?.map (·.line)).getD 0

/-- The kind of the token behind the current one; behind the last token is the end. -/
def kindAhead (p : Parser) : TokenKind := (p.tokens[p.index + 1]?.map (·.kind)).getD .eof

/-! ## Steps -/

/-- Passes the current token, unless it is `eof`. -/
def advance : Parse Unit :=
  modify fun p => if p.kind = .eof then p else { p with index := p.index + 1 }

/-- Fails at the current token. -/
def fail {α : Type} (fault : GrammarFault) : Parse α := do
  throw (.grammar ⟨(← get).line, fault⟩)

/-- Fails because the current token is not what the grammar admits. -/
def failExpecting {α : Type} (expected : Expected) : Parse α := do
  match (← get).current? with
  | some t => fail (.unexpected t.kind t.lexeme expected)
  | none => fail (.endOfInput expected)

/-- Passes the current token if it is of the given kind, and tells whether it was. -/
def accept (kind : TokenKind) : Parse Bool := do
  if (← get).kind = kind then
    advance
    pure true
  else pure false

/-- Passes the current token, which must be of the given kind, and yields its lexeme. -/
def expect (kind : TokenKind) : Parse String := do
  let p ← get
  if p.kind = kind then
    advance
    pure ((p.current?.map (·.lexeme)).getD "")
  else failExpecting (.token kind)

/-- Passes an identifier, which must be the given word. -/
def expectWord (word : String) : Parse Unit := do
  let lexeme ← expect .identifier
  if lexeme = word then pure () else fail (.wrongWord word lexeme)

/-- Puts a node into the arena. -/
def push (node : Node) : Parse NodeId :=
  modifyGet fun p =>
    let (id, arena) := p.arena.push node
    (id, { p with arena := arena })

/-- Hands out the symbol table; what stays behind is an empty table. -/
def takeTable : Parse SymbolTable :=
  modifyGet fun p => (p.table, { p with table := .empty })

/-- Hands out the arena with the given root; what stays behind is an empty arena. -/
def takeProgram (root : NodeId) : Parse Program :=
  modifyGet fun p => (⟨p.arena, root⟩, { p with arena := .empty })

end Parser

end Ifj22
