import Ifj22.Parser.Expr
set_option autoImplicit false

/-!
# Parser: statements and programs

A statement list becomes a chain of links that grows to the left; the body of a branch or a loop is
always a statement list.  Functions stand at the top level only.

For every token that is passed the recursion goes at most three levels down, so its depth is bounded
by thrice the number of tokens.  `parse` sets that bound.
-/

namespace Ifj22

/-- The forms of assignment. -/
inductive AssignForm
  /-- The value is written out. -/
  | plain
  /-- The value is the variable combined with an expression. -/
  | compound (op : BinOp)
  /-- The value is the variable combined with one. -/
  | step (op : BinOp)
  deriving DecidableEq, Repr, Inhabited

/-- The form of assignment that a token stands for. -/
def TokenKind.assignForm? : TokenKind → Option AssignForm
  | .assign => some .plain
  | .plusAssign => some (.compound .add)
  | .minusAssign => some (.compound .sub)
  | .starAssign => some (.compound .mul)
  | .slashAssign => some (.compound .div)
  | .dotAssign => some (.compound .concat)
  | .increment => some (.step .add)
  | .decrement => some (.step .sub)
  | _ => none

namespace Parser

/-! ## Assignments -/

/-- Reads the value of an assignment to `target` of the given form. -/
def assignedValue (target : String) : AssignForm → Parse NodeId
  | .plain => expr
  | .compound op => do
    let left ← push (.var target)
    let right ← expr
    push (.binary op left right)
  | .step op => do
    let left ← push (.var target)
    let right ← push (.int 1)
    push (.binary op left right)

/-- Reads an assignment of the given form. -/
def assignment (form : AssignForm) : Parse NodeId := do
  let target ← expect .varName
  advance
  let value ← assignedValue target form
  let _ ← expect .semicolon
  push (.assign target value)

/-! ## Signatures of functions -/

/-- The type that a token names. -/
def namedTy? : TokenKind → Option Ty
  | .kwInt => some .int
  | .kwFloat => some .float
  | .kwString => some .string
  | _ => none

/-- Reads a type if there is one.  Behind a question mark there must be one, and null is added to
it. -/
def optionalTy : Parse (Option Ty) := do
  let isNullable ← accept .question
  match namedTy? (← get).kind with
  | some ty =>
    advance
    pure (some (if isNullable then ty.nullable else ty))
  | none => if isNullable then failExpecting .nullableType else pure none

/-- Reads the return type of a function, which may be void. -/
def returnTy : Parse Ty := do
  if ← accept .kwVoid then pure .void
  else
    match ← optionalTy with
    | some ty => pure ty
    | none => failExpecting .returnType

/-- Reads a parameter; one without a type admits any value. -/
def param : Parse Param := do
  let ty ← optionalTy
  let name ← expect .varName
  pure ⟨name, ty.getD .any⟩

/-- Reads the parameters behind the first one, each after a comma. -/
def moreParams : Nat → Parse (List Param)
  | 0 => throw (.internal .exhausted)
  | fuel + 1 => do
    if ← accept .comma then
      let first ← param
      let rest ← moreParams fuel
      pure (first :: rest)
    else pure []

/-- Reads the parameters of a function, from the opening parenthesis to the closing one. -/
def paramList : Parse (List Param) := do
  let _ ← expect .openParen
  if ← accept .closeParen then pure []
  else
    let first ← param
    let rest ← moreParams ((← get).tokens.size + 1)
    let _ ← expect .closeParen
    pure (first :: rest)

/-- Reads a function, given how to read its body. -/
def functionWith (block : Parse NodeId) : Parse NodeId := do
  let _ ← expect .kwFunction
  let name ← expect .identifier
  let params ← paramList
  let declared ← do
    if ← accept .colon then
      let ty ← returnTy
      pure (some ty)
    else pure none
  let inner ← block
  push (.function name params declared inner)

/-! ## Statements -/

/-- Reads an expression between parentheses. -/
def condition : Parse NodeId := do
  let _ ← expect .openParen
  let cond ← expr
  let _ ← expect .closeParen
  pure cond

/-- Reads a conditional, given how to read a branch. -/
def ifElseWith (body : Parse NodeId) : Parse NodeId := do
  let _ ← expect .kwIf
  let cond ← condition
  let thenBody ← body
  if ← accept .kwElse then
    let elseBody ← body
    push (.ifElse cond thenBody (some elseBody))
  else push (.ifElse cond thenBody none)

/-- Reads a loop, given how to read its body. -/
def whileLoopWith (body : Parse NodeId) : Parse NodeId := do
  let _ ← expect .kwWhile
  let cond ← condition
  let inner ← body
  push (.whileLoop cond inner)

/-- Reads a return. -/
def returnStmt : Parse NodeId := do
  let _ ← expect .kwReturn
  if ← accept .semicolon then push (.ret none)
  else
    let value ← expr
    let _ ← expect .semicolon
    push (.ret (some value))

/-- Reads an expression that stands as a statement. -/
def exprStmt : Parse NodeId := do
  let value ← expr
  let _ ← expect .semicolon
  pure value

/-- Reads an assignment or an expression that starts with a variable. -/
def varStmt : Parse NodeId := do
  match (← get).kindAhead.assignForm? with
  | some form => assignment form
  | none => exprStmt

/-- A token that ends a statement list: the program ends at a closing tag, a block at a brace. -/
def endsList (toplevel : Bool) : TokenKind → Bool
  | .eof => true
  | .closeTag => toplevel
  | .closeBrace => !toplevel
  | _ => false

/-- A token that no statement starts with and that ends some statement list. -/
def endsBody : TokenKind → Bool
  | .eof | .closeTag | .closeBrace => true
  | _ => false

mutual

/-- Reads the statements of a list onto those before. -/
def statements : Nat → Bool → Option NodeId → Parse NodeId
  | 0, _, _ => throw (.internal .exhausted)
  | fuel + 1, toplevel, before => do
    if endsList toplevel (← get).kind then
      match before with
      | some link => pure link
      | none => push .empty
    else
      let stmt ← statement fuel toplevel
      let link ← push (.sequence before (some stmt))
      statements fuel toplevel (some link)

/-- Reads one statement. -/
def statement : Nat → Bool → Parse NodeId
  | 0, _ => throw (.internal .exhausted)
  | fuel + 1, toplevel => do
    match (← get).kind with
    | .openBrace => block fuel
    | .kwIf => ifElseWith (body fuel)
    | .kwWhile => whileLoopWith (body fuel)
    | .kwFunction => if toplevel then functionWith (block fuel) else fail .nestedFunction
    | .kwReturn => returnStmt
    | .semicolon =>
      advance
      push .empty
    | .varName => varStmt
    | _ => exprStmt

/-- Reads a statement list in braces. -/
def block : Nat → Parse NodeId
  | 0 => throw (.internal .exhausted)
  | fuel + 1 => do
    let _ ← expect .openBrace
    let inner ← statements fuel false none
    let _ ← expect .closeBrace
    pure inner

/-- Reads the body of a branch or a loop: a block, or one statement as a list of its own. -/
def body : Nat → Parse NodeId
  | 0 => throw (.internal .exhausted)
  | fuel + 1 => do
    let kind := (← get).kind
    if kind = .openBrace then block fuel
    else if endsBody kind then failExpecting .statement
    else
      let stmt ← statement fuel false
      push (.sequence none (some stmt))

end

/-! ## Programs -/

/-- Reads the declaration of strict types if the program starts with it. -/
def prologue : Parse Unit := do
  let p ← get
  if p.kind = .identifier ∧ p.current?.map (·.lexeme) = some "declare" then
    advance
    let _ ← expect .openParen
    expectWord "strict_types"
    let _ ← expect .assign
    let value ← expect .intLiteral
    if value = "1" then
      let _ ← expect .closeParen
      let _ ← expect .semicolon
    else fail .strictTypes

/-- Reads a program and hands it out. -/
def parse : Parse Program := do
  let _ ← expect .openTag
  prologue
  let root ← statements (3 * (← get).tokens.size + 8) true none
  let _ ← accept .closeTag
  let _ ← expect .eof
  takeProgram root

end Parser

/-- The program that a token list spells. -/
def parseTokens (tokens : List Token) : Except CompileError Program :=
  match Parser.parse.run (Parser.ofTokens tokens) with
  | .ok program _ => .ok program
  | .error e _ => .error e

/-- The program that a source text spells. -/
def parseSource (source : String) : Except CompileError Program :=
  match tokenize source with
  | .ok tokens => parseTokens tokens
  | .error e => .error (.lexical e)

end Ifj22
