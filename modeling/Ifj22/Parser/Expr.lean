import Ifj22.Literal
import Ifj22.Number.Reading
import Ifj22.Parser.Basic
set_option autoImplicit false

/-!
# Parser: expressions

Binary operators are read by precedence climbing: `binaryAt n` reads an expression whose operators
bind at least as tightly as `n`, and the right operand of an operator is read at the next level up,
so that operators of one level group to the left.  A unary operator binds tighter than all of them.

For every token that is passed the recursion goes at most two levels down, so its depth is bounded by
twice the number of tokens.  `expr` sets that bound.
-/

namespace Ifj22

namespace TokenKind

/-- The binary operator that a token stands for. -/
def binaryOp? : TokenKind → Option BinOp
  | .orOr => some .or
  | .andAnd => some .and
  | .equal => some .equal
  | .notEqual => some .notEqual
  | .identical => some .identical
  | .notIdentical => some .notIdentical
  | .lessThan => some .less
  | .lessEqual => some .lessEqual
  | .greaterThan => some .greater
  | .greaterEqual => some .greaterEqual
  | .plus => some .add
  | .minus => some .sub
  | .dot => some .concat
  | .star => some .mul
  | .slash => some .div
  | _ => none

/-- The unary operator that a token stands for. -/
def unaryOp? : TokenKind → Option UnaryOp
  | .minus => some .negate
  | .bang => some .not
  | _ => none

end TokenKind

namespace Parser

/-- The constant that a token stands for. -/
def literal? (t : Token) : Option (Except LexicalFault Node) :=
  match t.kind with
  | .intLiteral => some <|
    match Number.readWord? t.lexeme.toList with
    | some value => .ok (.int value)
    | none => .error (.intRange t.lexeme)
  | .floatLiteral => some <|
    match Number.readFloat? t.lexeme.toList with
    | some value => .ok (.float value)
    | none => .error (.floatForm t.lexeme)
  | .stringLiteral => some (.ok (.str (Literal.decode t.lexeme)))
  | .kwNull => some (.ok .null)
  | .varName => some (.ok (.var t.lexeme))
  | _ => none

/-- Reads a constant or a variable. -/
def leaf : Parse NodeId := do
  match (← get).current? with
  | none => failExpecting .expression
  | some t =>
    match literal? t with
    | some (.ok node) =>
      advance
      push node
    | some (.error fault) => throw (.lexical ⟨t.line, fault⟩)
    | none => failExpecting .expression

/-- Puts an argument list into the arena, last link first. -/
def pushArgs : List NodeId → Parse (Option NodeId)
  | [] => pure none
  | value :: rest => do
    let next ← pushArgs rest
    let link ← push (.argument value next)
    pure (some link)

/-- Reads what follows the opening parenthesis of a call, given how to read an expression and the
arguments behind the first. -/
def callWith (expr : Parse NodeId) (moreArgs : Parse (List NodeId)) (name : String) :
    Parse NodeId := do
  let _ ← expect .openParen
  if ← accept .closeParen then
    push (.call name none)
  else
    let first ← expr
    let rest ← moreArgs
    let _ ← expect .closeParen
    let args ← pushArgs (first :: rest)
    push (.call name args)

/-- Reads a parenthesised expression, a call, a constant or a variable. -/
def primaryWith (expr : Parse NodeId) (moreArgs : Parse (List NodeId)) : Parse NodeId := do
  match (← get).kind with
  | .openParen =>
    advance
    let inner ← expr
    let _ ← expect .closeParen
    pure inner
  | .identifier =>
    let name ← expect .identifier
    callWith expr moreArgs name
  | _ => leaf

mutual

/-- Reads an expression whose operators bind at least as tightly as `level`. -/
def binaryAt : Nat → Nat → Parse NodeId
  | 0, _ => throw (.internal .exhausted)
  | fuel + 1, level => do
    let left ← unary fuel
    climb fuel level left

/-- Extends `left` by the operators that bind at least as tightly as `level`. -/
def climb : Nat → Nat → NodeId → Parse NodeId
  | 0, _, _ => throw (.internal .exhausted)
  | fuel + 1, level, left => do
    match (← get).kind.binaryOp? with
    | none => pure left
    | some op =>
      if op.precedence < level then pure left
      else
        advance
        let right ← binaryAt fuel (op.precedence + 1)
        let node ← push (.binary op left right)
        climb fuel level node

/-- Reads an operand with the unary operators before it. -/
def unary : Nat → Parse NodeId
  | 0 => throw (.internal .exhausted)
  | fuel + 1 => do
    match (← get).kind.unaryOp? with
    | some op =>
      advance
      let operand ← unary fuel
      push (.unary op operand)
    | none => primaryWith (binaryAt fuel 1) (moreArgs fuel)

/-- Reads the arguments behind the first one, each after a comma. -/
def moreArgs : Nat → Parse (List NodeId)
  | 0 => throw (.internal .exhausted)
  | fuel + 1 => do
    if ← accept .comma then
      let value ← binaryAt fuel 1
      let rest ← moreArgs fuel
      pure (value :: rest)
    else pure []

end

/-- Reads an expression. -/
def expr : Parse NodeId := do
  binaryAt (2 * (← get).tokens.size + 8) 1

end Parser

end Ifj22
