set_option autoImplicit false

/-!
# Token: kinds and texts

A token has a kind, a lexeme and the line it starts on.  The lexeme is the part of the source text
that the token stands for; only a string literal's lexeme leaves its two quotes out.
-/

namespace Ifj22

/-- The kinds of tokens.  Keywords start with `kw`. -/
inductive TokenKind
  | openTag | closeTag
  | identifier | varName | intLiteral | floatLiteral | stringLiteral
  | kwFunction | kwIf | kwElse | kwWhile | kwReturn | kwNull | kwInt | kwFloat | kwString | kwVoid
  | assign | equal | notEqual | identical | notIdentical | bang
  | plus | minus | star | slash | dot
  | plusAssign | minusAssign | starAssign | slashAssign | dotAssign | increment | decrement
  | andAnd | orOr
  | lessThan | lessEqual | greaterThan | greaterEqual
  | openParen | closeParen | openBrace | closeBrace | comma | semicolon | colon | question
  | eof
  deriving DecidableEq, Repr, Inhabited

namespace TokenKind

/-- The name of a kind in messages and token dumps. -/
def name : TokenKind → String
  | openTag => "OpenTag" | closeTag => "CloseTag"
  | identifier => "Identifier" | varName => "Variable" | intLiteral => "IntLiteral"
  | floatLiteral => "FloatLiteral" | stringLiteral => "StringLiteral"
  | kwFunction => "Function" | kwIf => "If" | kwElse => "Else" | kwWhile => "While"
  | kwReturn => "Return" | kwNull => "Null" | kwInt => "Int" | kwFloat => "Float"
  | kwString => "String" | kwVoid => "Void"
  | assign => "Assign" | equal => "Equal" | notEqual => "NotEqual" | identical => "Identical"
  | notIdentical => "NotIdentical" | bang => "Not"
  | plus => "Plus" | minus => "Minus" | star => "Star" | slash => "Slash" | dot => "Dot"
  | plusAssign => "PlusAssign" | minusAssign => "MinusAssign" | starAssign => "StarAssign"
  | slashAssign => "SlashAssign" | dotAssign => "DotAssign"
  | increment => "Increment" | decrement => "Decrement"
  | andAnd => "And" | orOr => "Or"
  | lessThan => "LessThan" | lessEqual => "LessEqual"
  | greaterThan => "GreaterThan" | greaterEqual => "GreaterEqual"
  | openParen => "OpenParen" | closeParen => "CloseParen"
  | openBrace => "OpenCurlyBrace" | closeBrace => "CloseCurlyBrace"
  | comma => "Comma" | semicolon => "SemiColon" | colon => "Colon" | question => "Question"
  | eof => "Eof"

/-- Every kind once. -/
def all : List TokenKind :=
  [openTag, closeTag, identifier, varName, intLiteral, floatLiteral, stringLiteral,
   kwFunction, kwIf, kwElse, kwWhile, kwReturn, kwNull, kwInt, kwFloat, kwString, kwVoid,
   assign, equal, notEqual, identical, notIdentical, bang,
   plus, minus, star, slash, dot,
   plusAssign, minusAssign, starAssign, slashAssign, dotAssign, increment, decrement,
   andAnd, orOr, lessThan, lessEqual, greaterThan, greaterEqual,
   openParen, closeParen, openBrace, closeBrace, comma, semicolon, colon, question, eof]

theorem mem_all (k : TokenKind) : k ∈ all := by cases k <;> decide

/-- The kind with the given name. -/
def ofName? (s : String) : Option TokenKind := all.find? (·.name == s)

end TokenKind

/-- The words that are not identifiers. -/
def keywords : List (String × TokenKind) :=
  [("function", .kwFunction), ("if", .kwIf), ("else", .kwElse), ("while", .kwWhile),
   ("return", .kwReturn), ("null", .kwNull), ("int", .kwInt), ("float", .kwFloat),
   ("string", .kwString), ("void", .kwVoid)]

/-- The keyword spelled by a word. -/
def keyword? (word : String) : Option TokenKind := keywords.lookup word

/-- A token of a source text. -/
structure Token where
  kind : TokenKind
  lexeme : String
  line : Nat
  deriving DecidableEq, Repr, Inhabited

/-- The source text of a token of the given kind and lexeme. -/
def tokenText (kind : TokenKind) (lexeme : List Char) : List Char :=
  if kind = .stringLiteral then '"' :: (lexeme ++ ['"']) else lexeme

theorem tokenText_of_ne {kind : TokenKind} (h : kind ≠ .stringLiteral) (lexeme : List Char) :
    tokenText kind lexeme = lexeme := by
  simp [tokenText, h]

/-- The source text of a token. -/
def Token.text (t : Token) : String := String.ofList (tokenText t.kind t.lexeme.toList)

end Ifj22
