import Ifj22.Text.Blank
import Ifj22.Token.Basic
set_option autoImplicit false

/-!
# Token: what stands at the front of a text

Between two tokens there may be a gap of blanks and comments; `gap?` measures it.  `scan`
recognises the token at the front of a text that starts with no gap, always the longest one.  A
text that starts no token is a fault, with the number of characters that were read to find it.
-/

namespace Ifj22

/-- Why a text cannot be cut into tokens, or a literal has no value. -/
inductive LexicalFault
  /-- A dollar sign without a name behind it. -/
  | danglingDollar
  /-- A single character of an operator that only exists doubled. -/
  | unpaired (c : Char)
  /-- An opening tag that is not spelled out. -/
  | malformedTag
  /-- An opening tag with no blank behind it. -/
  | unseparatedTag
  /-- A string literal that never ends. -/
  | openString
  /-- A block comment that never ends. -/
  | openComment
  /-- A character that starts no token. -/
  | strayChar (c : Char)
  /-- Text behind the closing tag. -/
  | trailingText
  /-- An integer literal outside the 64-bit range. -/
  | intRange (lexeme : String)
  /-- A float literal that is no number. -/
  | floatForm (lexeme : String)
  deriving DecidableEq, Repr, Inhabited

/-! ## Character classes -/

/-- The character can start a name. -/
def isNameStart (c : Char) : Bool := c.isAlpha || c == '_'

/-- The character can continue a name. -/
def isNameChar (c : Char) : Bool := c.isAlphanum || c == '_'

theorem isNameChar_of_isNameStart {c : Char} (h : isNameStart c = true) : isNameChar c = true := by
  simp only [isNameStart, Bool.or_eq_true] at h
  simp only [isNameChar, Char.isAlphanum, Bool.or_eq_true]
  rcases h with h | h
  · exact .inl (.inl h)
  · exact .inr h

/-! ## Gaps -/

/-- The length of a block comment's text behind its opening mark, closing mark included. -/
def blockLength? : List Char → Option Nat
  | '*' :: '/' :: _ => some 2
  | _ :: rest => (blockLength? rest).map (· + 1)
  | [] => none

/-- The length of a line comment's text behind its opening mark, up to the newline. -/
def lineLength (text : List Char) : Nat := (text.takeWhile (· != '\n')).length

/-- The comment at the front of a text: none, one that never ends, or one of the given length. -/
inductive Comment
  | absent
  | unending
  | length (n : Nat)
  deriving DecidableEq, Repr, Inhabited

/-- Looks for a comment at the front of a text. -/
def comment : List Char → Comment
  | '#' :: rest => .length (1 + lineLength rest)
  | '/' :: '/' :: rest => .length (2 + lineLength rest)
  | '/' :: '*' :: rest =>
    match blockLength? rest with
    | some n => .length (2 + n)
    | none => .unending
  | _ => .absent

/-- A comment takes at least one character. -/
theorem comment_pos {text : List Char} {n : Nat} (h : comment text = .length n) : 0 < n := by
  unfold comment at h
  split at h
  · simp only [Comment.length.injEq] at h; omega
  · simp only [Comment.length.injEq] at h; omega
  · split at h
    · simp only [Comment.length.injEq] at h; omega
    · simp at h
  · simp at h

/-- The number of characters before the first token, or `none` if a comment there never ends. -/
def gap? : List Char → Option Nat
  | [] => some 0
  | c :: rest =>
    if Text.isBlank c then (gap? rest).map (· + 1)
    else
      match _h : comment (c :: rest) with
      | .absent => some 0
      | .unending => none
      | .length n => (gap? ((c :: rest).drop n)).map (· + n)
termination_by text => text.length
decreasing_by
  · simp
  · have := comment_pos _h
    simp only [List.length_drop, List.length_cons]
    omega

/-! ## Tokens -/

/-- What is found at the front of a text. -/
inductive Scan
  /-- A token; the characters taken are those of its text. -/
  | token (kind : TokenKind) (lexeme : List Char)
  /-- No token; `length` characters were read to find that out. -/
  | fault (fault : LexicalFault) (length : Nat)
  deriving DecidableEq, Repr, Inhabited

/-- The tokens that are spelled in one way only, such that a longer one stands before its starts. -/
def operators : List (String × TokenKind) :=
  [("===", .identical), ("!==", .notIdentical),
   ("==", .equal), ("!=", .notEqual), ("<=", .lessEqual), (">=", .greaterEqual),
   ("+=", .plusAssign), ("-=", .minusAssign), ("*=", .starAssign), ("/=", .slashAssign),
   (".=", .dotAssign), ("++", .increment), ("--", .decrement), ("&&", .andAnd), ("||", .orOr),
   ("?>", .closeTag),
   ("=", .assign), ("!", .bang), ("<", .lessThan), (">", .greaterThan),
   ("+", .plus), ("-", .minus), ("*", .star), ("/", .slash), (".", .dot), ("?", .question),
   ("(", .openParen), (")", .closeParen), ("\x7b", .openBrace), ("\x7d", .closeBrace),
   (",", .comma), (";", .semicolon), (":", .colon)]

/-- The first listed operator that the text starts with. -/
def operator? (text : List Char) : Option (String × TokenKind) :=
  operators.find? fun entry => entry.1.toList.isPrefixOf text

/-- A keyword or an identifier. -/
def scanWord (text : List Char) : Scan :=
  let word := text.takeWhile isNameChar
  .token ((keyword? (String.ofList word)).getD .identifier) word

/-- An integer literal, or a float literal if a point follows its digits. -/
def scanNumber (text : List Char) : Scan :=
  let whole := text.takeWhile Char.isDigit
  match text.dropWhile Char.isDigit with
  | '.' :: rest => .token .floatLiteral (whole ++ '.' :: rest.takeWhile Char.isDigit)
  | _ => .token .intLiteral whole

/-- A variable name, behind its dollar sign. -/
def scanVariable (rest : List Char) : Scan :=
  match rest with
  | c :: _ =>
    if isNameStart c then .token .varName ('$' :: rest.takeWhile isNameChar)
    else .fault .danglingDollar 2
  | [] => .fault .danglingDollar 2

/-- The body of a string literal, behind its opening quote: everything up to the next quote that no
backslash protects. -/
def stringBody? : List Char → Option (List Char)
  | '"' :: _ => some []
  | '\\' :: c :: rest => (stringBody? rest).map fun body => '\\' :: c :: body
  | c :: rest => (stringBody? rest).map (c :: ·)
  | [] => none

/-- A string literal, behind its opening quote. -/
def scanString (rest : List Char) : Scan :=
  match stringBody? rest with
  | some body => .token .stringLiteral body
  | none => .fault .openString (1 + rest.length)

/-- The letters of the opening tag behind its first two characters. -/
def tagName : List Char := ['p', 'h', 'p']

/-- How many characters two lists have in common at their front. -/
def commonLength : List Char → List Char → Nat
  | a :: as, b :: bs => if a = b then commonLength as bs + 1 else 0
  | _, _ => 0

/-- The opening tag, behind its first two characters.  It has to be followed by a blank, which is
not part of it. -/
def scanTag (rest : List Char) : Scan :=
  let common := commonLength tagName rest
  if common < tagName.length then .fault .malformedTag (2 + common + 1)
  else
    match rest.drop tagName.length with
    | c :: _ =>
      if Text.isBlank c then .token .openTag ('<' :: '?' :: tagName)
      else .fault .unseparatedTag (2 + tagName.length + 1)
    | [] => .fault .unseparatedTag (2 + tagName.length)

/-- The token at the front of a text that starts with no gap. -/
def scan : List Char → Scan
  | [] => .token .eof []
  | c :: rest =>
    if isNameStart c then scanWord (c :: rest)
    else if c.isDigit then scanNumber (c :: rest)
    else if c = '$' then scanVariable rest
    else if c = '"' then scanString rest
    else if c = '<' ∧ rest.head? = some '?' then scanTag rest.tail
    else
      match operator? (c :: rest) with
      | some (spelling, kind) => .token kind spelling.toList
      | none => if c = '&' ∨ c = '|' then .fault (.unpaired c) 2 else .fault (.strayChar c) 1

/-- The operators are spelled with at least one character, and none of them is a string. -/
theorem operators_text_pos :
    ∀ entry ∈ operators, 0 < (tokenText entry.2 entry.1.toList).length := by
  decide +kernel

/-- A text that is not empty starts with a token that takes a character. -/
theorem scan_pos {c : Char} {rest : List Char} {kind : TokenKind} {lexeme : List Char}
    (h : scan (c :: rest) = .token kind lexeme) : 0 < (tokenText kind lexeme).length := by
  have hpos {k : TokenKind} {l : List Char} (hl : l ≠ []) : 0 < (tokenText k l).length := by
    unfold tokenText
    split
    · simp
    · exact List.length_pos_iff.mpr hl
  simp only [scan] at h
  split at h
  · rename_i hc
    simp only [scanWord, Scan.token.injEq] at h
    rw [← h.1, ← h.2]
    exact hpos (by simp [isNameChar_of_isNameStart hc])
  split at h
  · rename_i hc
    simp only [scanNumber] at h
    split at h <;> simp only [Scan.token.injEq] at h <;> rw [← h.1, ← h.2] <;>
      exact hpos (by simp [hc])
  split at h
  · unfold scanVariable at h
    split at h
    · split at h
      · simp only [Scan.token.injEq] at h
        rw [← h.1, ← h.2]
        exact hpos (by simp)
      · simp at h
    · simp at h
  split at h
  · unfold scanString at h
    split at h
    · simp only [Scan.token.injEq] at h
      rw [← h.1]
      simp [tokenText]
    · simp at h
  split at h
  · unfold scanTag at h
    simp only at h
    split at h
    · simp at h
    · split at h
      · split at h
        · simp only [Scan.token.injEq] at h
          rw [← h.1, ← h.2]
          exact hpos (by simp)
        · simp at h
      · simp at h
  split at h
  · rename_i spelling k hop
    simp only [Scan.token.injEq] at h
    rw [← h.1, ← h.2]
    exact operators_text_pos _ (List.mem_of_find?_eq_some hop)
  · split at h <;> simp at h

end Ifj22
