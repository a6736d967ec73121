import Ifj22.Token.Scan
set_option autoImplicit false

/-!
# Token: the lexer

A lexer walks over a source text and hands out its tokens one by one.  It keeps the characters not
yet read, the line of the first of them, and whether the closing tag has been passed.  A character
NUL ends the text.

* `Lexer.next` gives the next token or a fault; either way the lexer can go on.
* `tokenize` collects the tokens of a text up to its end or its first fault.
-/

namespace Ifj22

/-- A fault and the line it was found on. -/
structure Located (α : Type) where
  line : Nat
  fault : α
  deriving DecidableEq, Repr, Inhabited

/-- A position in a source text. -/
structure Lexer where
  /-- The characters not yet read. -/
  rest : List Char
  /-- The line of the first of them. -/
  line : Nat
  /-- The closing tag has been read. -/
  closed : Bool
  deriving DecidableEq, Repr, Inhabited

namespace Lexer

/-- The lexer at the start of a text. -/
def ofSource (source : String) : Lexer where
  rest := source.toList.takeWhile (· != '\x00')
  line := 1
  closed := false

/-- Reads `n` characters, or all that are left if there are fewer. -/
def advance (l : Lexer) (n : Nat) : Lexer :=
  { l with rest := l.rest.drop n, line := l.line + (l.rest.take n).count '\n' }

theorem rest_advance (l : Lexer) (n : Nat) : (l.advance n).rest = l.rest.drop n := rfl

theorem line_advance (l : Lexer) (n : Nat) :
    (l.advance n).line = l.line + (l.rest.take n).count '\n' := rfl

/-- The outcome of one step: a token or a fault, and the lexer behind it. -/
abbrev Step := Except (Located LexicalFault) Token × Lexer

/-- Fails behind `n` more characters, on the line reached there. -/
def fail (l : Lexer) (fault : LexicalFault) (n : Nat) : Step :=
  (.error ⟨(l.advance n).line, fault⟩, l.advance n)

/-- Behind the closing tag only one newline may follow. -/
def nextClosed (l : Lexer) : Step :=
  match l.rest with
  | [] => (.ok ⟨.eof, "", l.line⟩, l)
  | ['\n'] => (.ok ⟨.eof, "", l.line + 1⟩, l.advance 1)
  | '\n' :: _ => l.fail .trailingText 2
  | _ => l.fail .trailingText 1

/-- The next token of a text whose closing tag has not been read. -/
def nextOpen (l : Lexer) : Step :=
  match gap? l.rest with
  | none => l.fail .openComment l.rest.length
  | some n =>
    let start := l.advance n
    match scan start.rest with
    | .fault fault length => start.fail fault length
    | .token kind lexeme =>
      let behind := start.advance (tokenText kind lexeme).length
      (.ok ⟨kind, String.ofList lexeme, start.line⟩, { behind with closed := kind == .closeTag })

/-- The next token, or the fault at the place where none starts. -/
def next (l : Lexer) : Step := if l.closed then l.nextClosed else l.nextOpen

/-- A token other than the last one takes characters. -/
theorem next_shortens {l l' : Lexer} {t : Token} (h : l.next = (.ok t, l')) (ht : t.kind ≠ .eof) :
    l'.rest.length < l.rest.length := by
  unfold next at h
  split at h
  · unfold nextClosed at h
    split at h
    · simp only [Prod.mk.injEq, Except.ok.injEq] at h
      exact absurd (by rw [← h.1]) ht
    · simp only [Prod.mk.injEq, Except.ok.injEq] at h
      exact absurd (by rw [← h.1]) ht
    · simp [fail] at h
    · simp [fail] at h
  · unfold nextOpen at h
    split at h
    · simp [fail] at h
    · rename_i n _
      simp only at h
      split at h
      · simp [fail] at h
      · rename_i kind lexeme hscan
        simp only [Prod.mk.injEq, Except.ok.injEq] at h
        obtain ⟨rfl, rfl⟩ := h
        cases hrest : (l.advance n).rest with
        | nil =>
          rw [hrest] at hscan
          simp only [scan, Scan.token.injEq] at hscan
          exact absurd hscan.1.symm ht
        | cons c rest =>
          rw [hrest] at hscan
          have hpos := scan_pos hscan
          have hle : (l.advance n).rest.length ≤ l.rest.length := by
            simp [rest_advance]
          simp only [rest_advance, List.length_drop] at hle ⊢
          have hlen : (l.rest.drop n).length = rest.length + 1 := by
            rw [← rest_advance, hrest, List.length_cons]
          rw [List.length_drop] at hlen
          omega

/-- The tokens from here to the end of the text, the last one included. -/
def tokens (l : Lexer) : Except (Located LexicalFault) (List Token) :=
  match _h : l.next with
  | (.error e, _) => .error e
  | (.ok t, l') =>
    if _ht : t.kind = .eof then .ok [t]
    else l'.tokens.map (t :: ·)
termination_by l.rest.length
decreasing_by exact next_shortens _h _ht

end Lexer

/-- The tokens of a source text. -/
def tokenize (source : String) : Except (Located LexicalFault) (List Token) :=
  (Lexer.ofSource source).tokens

end Ifj22
