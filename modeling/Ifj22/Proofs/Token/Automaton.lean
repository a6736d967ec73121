import Ifj22.Proofs.Token.Lexeme
set_option autoImplicit false

/-!
# Token: the lexer as an automaton

The lexer looks at a whole text at once.  A `Reader` sees one character at a time and can put one
back: it counts a newline when it reads it, and takes the count back when the newline is put back.
An automaton on top of it goes from one `Mode` to the next until a token is complete
(`Reader.next`).  A count of zero cannot be taken back, so every operation that puts a character
back yields an option.

Reading a character is one step of the lexer's own place in the text, and putting it back undoes
that step (`Reader.read_behind`).  The automaton ends, since it goes on only behind a character
(`Mode.react_go`).
-/

namespace Ifj22

/-- A place in a text that is read character by character. -/
structure Reader where
  /-- The characters not yet taken. -/
  chars : List Char
  /-- A character that was put back. -/
  pushback : Option Char
  /-- The current line. -/
  line : Nat
  /-- The closing tag has been read. -/
  closed : Bool
  deriving DecidableEq, Repr

namespace Reader

/-- The reader at the start of a text. -/
def ofSource (source : String) : Reader where
  chars := source.toList
  pushback := none
  line := 1
  closed := false

/-- Takes the character that was put back, or else the next one. -/
def take (r : Reader) : Option Char × Reader :=
  match r.pushback, r.chars with
  | some c, _ => (some c, { r with pushback := none })
  | none, c :: chars => (some c, { r with chars := chars })
  | none, [] => (none, r)

/-- Reads a character and counts it if it is a newline.  A NUL ends the text. -/
def read (r : Reader) : Option Char × Reader :=
  match r.take with
  | (none, r) => (none, r)
  | (some c, r) =>
    if c = '\x00' then (none, { r with chars := [] })
    else (some c, if c = '\n' then { r with line := r.line + 1 } else r)

/-- Puts a character back, unless its newline cannot be taken off the count. -/
def putBack (r : Reader) : Option Char → Option Reader
  | none => some r
  | some c =>
    if c = '\n' then
      if r.line = 0 then none else some { r with line := r.line - 1, pushback := some c }
    else some { r with pushback := some c }

/-- The lexer at the same place. -/
def lexer (r : Reader) : Lexer where
  rest := (r.pushback.toList ++ r.chars).takeWhile (· != '\x00')
  line := r.line
  closed := r.closed

/-- The reader has just read `c`, the next character of `l`, and can put it back. -/
structure Behind (l : Lexer) (c : Option Char) (r : Reader) : Prop where
  char : c = l.rest.head?
  lexer : r.lexer = l.advance 1
  back : ∃ r', r.putBack c = some r' ∧ r'.lexer = l

theorem take_lexer (r : Reader) :
    (∃ c r', r.take = (some c, r') ∧ r'.pushback = none ∧ r'.line = r.line ∧ r'.closed = r.closed ∧
      r.pushback.toList ++ r.chars = c :: r'.chars) ∨
    r.take = (none, r) ∧ r.pushback.toList ++ r.chars = [] := by
  obtain ⟨chars, pushback, line, closed⟩ := r
  cases pushback with
  | some c => exact .inl ⟨c, _, rfl, rfl, rfl, rfl, rfl⟩
  | none =>
    cases chars with
    | nil => exact .inr ⟨rfl, rfl⟩
    | cons c chars => exact .inl ⟨c, _, rfl, rfl, rfl, rfl, rfl⟩

/-- Reading is one step of the lexer over the text, and it can be undone. -/
theorem read_behind (r : Reader) : Behind r.lexer r.read.1 r.read.2 := by
  obtain ⟨c, r', htake, hpush, hline, hclosed, htext⟩ | ⟨htake, htext⟩ := take_lexer r
  · have hlexer : r.lexer = ⟨(c :: r'.chars).takeWhile (· != '\x00'), r'.line, r'.closed⟩ := by
      rw [lexer, htext, hline, hclosed]
    rw [read, htake, hlexer]
    by_cases hnul : c = '\x00'
    · subst hnul
      exact ⟨rfl, by simp [lexer, hpush, Lexer.advance], _, rfl, by simp [lexer, hpush]⟩
    · have hrest : (c :: r'.chars).takeWhile (· != '\x00') =
          c :: r'.chars.takeWhile (· != '\x00') := by
        simp [hnul]
      rw [hrest]
      dsimp only
      rw [if_neg hnul]
      by_cases hbreak : c = '\n'
      · subst hbreak
        exact ⟨rfl, by simp [lexer, hpush, Lexer.advance], _, rfl, by simp [lexer]⟩
      · rw [if_neg hbreak]
        refine ⟨rfl, ?_, { r' with pushback := some c }, ?_, ?_⟩
        · simp [lexer, hpush, Lexer.advance, hbreak]
        · simp only [putBack, if_neg hbreak]
        · simp [lexer, hnul]
  · have hlexer : r.lexer = ⟨[], r.line, r.closed⟩ := by
      rw [lexer, htext, List.takeWhile_nil]
    rw [read, htake]
    exact ⟨by rw [hlexer]; rfl, by rw [hlexer]; rfl, r, rfl, rfl⟩

end Reader

/-! ## The automaton -/

/-- What kind of token is being read. -/
inductive Part
  | word
  | dollar
  | varName
  | question
  | equality
  | arithmetic
  | logical (first : Char)
  | relational
  | integer
  | float
  | string
  | escape
  deriving DecidableEq, Repr

/-- Where the automaton is: between tokens, in a comment, or inside a token of which `lexeme` has
been read and which began on `line`. -/
inductive Mode
  | start
  | lineComment
  | blockComment
  | inside (part : Part) (lexeme : List Char) (line : Nat)
  deriving DecidableEq, Repr

/-- What one character leads to. -/
inductive Verdict
  | go (mode : Mode)
  | stop (outcome : Except (Located LexicalFault) Token)

/-- What one character leads to, and the reader then; nothing if the count cannot be taken back. -/
abbrev Reply := Option (Verdict × Reader)

namespace Reply

def go (mode : Mode) (r : Reader) : Reply := some (.go mode, r)

def emit (kind : TokenKind) (lexeme : List Char) (line : Nat) (r : Reader) : Reply :=
  some (.stop (.ok ⟨kind, String.ofList lexeme, line⟩), r)

/-- A token that ends before the character just read. -/
def emitBefore (c : Option Char) (kind : TokenKind) (lexeme : List Char) (line : Nat)
    (r : Reader) : Reply :=
  (r.putBack c).bind (emit kind lexeme line)

def refuse (fault : LexicalFault) (r : Reader) : Reply := some (.stop (.error ⟨r.line, fault⟩), r)

/-- If the automaton goes on, it does so behind a character, with the reader as it is. -/
def Stays (c : Option Char) (r : Reader) (reply : Reply) : Prop :=
  ∀ mode r', reply = some (.go mode, r') → c ≠ none ∧ r' = r

variable {mode : Mode} {kind : TokenKind} {lexeme : List Char} {line : Nat} {c d : Option Char}
  {fault : LexicalFault} {r r1 : Reader}

theorem stays_go (hc : c ≠ none) : Stays c r (go mode r) := by
  intro mode' r' h
  obtain ⟨_, rfl⟩ := Prod.mk.inj (Option.some.inj h)
  exact ⟨hc, rfl⟩

theorem stays_emit : Stays c r (emit kind lexeme line r1) := by
  intro mode r' h
  cases h

theorem stays_emitBefore : Stays c r (emitBefore d kind lexeme line r1) := by
  intro mode r' h
  obtain ⟨_, _, h⟩ := Option.bind_eq_some_iff.mp h
  cases h

theorem stays_refuse : Stays c r (refuse fault r1) := by
  intro mode r' h
  cases h

theorem stays_ite {p : Prop} [Decidable p] {reply reply' : Reply} (ht : p → Stays c r reply)
    (hf : ¬ p → Stays c r reply') : Stays c r (if p then reply else reply') := by
  split
  · exact ht ‹_›
  · exact hf ‹_›

end Reply

/-- The tokens of one character that no other token starts with. -/
def singles : List (Char × TokenKind) :=
  [('(', .openParen), (')', .closeParen), ('\x7b', .openBrace), ('\x7d', .closeBrace),
    (',', .comma), (';', .semicolon), (':', .colon)]

def single? (c : Char) : Option TokenKind := singles.lookup c

/-- What a character starts, strings and comments aside. -/
def part? (c : Char) : Option Part :=
  if isNameStart c then some .word
  else if c.isDigit then some .integer
  else if c = '$' then some .dollar
  else if c ∈ ['=', '!'] then some .equality
  else if c ∈ ['+', '-', '*', '/', '.'] then some .arithmetic
  else if c ∈ ['&', '|'] then some (.logical c)
  else if c ∈ ['<', '>'] then some .relational
  else if c = '?' then some .question
  else none

def equalityKind : List Char → TokenKind
  | ['='] => .assign
  | ['=', '='] => .equal
  | ['=', '=', '='] => .identical
  | ['!'] => .bang
  | ['!', '='] => .notEqual
  | _ => .notIdentical

def arithmeticKind : List Char → TokenKind
  | ['+'] => .plus
  | ['-'] => .minus
  | ['*'] => .star
  | ['/'] => .slash
  | _ => .dot

def arithmeticPairs : List (List Char × TokenKind) :=
  [(['+', '='], .plusAssign), (['-', '='], .minusAssign), (['*', '='], .starAssign),
    (['/', '='], .slashAssign), (['.', '='], .dotAssign), (['+', '+'], .increment),
    (['-', '-'], .decrement)]

/-- Reads the rest of the opening tag. -/
def Reader.readTag : List Char → Nat → Reader → Reply
  | [], line, r =>
    let (c, r) := r.read
    if c.any Text.isBlank then Reply.emitBefore c .openTag ('<' :: '?' :: tagName) line r
    else Reply.refuse .unseparatedTag r
  | expected :: letters, line, r =>
    let (c, r) := r.read
    if c = some expected then r.readTag letters line
    else Reply.refuse .malformedTag r

/-- What a character leads to inside a token. -/
def Part.react (part : Part) (lexeme : List Char) (line : Nat) (c : Option Char) (r : Reader) :
    Reply :=
  match part with
  | .word =>
    if c.any isNameChar then Reply.go (.inside .word (lexeme ++ c.toList) line) r
    else Reply.emitBefore c ((keyword? (String.ofList lexeme)).getD .identifier) lexeme line r
  | .dollar =>
    if c.any isNameStart then Reply.go (.inside .varName (lexeme ++ c.toList) line) r
    else Reply.refuse .danglingDollar r
  | .varName =>
    if c.any isNameChar then Reply.go (.inside .varName (lexeme ++ c.toList) line) r
    else Reply.emitBefore c .varName lexeme line r
  | .question =>
    if c = some '>' then Reply.emit .closeTag ['?', '>'] line { r with closed := true }
    else Reply.emitBefore c .question lexeme line r
  | .equality =>
    if c = some '=' ∧ lexeme.length < 3 then Reply.go (.inside .equality (lexeme ++ ['=']) line) r
    else Reply.emitBefore c (equalityKind lexeme) lexeme line r
  | .arithmetic =>
    if lexeme = ['/'] ∧ c = some '/' then Reply.go .lineComment r
    else if lexeme = ['/'] ∧ c = some '*' then Reply.go .blockComment r
    else
      match arithmeticPairs.lookup (lexeme ++ c.toList) with
      | some kind => Reply.emit kind (lexeme ++ c.toList) line r
      | none => Reply.emitBefore c (arithmeticKind lexeme) lexeme line r
  | .logical first =>
    if c = some first then
      Reply.emit (if first = '&' then .andAnd else .orOr) (lexeme ++ lexeme) line r
    else Reply.refuse (.unpaired first) r
  | .relational =>
    if lexeme = ['<'] ∧ c = some '?' then r.readTag tagName line
    else if c = some '=' then
      Reply.emit (if lexeme = ['<'] then .lessEqual else .greaterEqual) (lexeme ++ ['=']) line r
    else Reply.emitBefore c (if lexeme = ['<'] then .lessThan else .greaterThan) lexeme line r
  | .integer =>
    if c.any Char.isDigit then Reply.go (.inside .integer (lexeme ++ c.toList) line) r
    else if c = some '.' then Reply.go (.inside .float (lexeme ++ ['.']) line) r
    else Reply.emitBefore c .intLiteral lexeme line r
  | .float =>
    if c.any Char.isDigit then Reply.go (.inside .float (lexeme ++ c.toList) line) r
    else Reply.emitBefore c .floatLiteral lexeme line r
  | .string =>
    match c with
    | none => Reply.refuse .openString r
    | some c =>
      if c = '"' then Reply.emit .stringLiteral lexeme line r
      else Reply.go (.inside (if c = '\\' then .escape else .string) (lexeme ++ [c]) line) r
  | .escape =>
    match c with
    | none => Reply.refuse .openString r
    | some c => Reply.go (.inside .string (lexeme ++ [c]) line) r

/-- What the first character of a token or a comment leads to. -/
def Reader.begin (r : Reader) (c : Char) : Reply :=
  match single? c with
  | some kind => Reply.emit kind [c] r.line r
  | none =>
    if c = '"' then Reply.go (.inside .string [] r.line) r
    else if c = '#' then Reply.go .lineComment r
    else
      match part? c with
      | some part => Reply.go (.inside part [c] r.line) r
      | none => Reply.refuse (.strayChar c) r

/-- What the character just read leads to. -/
def Mode.react (mode : Mode) (c : Option Char) (r : Reader) : Reply :=
  match mode, c with
  | .start, none => Reply.emit .eof [] r.line r
  | .start, some c => if Text.isBlank c then Reply.go .start r else r.begin c
  | .lineComment, none => Reply.emit .eof [] r.line r
  | .lineComment, some c => Reply.go (if c = '\n' then .start else .lineComment) r
  | .blockComment, none => Reply.refuse .openComment r
  | .blockComment, some c =>
    if c = '*' then
      let (d, r) := r.read
      if d = some '/' then Reply.go .start r else (r.putBack d).bind (Reply.go .blockComment)
    else Reply.go .blockComment r
  | .inside part lexeme line, c => part.react lexeme line c r

/-! ### Runs -/

theorem Reader.readTag_stays (letters : List Char) (line : Nat) (r : Reader) {c : Option Char}
    {r1 : Reader} : (r.readTag letters line).Stays c r1 := by
  induction letters generalizing r with
  | nil => exact Reply.stays_ite (fun _ => Reply.stays_emitBefore) fun _ => Reply.stays_refuse
  | cons expected letters ih => exact Reply.stays_ite (fun _ => ih _) fun _ => Reply.stays_refuse

theorem Part.react_stays (part : Part) (lexeme : List Char) (line : Nat) (c : Option Char)
    (r : Reader) : (part.react lexeme line c r).Stays c r := by
  cases part <;> cases c <;>
    grind [react, Reply.stays_go, Reply.stays_emit, Reply.stays_emitBefore, Reply.stays_refuse,
      Reader.readTag_stays]

theorem Reader.begin_stays (r : Reader) (c : Char) : (r.begin c).Stays (some c) r := by
  grind [begin, Reply.stays_go, Reply.stays_emit, Reply.stays_refuse]

/-- The automaton goes on only behind a character, and does not fall back behind it. -/
theorem Mode.react_go {mode mode' : Mode} {c : Option Char} {r r' : Reader}
    (h : mode.react c r = some (.go mode', r')) :
    c ≠ none ∧ r'.lexer.rest.length ≤ r.lexer.rest.length := by
  have hstays {reply : Reply} (hreply : reply.Stays c r) (h : reply = some (.go mode', r')) :
      c ≠ none ∧ r'.lexer.rest.length ≤ r.lexer.rest.length := by
    obtain ⟨hc, rfl⟩ := hreply mode' r' h
    exact ⟨hc, le_rfl⟩
  unfold Mode.react at h
  split at h
  · exact hstays Reply.stays_emit h
  · exact hstays (Reply.stays_ite (fun _ => Reply.stays_go (by simp)) fun _ => r.begin_stays _) h
  · exact hstays Reply.stays_emit h
  · exact hstays (Reply.stays_go (by simp)) h
  · exact hstays Reply.stays_refuse h
  · split at h
    · -- behind a star one more character is read, and perhaps put back
      have hread := r.read_behind
      refine ⟨by simp, ?_⟩
      dsimp only at h
      split at h
      · obtain ⟨_, rfl⟩ := Prod.mk.inj (Option.some.inj h)
        rw [hread.lexer, Lexer.rest_advance, List.length_drop]
        exact Nat.sub_le _ _
      · obtain ⟨r1, hback, h⟩ := Option.bind_eq_some_iff.mp h
        obtain ⟨r2, hback', hlexer⟩ := hread.back
        cases hback.symm.trans hback'
        obtain ⟨_, rfl⟩ := Prod.mk.inj (Option.some.inj h)
        rw [hlexer]
    · exact hstays (Reply.stays_go (by simp)) h
  · exact hstays (Part.react_stays _ _ _ _ _) h

theorem Reader.read_shortens {r : Reader} (h : r.read.1 ≠ none) :
    r.read.2.lexer.rest.length < r.lexer.rest.length := by
  have hread := r.read_behind
  rw [hread.lexer, Lexer.rest_advance, List.length_drop]
  have hne : r.lexer.rest ≠ [] := by
    intro hnil
    rw [hread.char, hnil] at h
    exact h rfl
  have := List.length_pos_iff.mpr hne
  omega

/-- Reads on from a mode until a token or a fault is found. -/
def Mode.run (mode : Mode) (r : Reader) : Option (Except (Located LexicalFault) Token × Reader) :=
  match _h : mode.react r.read.1 r.read.2 with
  | none => none
  | some (.stop outcome, r') => some (outcome, r')
  | some (.go mode', r') => mode'.run r'
termination_by r.lexer.rest.length
decreasing_by
  obtain ⟨hc, hle⟩ := Mode.react_go _h
  exact Nat.lt_of_le_of_lt hle (Reader.read_shortens hc)

namespace Reader

/-- Behind the closing tag only one newline may follow. -/
def nextClosed (r : Reader) : Except (Located LexicalFault) Token × Reader :=
  let (c, r) := r.read
  let (c, r) := if c = some '\n' then r.read else (c, r)
  match c with
  | none => (.ok ⟨.eof, "", r.line⟩, r)
  | some _ => (.error ⟨r.line, .trailingText⟩, r)

/-- The next token, or the fault at the place where none starts. -/
def next (r : Reader) : Option (Except (Located LexicalFault) Token × Reader) :=
  if r.closed then some r.nextClosed else Mode.start.run r

end Reader

end Ifj22
