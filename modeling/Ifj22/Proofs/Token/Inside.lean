import Ifj22.Proofs.Token.Automaton
import Mathlib.Tactic.SplitIfs
set_option autoImplicit false

/-!
# Token: the automaton inside a token

For every mode of the automaton, `Mode.outcome` says what the lexer makes of the characters already
read and those to come.  This module proves that reading one more character inside a token does not
change it (`Part.agrees`): the token goes on, or it ends where the lexer ends it.
-/

namespace Ifj22

variable {kind : TokenKind} {n : Nat} {c d : Char} {step : Lexer.Step}

/-! ## Where the lexer stands -/

namespace Lexer

/-- The lexer stands behind `text`, which began on `line`. -/
def Past (l : Lexer) (text : List Char) (line : Nat) : Prop :=
  l.closed = false ∧ l.line = line + text.count '\n'

variable {l : Lexer} {text : List Char} {line : Nat}

theorem Past.eq (h : l.Past text line) : l = ⟨l.rest, line + text.count '\n', false⟩ := by
  obtain ⟨rest, line', closed⟩ := l
  obtain ⟨rfl, rfl⟩ := h
  rfl

theorem Past.advance_length (h : l.Past text line) :
    (Lexer.mk (text ++ l.rest) line false).advance text.length = l := by
  rw [advance, List.drop_left, List.take_left]
  exact h.eq.symm

theorem advance_of_nil (h : l.rest = []) (n : Nat) : l.advance n = l := by
  obtain ⟨rest, line, closed⟩ := l
  obtain rfl : rest = [] := h
  simp [Lexer.advance]

/-- At the end of the text nothing more is read. -/
theorem fail_of_nil (h : l.rest = []) (fault : LexicalFault) (m n : Nat) :
    l.fail fault m = l.fail fault n := by
  rw [fail, fail, advance_of_nil h, advance_of_nil h]

/-- A token that the lexer stands behind is the next one from where it began. -/
theorem Past.next_token {lexeme : List Char} (h : l.Past text line)
    (hfound : gap? (text ++ l.rest) = some 0 ∧ scan (text ++ l.rest) = .token kind lexeme)
    (htext : tokenText kind lexeme = text) (hkind : kind ≠ .closeTag) :
    (Lexer.mk (text ++ l.rest) line false).next =
      (.ok ⟨kind, String.ofList lexeme, line⟩, l) := by
  subst htext
  rw [next_front line hfound.1 hfound.2, beq_false_of_ne hkind, ← h.eq]

theorem Past.next_fault {fault : LexicalFault} (h : l.Past text line)
    (hgap : gap? (text ++ l.rest) = some 0)
    (hscan : scan (text ++ l.rest) = .fault fault (text.length + n)) :
    (Lexer.mk (text ++ l.rest) line false).next = l.fail fault n := by
  rw [Lexer.next_fault line hgap hscan, fail, ← advance_advance, h.advance_length]
  rfl

/-- A comment at the front is passed. -/
theorem next_comment {rest : List Char} (hopen : l.closed = false) (hrest : l.rest = c :: rest)
    (hblank : Text.isBlank c = false) (h : comment l.rest = .length n) :
    l.next = (l.advance n).next := by
  rw [next_of_open hopen, next_of_open (l := l.advance n) hopen]
  apply nextOpen_skip
  · obtain ⟨front, behind, htext, rfl, _⟩ := comment_eq_length h
    rw [htext, List.length_append]
    exact Nat.le_add_right _ _
  · rw [hrest] at h ⊢
    rw [gap?_of_comment hblank, h]

/-- The next token behind the rest of a block comment. -/
def nextBehindBlock (l : Lexer) : Step :=
  match blockLength? l.rest with
  | some n => (l.advance n).next
  | none => l.fail .openComment l.rest.length

/-- The next token behind the rest of a line comment. -/
def nextBehindLine (l : Lexer) : Step := (l.advance (lineLength l.rest)).next

/-- The mark of a line comment leads into it. -/
theorem next_line {rest : List Char} (hopen : l.closed = false) (hrest : l.rest = c :: rest)
    (hblank : Text.isBlank c = false)
    (h : comment l.rest = .length (n + lineLength (l.rest.drop n))) :
    l.next = (l.advance n).nextBehindLine := by
  rw [next_comment hopen hrest hblank h, nextBehindLine, advance_advance, rest_advance]

/-- The mark of a block comment leads into it. -/
theorem next_block {rest : List Char} (hopen : l.closed = false)
    (hrest : l.rest = '/' :: '*' :: rest) : l.next = (l.advance 2).nextBehindBlock := by
  have hcomment : comment l.rest =
      match blockLength? rest with
      | some n => .length (2 + n)
      | none => .unending := by
    rw [hrest]
    rfl
  rw [nextBehindBlock, rest_advance, hrest]
  show _ = match blockLength? rest with
    | some n => ((l.advance 2).advance n).next
    | none => (l.advance 2).fail .openComment rest.length
  cases hblock : blockLength? rest with
  | some n =>
    rw [hblock] at hcomment
    rw [next_comment hopen hrest (by decide) hcomment, ← advance_advance]
  | none =>
    rw [hblock, hrest] at hcomment
    rw [next_of_open hopen, nextOpen, hrest, gap?_of_comment (by decide), hcomment]
    simp only [fail, advance_advance, List.length_cons]
    rw [Nat.add_comm 2, Nat.add_assoc]

end Lexer

/-! ## What the modes stand for -/

/-- What was read of a token and is not part of its lexeme. -/
def Part.opening : Part → List Char
  | .string | .escape => ['"']
  | _ => []

def equalityLexemes : List (List Char) :=
  [['='], ['=', '='], ['=', '=', '='], ['!'], ['!', '='], ['!', '=', '=']]

def arithmeticLexemes : List (List Char) := [['+'], ['-'], ['*'], ['/'], ['.']]

def relationalLexemes : List (List Char) := [['<'], ['>']]

/-- What may have been read of a token. -/
def Part.Reads : Part → List Char → Prop
  | .word, lexeme => IsName lexeme
  | .dollar, lexeme => lexeme = ['$']
  | .varName, lexeme => IsVarName lexeme
  | .question, lexeme => lexeme = ['?']
  | .equality, lexeme => lexeme ∈ equalityLexemes
  | .arithmetic, lexeme => lexeme ∈ arithmeticLexemes
  | .logical first, lexeme => first ∈ ['&', '|'] ∧ lexeme = [first]
  | .relational, lexeme => lexeme ∈ relationalLexemes
  | .integer, lexeme => lexeme ≠ [] ∧ ∀ c ∈ lexeme, c.isDigit = true
  | .float, lexeme => ∃ whole fraction, lexeme = whole ++ '.' :: fraction ∧ whole ≠ [] ∧
      (∀ c ∈ whole, c.isDigit = true) ∧ ∀ c ∈ fraction, c.isDigit = true
  | .string, lexeme => InString lexeme
  | .escape, lexeme => ∃ body, lexeme = body ++ ['\\'] ∧ InString body

/-- What the lexer makes of the characters read and those to come. -/
def Mode.outcome : Mode → Lexer → Lexer.Step
  | .start, l => l.next
  | .lineComment, l => l.nextBehindLine
  | .blockComment, l => l.nextBehindBlock
  | .inside part lexeme line, l => (Lexer.mk (part.opening ++ lexeme ++ l.rest) line false).next

/-- The automaton can be in the mode at this place. -/
def Mode.Fits : Mode → Lexer → Prop
  | .inside part lexeme line, l => l.Past (part.opening ++ lexeme) line ∧ part.Reads lexeme
  | _, l => l.closed = false

def Verdict.outcome : Verdict → Lexer → Lexer.Step
  | .go mode, l => mode.outcome l
  | .stop outcome, l => (outcome, l)

def Verdict.Fits : Verdict → Lexer → Prop
  | .go mode, l => mode.Fits l
  | .stop _, _ => True

/-- A reply was given, and the given step is what comes of it. -/
def Reply.Leads (reply : Reply) (step : Lexer.Step) : Prop :=
  ∃ verdict r, reply = some (verdict, r) ∧ verdict.outcome r.lexer = step ∧ verdict.Fits r.lexer

/-- A character inside a token changes nothing of what is to come. -/
def Part.Agrees (part : Part) : Prop :=
  ∀ {l c r lexeme line}, Reader.Behind l c r → (Mode.inside part lexeme line).Fits l →
    (part.react lexeme line c r).Leads ((Mode.inside part lexeme line).outcome l)

/-! ## Replies -/

namespace Reader.Behind

variable {l : Lexer} {c : Option Char} {r : Reader}

theorem rest (h : Behind l (some d) r) : l.rest = d :: r.lexer.rest := by
  obtain ⟨tail, htail⟩ := List.head?_eq_some_iff.mp h.char.symm
  rw [h.lexer, Lexer.rest_advance, htail]
  rfl

theorem closed (h : Behind l c r) : r.lexer.closed = l.closed := by
  rw [h.lexer]
  rfl

theorem nil (h : Behind l none r) : l.rest = [] :=
  List.head?_eq_none_iff.mp h.char.symm

theorem lexer_of_none (h : Behind l none r) : r.lexer = l := by
  rw [h.lexer, Lexer.advance_of_nil h.nil]

theorem past {text : List Char} {line : Nat} (h : Behind l (some d) r) (hpast : l.Past text line) :
    r.lexer.Past (text ++ [d]) line := by
  obtain ⟨hopen, hline⟩ := hpast
  rw [h.lexer]
  refine ⟨hopen, ?_⟩
  rw [Lexer.line_advance, hline, h.rest, List.count_append, Nat.add_assoc]
  rfl

theorem endsRun {p : Char → Bool} (h : Behind l c r) (hc : ¬ c.any p = true) :
    EndsRun p l.rest := by
  intro d hd
  rw [h.char] at hc
  rw [Option.mem_def.mp hd] at hc
  simpa using hc

theorem line_eq (h : Behind l (some d) r) (hd : d ≠ '\n') : r.line = l.line := by
  have hline : r.lexer.line = l.line + [d].count '\n' := by
    rw [h.lexer, Lexer.line_advance, h.rest]
    rfl
  rw [List.count_singleton, if_neg (by simpa using hd)] at hline
  exact hline

end Reader.Behind

namespace Reply

variable {l : Lexer} {c : Option Char} {r : Reader} {kind : TokenKind} {lexeme : List Char}
  {line : Nat}

theorem leads_go {mode : Mode} (h : mode.outcome r.lexer = step) (hfits : mode.Fits r.lexer) :
    Leads (go mode r) step :=
  ⟨.go mode, r, rfl, h, hfits⟩

theorem leads_emit (h : step = (.ok ⟨kind, String.ofList lexeme, line⟩, r.lexer)) :
    Leads (emit kind lexeme line r) step :=
  ⟨_, r, rfl, h.symm, trivial⟩

theorem leads_refuse {fault : LexicalFault} (hread : Reader.Behind l c r)
    (h : step = l.fail fault 1) : Leads (refuse fault r) step := by
  refine ⟨_, r, rfl, ?_, trivial⟩
  rw [h, Lexer.fail, ← hread.lexer]
  rfl

/-- A token that ends before the character just read. -/
theorem leads_emitBefore (hread : Reader.Behind l c r) (hpast : l.Past lexeme line)
    (hplain : tokenText kind lexeme = lexeme) (hkind : kind ≠ .closeTag)
    (hfound : gap? (lexeme ++ l.rest) = some 0 ∧ scan (lexeme ++ l.rest) = .token kind lexeme) :
    Leads (emitBefore c kind lexeme line r) (Lexer.mk (lexeme ++ l.rest) line false).next := by
  obtain ⟨r', hback, hlexer⟩ := hread.back
  refine ⟨.stop (.ok ⟨kind, String.ofList lexeme, line⟩), r', ?_, ?_, trivial⟩
  · rw [emitBefore, hback]
    rfl
  · rw [hpast.next_token hfound hplain hkind, ← hlexer]
    rfl

/-- A token that ends with the character just read. -/
theorem leads_emitBehind (hread : Reader.Behind l (some d) r) (hpast : l.Past lexeme line)
    (hplain : tokenText kind (lexeme ++ [d]) = lexeme ++ [d]) (hkind : kind ≠ .closeTag)
    (hfound : gap? (lexeme ++ [d] ++ r.lexer.rest) = some 0 ∧
      scan (lexeme ++ [d] ++ r.lexer.rest) = .token kind (lexeme ++ [d])) :
    Leads (emit kind (lexeme ++ [d]) line r) (Lexer.mk (lexeme ++ l.rest) line false).next := by
  have hnext := (hread.past hpast).next_token hfound hplain hkind
  rw [List.append_assoc, List.singleton_append, ← hread.rest] at hnext
  exact leads_emit hnext

/-- A run of characters goes on with the character just read, or ends before it. -/
theorem leads_run {p : Char → Bool} {more less : Reply} (hread : Reader.Behind l c r)
    (hmore : ∀ d, c = some d → p d = true → Leads more step)
    (hless : EndsRun p l.rest → Leads less step) :
    Leads (if c.any p then more else less) step := by
  split_ifs with hc
  · obtain ⟨d, hd, hp⟩ := (Option.any_eq_true _ _).mp hc
    exact hmore d hd hp
  · exact hless (hread.endsRun hc)

/-- The token goes on with the character just read. -/
theorem leads_inside {part part' : Part} (hread : Reader.Behind l (some d) r)
    (hpast : l.Past (part.opening ++ lexeme) line) (hsame : part'.opening = part.opening)
    (hreads : part'.Reads (lexeme ++ [d])) :
    Leads (go (.inside part' (lexeme ++ [d]) line) r)
      ((Mode.inside part lexeme line).outcome l) := by
  apply leads_go
  · rw [Mode.outcome, Mode.outcome, hsame, hread.rest]
    simp only [List.append_assoc, List.singleton_append]
  · refine ⟨?_, hreads⟩
    rw [hsame, ← List.append_assoc]
    exact hread.past hpast

end Reply

/-! ## Inside a token -/

theorem IsName.concat {name : List Char} (h : IsName name) (hc : isNameChar c = true) :
    IsName (name ++ [c]) := by
  cases name with
  | nil => exact h.elim
  | cons d rest =>
    refine ⟨h.1, fun x hx => ?_⟩
    rcases List.mem_append.mp hx with hx | hx
    · exact h.2 x hx
    · obtain rfl := List.mem_singleton.mp hx
      exact hc

theorem IsVarName.concat {name : List Char} (h : IsVarName name) (hc : isNameChar c = true) :
    IsVarName (name ++ [c]) := by
  cases name with
  | nil => exact h.elim
  | cons d rest => exact ⟨h.1, h.2.concat hc⟩

theorem forall_mem_concat {p : Char → Bool} {run : List Char} (h : ∀ x ∈ run, p x = true)
    (hc : p c = true) : ∀ x ∈ run ++ [c], p x = true := by
  intro x hx
  rcases List.mem_append.mp hx with hx | hx
  · exact h x hx
  · obtain rfl := List.mem_singleton.mp hx
    exact hc

/-- An operator with which none goes on. -/
abbrev Completes (kind : TokenKind) (lexeme : List Char) : Prop :=
  (String.ofList lexeme, kind) ∈ operators ∧ kind ≠ .closeTag ∧ goesOn lexeme = []

namespace Part

open Reader (Behind)

variable {l : Lexer} {c : Option Char} {r : Reader} {lexeme : List Char} {line : Nat}

theorem word_agrees : Part.word.Agrees := by
  rintro l c r lexeme line hread ⟨hpast, h⟩
  apply Reply.leads_run hread
  · rintro d rfl hd
    exact Reply.leads_inside hread hpast rfl (h.concat hd)
  · intro hend
    have hkind : (keyword? (String.ofList lexeme)).getD .identifier ≠ .closeTag := by
      intro heq
      have hmem := wordKind_mem (String.ofList lexeme)
      rw [heq] at hmem
      exact absurd hmem (by decide)
    exact Reply.leads_emitBefore hread hpast (tokenText_word lexeme) hkind (scan_word h hend)

theorem dollar_agrees : Part.dollar.Agrees := by
  rintro l c r _ line hread ⟨hpast, rfl⟩
  apply Reply.leads_run hread
  · rintro d rfl hd
    exact Reply.leads_inside hread hpast rfl ⟨rfl, hd, by simp⟩
  · intro hend
    apply Reply.leads_refuse hread
    apply hpast.next_fault
    · exact gap?_of_ne (by decide) (by decide) (by decide) _
    · show scanVariable l.rest = _
      unfold scanVariable
      split
      · rename_i d tail hrest
        rw [hrest] at hend
        rw [if_neg (by simp [hend d rfl])]
        rfl
      · rfl

theorem varName_agrees : Part.varName.Agrees := by
  rintro l c r lexeme line hread ⟨hpast, h⟩
  apply Reply.leads_run hread
  · rintro d rfl hd
    exact Reply.leads_inside hread hpast rfl (h.concat hd)
  · intro hend
    apply Reply.leads_emitBefore hread hpast rfl (by decide)
    cases lexeme with
    | nil => exact h.elim
    | cons d name =>
      obtain ⟨rfl, hname⟩ := h
      exact scan_variable hname hend

theorem integer_agrees : Part.integer.Agrees := by
  rintro l c r lexeme line hread ⟨hpast, hne, h⟩
  apply Reply.leads_run hread
  · rintro d rfl hd
    exact Reply.leads_inside hread hpast rfl ⟨by simp, forall_mem_concat h hd⟩
  · intro hend
    split_ifs with hpoint
    · subst hpoint
      exact Reply.leads_inside hread hpast rfl ⟨lexeme, [], rfl, hne, h, by simp⟩
    · rw [hread.char] at hpoint
      exact Reply.leads_emitBefore hread hpast rfl (by decide) (scan_int hne h hend hpoint)

theorem float_agrees : Part.float.Agrees := by
  rintro l c r _ line hread ⟨hpast, whole, fraction, rfl, hne, hw, hf⟩
  apply Reply.leads_run hread
  · rintro d rfl hd
    apply Reply.leads_inside hread hpast rfl
    exact ⟨whole, fraction ++ [d], by simp, hne, hw, forall_mem_concat hf hd⟩
  · intro hend
    exact Reply.leads_emitBefore hread hpast rfl (by decide) (scan_float hne hw hf hend)

/-! ### Strings -/

/-- A string that the text ends in. -/
theorem leads_openString (hread : Behind l none r) (hpast : l.Past ('"' :: lexeme) line)
    (h : stringBody? lexeme = none) :
    (Reply.refuse .openString r).Leads
      (Lexer.mk ('"' :: lexeme ++ l.rest) line false).next := by
  apply Reply.leads_refuse hread
  rw [Lexer.fail_of_nil hread.nil .openString 1 0]
  apply hpast.next_fault
  · exact gap?_of_ne (by decide) (by decide) (by decide) _
  · show scanString (lexeme ++ l.rest) = _
    rw [hread.nil, List.append_nil, scanString, h, List.length_cons, Nat.add_zero, Nat.add_comm]

theorem string_agrees : Part.string.Agrees := by
  rintro l c r lexeme line hread ⟨hpast, h⟩
  cases c with
  | none =>
    apply leads_openString hread hpast
    have hend := h []
    rwa [List.append_nil] at hend
  | some d =>
    unfold react
    dsimp only
    split_ifs with hquote hslash
    · subst hquote
      have hfound : gap? ('"' :: lexeme ++ ['"'] ++ r.lexer.rest) = some 0 ∧
          scan ('"' :: lexeme ++ ['"'] ++ r.lexer.rest) = .token .stringLiteral lexeme := by
        rw [List.append_assoc]
        exact scan_string (h.quote r.lexer.rest)
      have hnext := (hread.past hpast).next_token hfound rfl (by decide)
      rw [List.append_assoc, List.singleton_append, ← hread.rest] at hnext
      exact Reply.leads_emit hnext
    · subst hslash
      exact Reply.leads_inside hread hpast rfl ⟨lexeme, rfl, h⟩
    · exact Reply.leads_inside hread hpast rfl (h.append (inString_char hquote hslash))

theorem escape_agrees : Part.escape.Agrees := by
  rintro l c r _ line hread ⟨hpast, body, rfl, h⟩
  cases c with
  | none =>
    exact leads_openString hread hpast (h ['\\'])
  | some d =>
    have hmore := h.append (inString_escape d)
    rw [← List.singleton_append, ← List.append_assoc] at hmore
    exact Reply.leads_inside hread hpast rfl hmore

/-! ### Operators -/

/-- An operator that ends before the character just read. -/
theorem leads_operator (hread : Behind l c r) (hpast : l.Past lexeme line)
    (h : (String.ofList lexeme, kind) ∈ operators) (hkind : kind ≠ .closeTag)
    (hend : ∀ d ∈ c, d ∉ goesOn lexeme) :
    (Reply.emitBefore c kind lexeme line r).Leads
      (Lexer.mk (lexeme ++ l.rest) line false).next := by
  apply Reply.leads_emitBefore hread hpast (tokenText_operator h) hkind
  apply scan_spelled h
  intro d hd
  rw [← hread.char] at hd
  simpa using hend d hd

/-- An operator that ends with the character just read. -/
theorem leads_operatorBehind (hread : Behind l (some d) r) (hpast : l.Past lexeme line)
    (h : Completes kind (lexeme ++ [d])) :
    (Reply.emit kind (lexeme ++ [d]) line r).Leads
      (Lexer.mk (lexeme ++ l.rest) line false).next := by
  obtain ⟨hentry, hkind, hend⟩ := h
  apply Reply.leads_emitBehind hread hpast (tokenText_operator hentry) hkind
  apply scan_spelled hentry
  intro e _
  simp [hend]

theorem equality_agrees : Part.equality.Agrees := by
  rintro l c r lexeme line hread ⟨hpast, h⟩
  have htable : ∀ lexeme ∈ equalityLexemes,
      (String.ofList lexeme, equalityKind lexeme) ∈ operators ∧
        equalityKind lexeme ≠ .closeTag ∧ (∀ d ∈ goesOn lexeme, d = '=' ∧ lexeme.length < 3) ∧
        (lexeme.length < 3 → lexeme ++ ['='] ∈ equalityLexemes) := by
    decide
  obtain ⟨hentry, hkind, hgoes, hmore⟩ := htable lexeme h
  unfold react
  dsimp only
  split_ifs with hc
  · obtain ⟨rfl, hshort⟩ := hc
    exact Reply.leads_inside hread hpast rfl (hmore hshort)
  · apply leads_operator hread hpast hentry hkind
    rintro d rfl hd
    obtain ⟨rfl, hshort⟩ := hgoes d hd
    exact hc ⟨rfl, hshort⟩

theorem question_agrees : Part.question.Agrees := by
  rintro l c r _ line hread ⟨hpast, rfl⟩
  unfold react
  dsimp only
  split_ifs with hc
  · subst hc
    apply Reply.leads_emit
    have hfound : gap? (['?', '>'] ++ r.lexer.rest) = some 0 ∧
        scan (['?', '>'] ++ r.lexer.rest) = .token .closeTag ['?', '>'] := by
      apply scan_spelled (by decide)
      intro d _
      have hnone : goesOn ['?', '>'] = [] := by decide
      simp [hnone]
    have hline : r.line = line := (hread.past hpast).2
    have hnext := @Lexer.next_front r.lexer.rest ['?', '>'] .closeTag line hfound.1 hfound.2
    show (Lexer.mk ('?' :: l.rest) line false).next = _
    rw [hread.rest]
    rw [← hline] at hnext ⊢
    exact hnext
  · apply leads_operator hread hpast (by decide) (by decide)
    rintro d rfl hd
    have hgoes : ∀ d ∈ goesOn ['?'], d = '>' := by decide
    exact hc (by rw [hgoes d hd])

theorem logical_agrees (first : Char) : (Part.logical first).Agrees := by
  rintro l c r _ line hread ⟨hpast, hfirst, rfl⟩
  unfold react
  dsimp only
  split
  · rename_i hc
    subst hc
    have htable : ∀ first ∈ ['&', '|'],
        Completes (if first = '&' then .andAnd else .orOr) ([first] ++ [first]) := by
      decide
    exact leads_operatorBehind hread hpast (htable first hfirst)
  · rename_i hc
    apply Reply.leads_refuse hread
    obtain ⟨hgap, hscan⟩ := scan_unpaired hfirst (by rw [← hread.char]; exact hc)
    exact hpast.next_fault hgap hscan

theorem arithmetic_agrees : Part.arithmetic.Agrees := by
  rintro l c r lexeme line hread ⟨hpast, h⟩
  have htable : ∀ lexeme ∈ arithmeticLexemes,
      (String.ofList lexeme, arithmeticKind lexeme) ∈ operators ∧
        arithmeticKind lexeme ≠ .closeTag ∧
        (∀ d ∈ goesOn lexeme, lexeme = ['/'] ∧ (d = '/' ∨ d = '*') ∨
          arithmeticPairs.lookup (lexeme ++ [d]) ≠ none) := by
    decide
  have hpairs : ∀ entry ∈ arithmeticPairs, Completes entry.2 entry.1 := by decide
  obtain ⟨hentry, hkind, hgoes⟩ := htable lexeme h
  have hopen : r.lexer.closed = false := hread.closed.trans hpast.1
  unfold react
  dsimp only
  split_ifs with hline hblock
  · obtain ⟨rfl, rfl⟩ := hline
    refine Reply.leads_go ?_ hopen
    rw [Mode.outcome, Mode.outcome, hread.rest]
    have hhere : (Lexer.mk ('/' :: '/' :: r.lexer.rest) line false).advance 2 = r.lexer :=
      (hread.past hpast).advance_length
    rw [← hhere]
    exact (Lexer.next_line rfl rfl (by decide) rfl).symm
  · obtain ⟨rfl, rfl⟩ := hblock
    refine Reply.leads_go ?_ hopen
    rw [Mode.outcome, Mode.outcome, hread.rest]
    have hhere : (Lexer.mk ('/' :: '*' :: r.lexer.rest) line false).advance 2 = r.lexer :=
      (hread.past hpast).advance_length
    rw [← hhere]
    exact (Lexer.next_block rfl rfl).symm
  split
  · rename_i kind hpair
    cases c with
    | none =>
      have hnone : ∀ lexeme ∈ arithmeticLexemes, arithmeticPairs.lookup lexeme = none := by decide
      rw [Option.toList_none, List.append_nil, hnone lexeme h] at hpair
      cases hpair
    | some d =>
      obtain ⟨before, behind, htable', _⟩ := List.lookup_eq_some_iff.mp hpair
      have hcompletes := hpairs (lexeme ++ [d], kind) (by rw [htable']; simp)
      exact leads_operatorBehind hread hpast hcompletes
  · rename_i hpair
    apply leads_operator hread hpast hentry hkind
    rintro d rfl hd
    obtain ⟨rfl, rfl | rfl⟩ | hsome := hgoes d hd
    · exact hline ⟨rfl, rfl⟩
    · exact hblock ⟨rfl, rfl⟩
    · exact hsome hpair

/-! ### The opening tag -/

theorem commonLength_append (front text text' : List Char) :
    commonLength (front ++ text) (front ++ text') = front.length + commonLength text text' := by
  induction front with
  | nil => simp
  | cons c front ih =>
    rw [List.cons_append, List.cons_append, commonLength, if_pos rfl, ih, List.length_cons]
    omega

theorem commonLength_eq_zero {c : Char} {text text' : List Char} (h : text'.head? ≠ some c) :
    commonLength (c :: text) text' = 0 := by
  cases text' with
  | nil => rfl
  | cons d text' =>
    rw [commonLength, if_neg]
    rintro rfl
    exact h rfl

theorem scan_malformedTag {found letters rest : List Char} {expected : Char}
    (htag : found ++ expected :: letters = tagName) (h : rest.head? ≠ some expected) :
    scan ('<' :: '?' :: found ++ rest) = .fault .malformedTag (found.length + 2 + 1) := by
  have hcommon : commonLength tagName (found ++ rest) = found.length := by
    rw [← htag, commonLength_append, commonLength_eq_zero h, Nat.add_zero]
  have hshort : found.length < tagName.length := by
    rw [← htag, List.length_append, List.length_cons]
    omega
  show scanTag (found ++ rest) = _
  unfold scanTag
  simp only [hcommon]
  rw [if_pos hshort, Nat.add_comm 2]

/-- The letters of the tag that are still to come are read one by one. -/
theorem readTag_leads (letters found : List Char) (r : Reader) (htag : found ++ letters = tagName)
    (hpast : r.lexer.Past ('<' :: '?' :: found) line) :
    (r.readTag letters line).Leads
      (Lexer.mk ('<' :: '?' :: found ++ r.lexer.rest) line false).next := by
  have hgap (text : List Char) : gap? ('<' :: text) = some 0 :=
    gap?_of_ne (by decide) (by decide) (by decide) _
  have hread := r.read_behind
  induction letters generalizing found r with
  | nil =>
    rw [List.append_nil] at htag
    subst htag
    apply Reply.leads_run hread
    · intro d hd hblank
      apply Reply.leads_emitBefore hread hpast rfl (by decide)
      obtain ⟨tail, htail⟩ := List.head?_eq_some_iff.mp (hread.char.symm.trans hd)
      rw [htail]
      exact scan_tag hblank tail
    · intro hend
      apply Reply.leads_refuse hread
      cases hrest : r.lexer.rest with
      | nil =>
        rw [Lexer.fail_of_nil hrest .unseparatedTag 1 0, ← hrest]
        apply hpast.next_fault (hgap _)
        rw [hrest]
        rfl
      | cons d tail =>
        rw [hrest] at hend
        rw [← hrest]
        apply hpast.next_fault (hgap _)
        rw [hrest]
        show (if Text.isBlank d then Scan.token .openTag ('<' :: '?' :: tagName) else _) = _
        rw [if_neg (by simp [hend d rfl])]
        rfl
  | cons expected letters ih =>
    unfold Reader.readTag
    dsimp only
    split_ifs with hc
    · rw [hc] at hread
      rw [hread.rest]
      have hmore := ih (found ++ [expected]) r.read.2 (by rw [← htag]; simp) (hread.past hpast)
        r.read.2.read_behind
      simpa using hmore
    · rw [hread.char] at hc
      apply Reply.leads_refuse hread
      apply hpast.next_fault (hgap _)
      exact scan_malformedTag htag hc

theorem relational_agrees : Part.relational.Agrees := by
  rintro l c r lexeme line hread ⟨hpast, h⟩
  have htable : ∀ lexeme ∈ relationalLexemes,
      (String.ofList lexeme, if lexeme = ['<'] then TokenKind.lessThan else .greaterThan) ∈
          operators ∧
        (if lexeme = ['<'] then TokenKind.lessThan else .greaterThan) ≠ .closeTag ∧
        (∀ d ∈ goesOn lexeme, lexeme = ['<'] ∧ d = '?' ∨ d = '=') := by
    decide
  have hpairs : ∀ lexeme ∈ relationalLexemes,
      Completes (if lexeme = ['<'] then .lessEqual else .greaterEqual) (lexeme ++ ['=']) := by
    decide
  unfold react
  dsimp only
  split
  · rename_i hc
    obtain ⟨rfl, rfl⟩ := hc
    have htag := readTag_leads tagName [] r rfl (hread.past hpast)
    rw [Mode.outcome, hread.rest]
    exact htag
  rename_i htag
  split
  · rename_i hc
    subst hc
    exact leads_operatorBehind hread hpast (hpairs lexeme h)
  · rename_i hc
    obtain ⟨hentry, hkind, hgoes⟩ := htable lexeme h
    apply leads_operator hread hpast hentry hkind
    rintro d rfl hd
    obtain ⟨rfl, rfl⟩ | rfl := hgoes d hd
    · exact htag ⟨rfl, rfl⟩
    · exact hc rfl

theorem agrees (part : Part) : part.Agrees := by
  cases part with
  | word => exact word_agrees
  | dollar => exact dollar_agrees
  | varName => exact varName_agrees
  | question => exact question_agrees
  | equality => exact equality_agrees
  | arithmetic => exact arithmetic_agrees
  | logical first => exact logical_agrees first
  | relational => exact relational_agrees
  | integer => exact integer_agrees
  | float => exact float_agrees
  | string => exact string_agrees
  | escape => exact escape_agrees

end Part

end Ifj22
