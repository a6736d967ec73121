import Ifj22.Proofs.Token.Layout
import Mathlib.Data.List.Find
set_option autoImplicit false

/-!
# Token: the lexemes of each kind

`IsLexeme` says which lexemes the tokens of each kind have, without the lexer.  The lexer finds no
others (`Found.isLexeme`).  For the other direction, one lemma per kind says where its token ends:
a lexeme is found whole if what stands behind it cannot make more of it.
-/

namespace Ifj22

variable {behind lexeme rest text : List Char} {c : Char} {kind : TokenKind}
  {body name digits : List Char} {p : Char → Bool}

/-- The lexemes of the tokens of each kind. -/
inductive IsLexeme : TokenKind → List Char → Prop
  | word {word : List Char} (h : IsName word) :
    IsLexeme ((keyword? (String.ofList word)).getD .identifier) word
  | int {digits : List Char} (hne : digits ≠ []) (h : ∀ c ∈ digits, c.isDigit = true) :
    IsLexeme .intLiteral digits
  | float {whole fraction : List Char} (hne : whole ≠ []) (hw : ∀ c ∈ whole, c.isDigit = true)
    (hf : ∀ c ∈ fraction, c.isDigit = true) : IsLexeme .floatLiteral (whole ++ '.' :: fraction)
  | var {name : List Char} (h : IsName name) : IsLexeme .varName ('$' :: name)
  | string {body : List Char} (h : stringBody? (body ++ ['"']) = some body) :
    IsLexeme .stringLiteral body
  | tag : IsLexeme .openTag ('<' :: '?' :: tagName)
  | operator {entry : String × TokenKind} (h : entry ∈ operators) :
    IsLexeme entry.2 entry.1.toList

/-! ## What is found has the shape of its kind -/

/-- The closing quote of a string is found again, whatever stands behind it. -/
theorem stringBody?_append (h : stringBody? text = some body) (behind : List Char) :
    stringBody? (body ++ '"' :: behind) = some body := by
  fun_induction stringBody? text generalizing body with
  | case1 rest =>
    cases h
    rfl
  | case2 c rest ih =>
    obtain ⟨inner, hinner, rfl⟩ := Option.map_eq_some_iff.mp h
    show (stringBody? (inner ++ '"' :: behind)).map _ = _
    rw [ih hinner, Option.map_some]
  | case3 c rest hquote hslash ih =>
    obtain ⟨inner, hinner, rfl⟩ := Option.map_eq_some_iff.mp h
    rw [List.cons_append, stringBody?, ih hinner, Option.map_some]
    · exact hquote
    · -- a backslash that protects nothing would be the last character of the text
      rintro d rest' rfl -
      cases rest with
      | nil => simp [stringBody?] at hinner
      | cons x xs => exact hslash x xs rfl rfl
  | case4 => simp at h

/-- The lexer finds no other lexemes. -/
theorem Found.isLexeme (h : Found kind lexeme behind) : IsLexeme kind lexeme := by
  cases h with
  | word h => exact .word h
  | int hne h => exact .int hne h
  | float hne hw hf => exact .float hne hw hf
  | var h => exact .var h
  | string h => exact .string (stringBody?_append h [])
  | tag => exact .tag
  | operator h => exact .operator h

theorem lexeme_closeTag (h : IsLexeme .closeTag lexeme) : lexeme = ['?', '>'] := by
  generalize hkind : TokenKind.closeTag = kind at h
  cases h with
  | word h => exact absurd hkind.symm (wordKind_ne _ (by decide))
  | @operator entry h =>
    have hall : ∀ entry ∈ operators,
        TokenKind.closeTag = entry.2 → entry.1.toList = ['?', '>'] := by
      decide
    exact hall entry h hkind
  | _ => cases hkind

/-! ## Where a token ends -/

theorem endsRun_cons (h : p c = false) (behind : List Char) : EndsRun p (c :: behind) := by
  intro d hd
  cases hd
  exact h

theorem span_endsRun {run : List Char} (h : ∀ c ∈ run, p c = true) (hend : EndsRun p behind) :
    (run ++ behind).takeWhile p = run ∧ (run ++ behind).dropWhile p = behind := by
  rw [List.takeWhile_append_of_pos h, List.dropWhile_append_of_pos h]
  cases behind with
  | nil => simp
  | cons c behind => simp [hend c rfl]

/-! ### Words and numbers -/

theorem toNat_of_isNameChar (h : isNameChar c = true) : 48 ≤ c.toNat ∧ c.toNat ≤ 122 := by
  unfold isNameChar Char.isAlphanum Char.isAlpha Char.isUpper Char.isLower Char.isDigit at h
  simp only [Bool.or_eq_true, Bool.and_eq_true, decide_eq_true_eq, beq_iff_eq, ge_iff_le,
    UInt32.le_iff_toNat_le] at h
  rcases h with ((⟨hlo, hhi⟩ | ⟨hlo, hhi⟩) | ⟨hlo, hhi⟩) | rfl
  · exact ⟨Nat.le_trans (by decide) hlo, Nat.le_trans hhi (by decide)⟩
  · exact ⟨Nat.le_trans (by decide) hlo, Nat.le_trans hhi (by decide)⟩
  · exact ⟨Nat.le_trans (by decide) hlo, Nat.le_trans hhi (by decide)⟩
  · decide

theorem isBlank_of_isNameChar (h : isNameChar c = true) : Text.isBlank c = false := by
  rw [Bool.eq_false_iff]
  intro hblank
  have hc := toNat_of_isNameChar h
  obtain ⟨range, hmem, hlo, hhi⟩ := (Text.Ranges.has_iff _ _).mp hblank
  have hapart : ∀ range ∈ Text.blankRanges, range.2 < 48 ∨ 122 < range.1 := by decide
  have := hapart range hmem
  omega

theorem isNameChar_of_isDigit (h : c.isDigit = true) : isNameChar c = true := by
  simp [isNameChar, Char.isAlphanum, h]

theorem isNameStart_of_isDigit (h : c.isDigit = true) : isNameStart c = false := by
  simp only [Char.isDigit, Bool.and_eq_true, decide_eq_true_eq, ge_iff_le,
    UInt32.le_iff_toNat_le] at h
  have hdigit : c.val.toNat ≤ 57 := h.2
  rw [Bool.eq_false_iff]
  intro hstart
  unfold isNameStart Char.isAlpha Char.isUpper Char.isLower at hstart
  simp only [Bool.or_eq_true, Bool.and_eq_true, decide_eq_true_eq, beq_iff_eq, ge_iff_le,
    UInt32.le_iff_toNat_le] at hstart
  rcases hstart with (⟨hlo, _⟩ | ⟨hlo, _⟩) | rfl
  · exact absurd (Nat.le_trans hlo hdigit) (by decide)
  · exact absurd (Nat.le_trans hlo hdigit) (by decide)
  · exact absurd hdigit (by decide)

theorem isNameChar_of_isName (h : IsName name) : ∀ c ∈ name, isNameChar c = true := by
  cases name with
  | nil => exact h.elim
  | cons c rest =>
    intro x hx
    rcases List.mem_cons.mp hx with rfl | hx
    · exact isNameChar_of_isNameStart h.1
    · exact h.2 x hx

theorem comment_eq_absent (hhash : c ≠ '#') (hline : ¬ ['/', '/'] <+: c :: rest)
    (hblock : ¬ ['/', '*'] <+: c :: rest) : comment (c :: rest) = .absent := by
  unfold comment
  split
  · exact absurd (List.cons.inj ‹_›).1 hhash
  · rename_i tail heq
    exact absurd ⟨tail, heq.symm⟩ hline
  · rename_i tail heq
    exact absurd ⟨tail, heq.symm⟩ hblock
  · rfl

theorem gap?_of_ne (hblank : Text.isBlank c = false) (hhash : c ≠ '#') (hslash : c ≠ '/')
    (rest : List Char) : gap? (c :: rest) = some 0 := by
  rw [gap?_of_comment hblank, comment_eq_absent hhash]
  · exact fun h => hslash (List.cons_prefix_cons.mp h).1.symm
  · exact fun h => hslash (List.cons_prefix_cons.mp h).1.symm

/-- No gap starts with a character of a name. -/
theorem gap?_name (h : isNameChar c = true) (rest : List Char) : gap? (c :: rest) = some 0 := by
  apply gap?_of_ne (isBlank_of_isNameChar h)
  · rintro rfl
    exact absurd h (by decide)
  · rintro rfl
    exact absurd h (by decide)

theorem scan_word {word : List Char} (h : IsName word) (hend : EndsRun isNameChar behind) :
    gap? (word ++ behind) = some 0 ∧ scan (word ++ behind) =
      .token ((keyword? (String.ofList word)).getD .identifier) word := by
  have hall := isNameChar_of_isName h
  cases word with
  | nil => exact h.elim
  | cons c rest =>
    refine ⟨gap?_name (hall c (.head _)) _, ?_⟩
    rw [List.cons_append, scan, if_pos h.1, ← List.cons_append, scanWord,
      (span_endsRun hall hend).1]

theorem scan_digits (hne : digits ≠ []) (h : ∀ c ∈ digits, c.isDigit = true) (rest : List Char) :
    gap? (digits ++ rest) = some 0 ∧ scan (digits ++ rest) = scanNumber (digits ++ rest) := by
  cases digits with
  | nil => exact absurd rfl hne
  | cons c digits =>
    have hc := h c (.head _)
    refine ⟨gap?_name (isNameChar_of_isDigit hc) _, ?_⟩
    rw [List.cons_append, scan, if_neg (by simp [isNameStart_of_isDigit hc]), if_pos hc]

theorem scan_int (hne : digits ≠ []) (h : ∀ c ∈ digits, c.isDigit = true)
    (hend : EndsRun Char.isDigit behind) (hpoint : behind.head? ≠ some '.') :
    gap? (digits ++ behind) = some 0 ∧ scan (digits ++ behind) = .token .intLiteral digits := by
  obtain ⟨hgap, hscan⟩ := scan_digits hne h behind
  refine ⟨hgap, ?_⟩
  obtain ⟨htake, hdrop⟩ := span_endsRun h hend
  rw [hscan, scanNumber, htake, hdrop]
  split
  · exact absurd rfl hpoint
  · rfl

theorem scan_float {whole fraction : List Char} (hne : whole ≠ [])
    (hw : ∀ c ∈ whole, c.isDigit = true) (hf : ∀ c ∈ fraction, c.isDigit = true)
    (hend : EndsRun Char.isDigit behind) :
    gap? (whole ++ '.' :: fraction ++ behind) = some 0 ∧
      scan (whole ++ '.' :: fraction ++ behind) =
        .token .floatLiteral (whole ++ '.' :: fraction) := by
  rw [List.append_assoc, List.cons_append]
  obtain ⟨hgap, hscan⟩ := scan_digits hne hw ('.' :: (fraction ++ behind))
  refine ⟨hgap, ?_⟩
  have hpoint : EndsRun Char.isDigit ('.' :: (fraction ++ behind)) := endsRun_cons (by decide) _
  obtain ⟨htake, hdrop⟩ := span_endsRun hw hpoint
  rw [hscan, scanNumber, htake, hdrop]
  show Scan.token _ (whole ++ '.' :: (fraction ++ behind).takeWhile Char.isDigit) = _
  rw [(span_endsRun hf hend).1]

/-! ### Variables, strings and the opening tag -/

theorem scan_variable (h : IsName name) (hend : EndsRun isNameChar behind) :
    gap? ('$' :: (name ++ behind)) = some 0 ∧
      scan ('$' :: (name ++ behind)) = .token .varName ('$' :: name) := by
  have hall := isNameChar_of_isName h
  refine ⟨gap?_of_ne (by decide) (by decide) (by decide) _, ?_⟩
  cases name with
  | nil => exact h.elim
  | cons c rest =>
    show (if isNameStart c then
      Scan.token .varName ('$' :: (c :: rest ++ behind).takeWhile isNameChar) else _) = _
    rw [if_pos h.1, (span_endsRun hall hend).1]

/-- Inside a string the characters are read as they stand, whatever follows them. -/
def InString (text : List Char) : Prop :=
  ∀ behind, stringBody? (text ++ behind) = (stringBody? behind).map (text ++ ·)

theorem inString_nil : InString [] := by
  intro behind
  simp

theorem inString_char (hquote : c ≠ '"') (hslash : c ≠ '\\') : InString [c] := by
  intro behind
  rw [List.singleton_append, stringBody?]
  · rfl
  · exact hquote
  · intro d rest hc
    exact absurd hc hslash

theorem inString_escape (c : Char) : InString ['\\', c] := by
  intro behind
  rfl

theorem InString.append {text' : List Char} (h : InString text) (h' : InString text') :
    InString (text ++ text') := by
  intro behind
  rw [List.append_assoc, h, h', Option.map_map]
  congr 1
  funext body
  exact (List.append_assoc ..).symm

theorem InString.quote (h : InString text) (behind : List Char) :
    stringBody? (text ++ '"' :: behind) = some text := by
  rw [h]
  simp [stringBody?]

theorem scan_string (h : stringBody? (body ++ '"' :: behind) = some body) :
    gap? ('"' :: (body ++ '"' :: behind)) = some 0 ∧
      scan ('"' :: (body ++ '"' :: behind)) = .token .stringLiteral body := by
  refine ⟨gap?_of_ne (by decide) (by decide) (by decide) _, ?_⟩
  show scanString (body ++ '"' :: behind) = _
  rw [scanString, h]

theorem scan_tag (h : Text.isBlank c = true) (behind : List Char) :
    gap? ('<' :: '?' :: (tagName ++ c :: behind)) = some 0 ∧
      scan ('<' :: '?' :: (tagName ++ c :: behind)) = .token .openTag ('<' :: '?' :: tagName) := by
  refine ⟨gap?_of_ne (by decide) (by decide) (by decide) _, ?_⟩
  show (if Text.isBlank c then Scan.token .openTag ('<' :: '?' :: tagName) else _) = _
  rw [if_pos h]

/-! ### Operators -/

/-- What starts like an operator: the operators, the opening tag and the comments. -/
def marks : List (List Char) :=
  operators.map (·.1.toList) ++ [['<', '?'], ['/', '/'], ['/', '*']]

/-- The characters with which a mark goes on behind the given text. -/
def goesOn (text : List Char) : List Char :=
  marks.filterMap fun mark =>
    if text.isPrefixOf mark then (mark.drop text.length).head? else none

/-- A mark does not reach beyond a text that no mark goes on from. -/
theorem prefix_of_endsRun {mark : List Char} (hmark : mark ∈ marks)
    (hend : EndsRun (goesOn text).contains behind) (h : mark <+: text ++ behind) :
    mark <+: text := by
  rcases Nat.lt_or_ge text.length mark.length with hlt | hle
  · obtain ⟨more, rfl⟩ : text <+: mark :=
      List.prefix_of_prefix_length_le (List.prefix_append _ _) h (Nat.le_of_lt hlt)
    obtain ⟨tail, htail⟩ := (List.prefix_append_right_inj text).mp h
    cases more with
    | nil => simp at hlt
    | cons c more =>
      have hc : c ∈ goesOn text := by
        refine List.mem_filterMap.mpr ⟨_, hmark, ?_⟩
        rw [if_pos (List.isPrefixOf_iff_prefix.mpr (List.prefix_append _ _)), List.drop_left]
        rfl
      have := hend c (by rw [← htail]; rfl)
      rw [List.contains_eq_mem, decide_eq_false_iff_not] at this
      exact absurd hc this
  · exact List.prefix_of_prefix_length_le h (List.prefix_append _ _) hle

theorem operator?_of_endsRun (hend : EndsRun (goesOn text).contains behind) :
    operator? (text ++ behind) = operator? text := by
  refine List.find?_congr fun entry hentry => ?_
  rw [Bool.eq_iff_iff, List.isPrefixOf_iff_prefix, List.isPrefixOf_iff_prefix]
  have hmark : entry.1.toList ∈ marks := List.mem_append_left _ (List.mem_map_of_mem hentry)
  exact ⟨prefix_of_endsRun hmark hend, fun h => h.trans (List.prefix_append _ _)⟩

theorem operators_ne_nil : ∀ entry ∈ operators, entry.1.toList ≠ [] := by decide

theorem operators_front : ∀ entry ∈ operators, ∀ c ∈ entry.1.toList.head?,
    isNameStart c = false ∧ c.isDigit = false ∧ c ≠ '$' ∧ c ≠ '"' ∧ Text.isBlank c = false ∧
      c ≠ '#' := by
  decide

theorem scan_operator {entry : String × TokenKind} (h : entry ∈ operators)
    (hend : EndsRun (goesOn entry.1.toList).contains behind) :
    gap? (entry.1.toList ++ behind) = some 0 ∧
      scan (entry.1.toList ++ behind) = .token entry.2 entry.1.toList := by
  have hfront := operators_front entry h
  have hfound : operator? (entry.1.toList ++ behind) = some entry := by
    rw [operator?_of_endsRun hend]
    have hself : ∀ entry ∈ operators, operator? entry.1.toList = some entry := by decide
    exact hself entry h
  have hmarks : ∀ mark ∈ [['<', '?'], ['/', '/'], ['/', '*']],
      ¬ mark <+: entry.1.toList ++ behind := by
    intro mark hmark hprefix
    have hapart : ∀ mark ∈ [['<', '?'], ['/', '/'], ['/', '*']], ∀ entry ∈ operators,
        ¬ mark <+: entry.1.toList := by decide
    exact hapart mark hmark entry h (prefix_of_endsRun (List.mem_append_right _ hmark) hend hprefix)
  cases htext : entry.1.toList with
  | nil => exact absurd htext (operators_ne_nil entry h)
  | cons c rest =>
    rw [htext] at hfront hfound hmarks
    obtain ⟨hname, hdigit, hdollar, hquote, hblank, hhash⟩ := hfront c rfl
    rw [List.cons_append] at hfound hmarks ⊢
    have htag : ¬ (c = '<' ∧ (rest ++ behind).head? = some '?') := by
      rintro ⟨rfl, hhead⟩
      obtain ⟨tail, htail⟩ := List.head?_eq_some_iff.mp hhead
      exact hmarks ['<', '?'] (by simp) ⟨tail, by rw [htail]; rfl⟩
    refine ⟨?_, ?_⟩
    · rw [gap?_of_comment hblank, comment_eq_absent hhash]
      · exact hmarks ['/', '/'] (by simp)
      · exact hmarks ['/', '*'] (by simp)
    · rw [scan, if_neg (by simp [hname]), if_neg (by simp [hdigit]), if_neg hdollar, if_neg hquote,
        if_neg htag, hfound]
      dsimp only
      rw [htext]

theorem scan_spelled {spelling : List Char} (h : (String.ofList spelling, kind) ∈ operators)
    (hend : EndsRun (goesOn spelling).contains behind) :
    gap? (spelling ++ behind) = some 0 ∧ scan (spelling ++ behind) = .token kind spelling := by
  have hfound := @scan_operator behind (String.ofList spelling, kind) h
  rw [String.toList_ofList] at hfound
  exact hfound hend

theorem scan_of_operator?_none (hname : isNameStart c = false) (hdigit : c.isDigit = false)
    (hdollar : c ≠ '$') (hquote : c ≠ '"') (htag : c ≠ '<') (h : operator? (c :: rest) = none) :
    scan (c :: rest) =
      if c = '&' ∨ c = '|' then .fault (.unpaired c) 2 else .fault (.strayChar c) 1 := by
  rw [scan, if_neg (by simp [hname]), if_neg (by simp [hdigit]), if_neg hdollar, if_neg hquote,
    if_neg fun hopen => htag hopen.1, h]

/-- A character that exists doubled only, with another one behind it. -/
theorem scan_unpaired (hc : c ∈ ['&', '|']) (hend : rest.head? ≠ some c) :
    gap? (c :: rest) = some 0 ∧ scan (c :: rest) = .fault (.unpaired c) 2 := by
  have htable : ∀ c ∈ ['&', '|'], isNameStart c = false ∧ c.isDigit = false ∧ c ≠ '$' ∧ c ≠ '"' ∧
      c ≠ '<' ∧ Text.isBlank c = false ∧ c ≠ '#' ∧ c ≠ '/' ∧ operator? [c] = none ∧
      goesOn [c] = [c] := by
    decide
  obtain ⟨hname, hdigit, hdollar, hquote, htag, hblank, hhash, hslash, hnone, hgoes⟩ := htable c hc
  have hrun : EndsRun (goesOn [c]).contains rest := by
    intro d hd
    have hne : d ≠ c := by
      rintro rfl
      exact hend hd
    simpa [hgoes] using hne
  have hsame : operator? (c :: rest) = none := (operator?_of_endsRun hrun).trans hnone
  refine ⟨gap?_of_ne hblank hhash hslash _, ?_⟩
  rw [scan_of_operator?_none hname hdigit hdollar hquote htag hsame, if_pos (by simpa using hc)]

/-! ### The step of the lexer -/

/-- The next token, if it stands at the front. -/
theorem Lexer.next_front (line : Nat) (hgap : gap? (tokenText kind lexeme ++ behind) = some 0)
    (hscan : scan (tokenText kind lexeme ++ behind) = .token kind lexeme) :
    (Lexer.mk (tokenText kind lexeme ++ behind) line false).next =
      (.ok ⟨kind, String.ofList lexeme, line⟩,
        ⟨behind, line + (tokenText kind lexeme).count '\n', kind == .closeTag⟩) := by
  have hstart : advance ⟨tokenText kind lexeme ++ behind, line, false⟩ 0 =
      ⟨tokenText kind lexeme ++ behind, line, false⟩ := rfl
  show nextOpen _ = _
  rw [nextOpen, hgap]
  simp only [hstart, hscan]
  simp only [advance, List.drop_left, List.take_left]

theorem Lexer.next_fault {fault : LexicalFault} {n : Nat} (line : Nat) (hgap : gap? text = some 0)
    (hscan : scan text = .fault fault n) :
    (Lexer.mk text line false).next = (Lexer.mk text line false).fail fault n := by
  have hstart : advance ⟨text, line, false⟩ 0 = ⟨text, line, false⟩ := rfl
  show nextOpen _ = _
  rw [nextOpen, hgap]
  simp only [hstart, hscan]

theorem Lexer.next_nil {l : Lexer} (hopen : l.closed = false) (h : l.rest = []) :
    l.next = (.ok ⟨.eof, "", l.line⟩, l) := by
  obtain ⟨rest, line, closed⟩ := l
  obtain rfl : rest = [] := h
  obtain rfl : closed = false := hopen
  have hgap : gap? (tokenText .eof [] ++ []) = some 0 := by
    show gap? [] = some 0
    rw [gap?]
  exact next_front line hgap rfl

/-- Nothing but a newline follows the closing tag. -/
theorem Lexer.nextClosed_of_ne {l : Lexer} (h : l.rest = c :: rest) (hc : c ≠ '\n') :
    l.nextClosed = l.fail .trailingText 1 := by
  rw [nextClosed, h]
  split
  · rename_i heq
    cases heq
  · rename_i heq
    exact absurd (List.cons.inj heq).1 hc
  · rename_i heq
    exact absurd (List.cons.inj heq).1 hc
  · rfl

end Ifj22
