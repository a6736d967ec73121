import Ifj22.Literal
import Ifj22.Proofs.Token.Respaced
set_option autoImplicit false

/-!
# Literal: every text has a string literal

A text is written as a string literal by protecting its backslashes and quotes with a backslash and
by writing NUL, which would end the source, as an octal escape.  Two readers have to agree on such a
literal: the lexer, which looks for the closing quote, and `decode`, which reads the escapes to
bytes and the bytes as UTF-8.  Both invert the writing (`Lexer.next_quote`).
-/

namespace Ifj22

/-! ## The bytes of a text -/

namespace Text

variable {b a d : UInt8}

theorem within_iff {lo hi : Nat} : within b lo hi = true ↔ lo ≤ b.toNat ∧ b.toNat ≤ hi := by
  simp [within]

/-- Only four leading bytes restrict the byte behind them further. -/
theorem within_secondByte {lead : Nat} (hb : 0x80 ≤ b.toNat ∧ b.toNat ≤ 0xBF)
    (hE0 : lead = 0xE0 → 0xA0 ≤ b.toNat) (hED : lead = 0xED → b.toNat ≤ 0x9F)
    (hF0 : lead = 0xF0 → 0x90 ≤ b.toNat) (hF4 : lead = 0xF4 → b.toNat ≤ 0x8F) :
    within b (secondByte lead).1 (secondByte lead).2 = true := by
  rw [within_iff]
  unfold secondByte
  split
  · exact ⟨hE0 ‹_›, hb.2⟩
  split
  · exact ⟨hb.1, hED ‹_›⟩
  split
  · exact ⟨hF0 ‹_›, hb.2⟩
  split
  · exact ⟨hb.1, hF4 ‹_›⟩
  · exact hb

theorem ofNat_of_eq {c : Char} {n : Nat} (h : n = c.val.toNat) : Char.ofNat n = c := by
  rw [h]
  exact Char.ofNat_toNat c

theorem readSequence_one {c : Char} (rest : List UInt8) (ha : a.toNat = c.val.toNat)
    (hhi : c.val.toNat ≤ 127) : readSequence a rest = (some c, 0) := by
  unfold readSequence
  simp only [ofNat_of_eq ha]
  rw [if_pos (by omega)]

theorem readSequence_two {c : Char} (rest : List UInt8)
    (ha : a.toNat = c.val.toNat / 64 % 32 + 192) (hb : b.toNat = c.val.toNat % 64 + 128)
    (hlo : 127 < c.val.toNat) (hhi : c.val.toNat ≤ 2047) :
    readSequence a (b :: rest) = (some c, 1) := by
  have hcode : (a.toNat - 0xC0) * 64 + payload b = c.val.toNat := by
    unfold payload
    omega
  have hsecond : isContinuation b = true := within_iff.mpr (by omega)
  unfold readSequence
  simp only [ofNat_of_eq hcode, hsecond, if_true]
  rw [if_neg (by omega), if_neg (by omega), if_pos (by omega)]

theorem readSequence_three {c : Char} (rest : List UInt8)
    (ha : a.toNat = c.val.toNat / 4096 % 16 + 224) (hb : b.toNat = c.val.toNat / 64 % 64 + 128)
    (hd : d.toNat = c.val.toNat % 64 + 128) (hlo : 2047 < c.val.toNat) (hhi : c.val.toNat ≤ 65535) :
    readSequence a (b :: d :: rest) = (some c, 2) := by
  -- no character is a surrogate, so the restriction behind the lead byte ED is met
  have hvalid : c.val.toNat < 0xD800 ∨ 0xDFFF < c.val.toNat ∧ c.val.toNat < 0x110000 := c.valid
  have hcode : ((a.toNat - 0xE0) * 64 + payload b) * 64 + payload d = c.val.toNat := by
    unfold payload
    omega
  have hsecond : within b (secondByte a.toNat).1 (secondByte a.toNat).2 = true :=
    within_secondByte (by omega) (by omega) (by omega) (by omega) (by omega)
  have hthird : isContinuation d = true := within_iff.mpr (by omega)
  unfold readSequence
  simp only [ofNat_of_eq hcode, hsecond, hthird, if_true]
  rw [if_neg (by omega), if_neg (by omega), if_neg (by omega), if_pos (by omega)]

theorem readSequence_four {e : UInt8} {c : Char} (rest : List UInt8)
    (ha : a.toNat = c.val.toNat / 262144 % 8 + 240) (hb : b.toNat = c.val.toNat / 4096 % 64 + 128)
    (hd : d.toNat = c.val.toNat / 64 % 64 + 128) (he : e.toNat = c.val.toNat % 64 + 128)
    (hlo : 65535 < c.val.toNat) : readSequence a (b :: d :: e :: rest) = (some c, 3) := by
  have hvalid : c.val.toNat < 0xD800 ∨ 0xDFFF < c.val.toNat ∧ c.val.toNat < 0x110000 := c.valid
  have hcode : (((a.toNat - 0xF0) * 64 + payload b) * 64 + payload d) * 64 + payload e =
      c.val.toNat := by
    unfold payload
    omega
  have hsecond : within b (secondByte a.toNat).1 (secondByte a.toNat).2 = true :=
    within_secondByte (by omega) (by omega) (by omega) (by omega) (by omega)
  have hthird : isContinuation d = true := within_iff.mpr (by omega)
  have hfourth : isContinuation e = true := within_iff.mpr (by omega)
  unfold readSequence
  simp only [ofNat_of_eq hcode, hsecond, hthird, hfourth, if_true]
  rw [if_neg (by omega), if_neg (by omega), if_neg (by omega), if_neg (by omega), if_pos (by omega)]

/-- The bytes of a character read as one sequence. -/
theorem readSequence_utf8 (c : Char) :
    ∃ lead tail, utf8 c = lead :: tail ∧
      ∀ rest, readSequence lead (tail ++ rest) = (some c, tail.length) := by
  have hbyte {n : Nat} (h : n < 256) : (UInt8.ofNat n).toNat = n := by
    rw [UInt8.toNat_ofNat']
    exact Nat.mod_eq_of_lt h
  unfold utf8 String.utf8EncodeChar
  dsimp only
  split
  · exact ⟨_, _, rfl, fun rest => readSequence_one _ (hbyte (by omega)) ‹_›⟩
  split
  · exact ⟨_, _, rfl, fun rest =>
      readSequence_two _ (hbyte (by omega)) (hbyte (by omega)) (by omega) ‹_›⟩
  split
  · exact ⟨_, _, rfl, fun rest => readSequence_three _ (hbyte (by omega)) (hbyte (by omega))
      (hbyte (by omega)) (by omega) ‹_›⟩
  · exact ⟨_, _, rfl, fun rest => readSequence_four _ (hbyte (by omega)) (hbyte (by omega))
      (hbyte (by omega)) (hbyte (by omega)) (by omega)⟩

theorem ofUtf8Lossy_utf8_append (c : Char) (rest : List UInt8) :
    ofUtf8Lossy (utf8 c ++ rest) = c :: ofUtf8Lossy rest := by
  obtain ⟨lead, tail, hbytes, hread⟩ := readSequence_utf8 c
  rw [hbytes, List.cons_append, ofUtf8Lossy, hread, List.drop_left, Option.getD_some]

end Text

namespace Literal

/-- The bytes of a text read back as the text. -/
theorem ofUtf8Lossy_textBytes (text : List Char) : Text.ofUtf8Lossy (textBytes text) = text := by
  induction text with
  | nil => rw [textBytes, List.flatMap_nil, Text.ofUtf8Lossy]
  | cons c text ih =>
    rw [textBytes, List.flatMap_cons, Text.ofUtf8Lossy_utf8_append]
    exact congrArg (c :: ·) ih

/-! ## Writing a text -/

/-- A character as it is written between the quotes of a string literal. -/
def written (c : Char) : List Char :=
  if c = '\\' then ['\\', '\\']
  else if c = '"' then ['\\', '"']
  else if c = '\x00' then ['\\', '0', '0', '0']
  else [c]

/-- A text as it is written between the quotes of a string literal. -/
def body (s : String) : String := String.ofList (s.toList.flatMap written)

/-- The string literal of a text. -/
def quote (s : String) : String := "\"" ++ body s ++ "\""

/-- A character is written in one of four ways. -/
theorem written_cases (c : Char) :
    c = '\\' ∧ written c = ['\\', '\\'] ∨ c = '"' ∧ written c = ['\\', '"'] ∨
      c = '\x00' ∧ written c = ['\\', '0', '0', '0'] ∨
      (c ≠ '\\' ∧ c ≠ '"' ∧ c ≠ '\x00') ∧ written c = [c] := by
  unfold written
  split
  · exact .inl ⟨‹_›, rfl⟩
  split
  · exact .inr (.inl ⟨‹_›, rfl⟩)
  split
  · exact .inr (.inr (.inl ⟨‹_›, rfl⟩))
  · exact .inr (.inr (.inr ⟨⟨‹_›, ‹_›, ‹_›⟩, rfl⟩))

theorem bytes_escape (c : Char) (rest : List Char) :
    bytes ('\\' :: c :: rest) = (escape c rest).1 ++ bytes (rest.drop (escape c rest).2) := by
  rw [bytes]

theorem bytes_of_ne {c : Char} (hc : c ≠ '\\') (rest : List Char) :
    bytes (c :: rest) = Text.utf8 c ++ bytes rest := by
  rw [bytes]
  rintro d rest' rfl
  exact absurd rfl hc

theorem bytes_written_append (c : Char) (rest : List Char) :
    bytes (written c ++ rest) = Text.utf8 c ++ bytes rest := by
  obtain ⟨rfl, hw⟩ | ⟨rfl, hw⟩ | ⟨rfl, hw⟩ | ⟨⟨hc, -⟩, hw⟩ := written_cases c
  · rw [hw]
    exact bytes_escape '\\' rest
  · rw [hw]
    exact bytes_escape '"' rest
  · -- the escape takes three digits and no more, whatever stands behind it
    rw [hw]
    exact bytes_escape '0' ('0' :: '0' :: rest)
  · rw [hw]
    exact bytes_of_ne hc rest

theorem bytes_flatMap_written (text : List Char) :
    bytes (text.flatMap written) = textBytes text := by
  induction text with
  | nil => rw [List.flatMap_nil, bytes, textBytes, List.flatMap_nil]
  | cons c text ih =>
    rw [List.flatMap_cons, bytes_written_append, ih, textBytes, textBytes, List.flatMap_cons]

/-- Decoding inverts the writing of a text. -/
theorem decode_body (s : String) : decode (body s) = s := by
  rw [decode, body, String.toList_ofList, bytes_flatMap_written, ofUtf8Lossy_textBytes,
    String.ofList_toList]

/-! ## Finding the closing quote -/

theorem inString_written (c : Char) : InString (written c) := by
  obtain ⟨rfl, hw⟩ | ⟨rfl, hw⟩ | ⟨rfl, hw⟩ | ⟨⟨hslash, hquote, -⟩, hw⟩ := written_cases c
  · rw [hw]
    exact inString_escape '\\'
  · rw [hw]
    exact inString_escape '"'
  · have hzero : InString ['0'] := inString_char (by decide) (by decide)
    rw [hw]
    exact (inString_escape '0').append (hzero.append hzero)
  · rw [hw]
    exact inString_char hquote hslash

theorem inString_flatMap_written (text : List Char) : InString (text.flatMap written) := by
  induction text with
  | nil => exact inString_nil
  | cons c text ih =>
    rw [List.flatMap_cons]
    exact (inString_written c).append ih

/-- Writing a text neither adds nor removes a newline. -/
theorem count_flatMap_written (text : List Char) :
    (text.flatMap written).count '\n' = text.count '\n' := by
  induction text with
  | nil => rfl
  | cons c text ih =>
    rw [List.flatMap_cons, List.count_append, ih, List.count_cons, Nat.add_comm]
    congr 1
    obtain ⟨rfl, hw⟩ | ⟨rfl, hw⟩ | ⟨rfl, hw⟩ | ⟨-, hw⟩ := written_cases c
    · rw [hw]
      rfl
    · rw [hw]
      rfl
    · rw [hw]
      rfl
    · rw [hw, List.count_singleton]

/-- No NUL is written. -/
theorem ne_nul_of_mem_written {text : List Char} {c : Char} (h : c ∈ text.flatMap written) :
    c ≠ '\x00' := by
  obtain ⟨d, -, hd⟩ := List.mem_flatMap.mp h
  rintro rfl
  obtain ⟨rfl, hw⟩ | ⟨rfl, hw⟩ | ⟨rfl, hw⟩ | ⟨⟨-, -, hnul⟩, hw⟩ := written_cases d
  · rw [hw] at hd
    exact absurd hd (by decide)
  · rw [hw] at hd
    exact absurd hd (by decide)
  · rw [hw] at hd
    exact absurd hd (by decide)
  · rw [hw] at hd
    exact hnul (List.mem_singleton.mp hd).symm

theorem toList_quote (s : String) :
    (quote s).toList = tokenText .stringLiteral (s.toList.flatMap written) := by
  simp [quote, body, tokenText]

end Literal

namespace Lexer

open Literal

/-- A lexer before a string literal takes exactly the literal. -/
theorem next_before_quote (s : String) (behind : List Char) (line : Nat) :
    (Lexer.mk ((quote s).toList ++ behind) line false).next =
      (.ok ⟨.stringLiteral, body s, line⟩, ⟨behind, line + s.toList.count '\n', false⟩) := by
  have htext : tokenText .stringLiteral (s.toList.flatMap written) ++ behind =
      '"' :: (s.toList.flatMap written ++ '"' :: behind) := by
    rw [tokenText, if_pos rfl, List.cons_append, List.append_assoc, List.singleton_append]
  have hcount : (tokenText .stringLiteral (s.toList.flatMap written)).count '\n' =
      s.toList.count '\n' := by
    rw [tokenText, if_pos rfl, List.count_cons_of_ne (by decide), List.count_append,
      count_flatMap_written]
    rfl
  obtain ⟨hgap, hscan⟩ := scan_string ((inString_flatMap_written s.toList).quote behind)
  rw [← htext] at hgap hscan
  rw [toList_quote, next_front line hgap hscan, hcount]
  rfl

/-- Every text has a string literal.  Whatever stands behind it, the lexer takes the literal as one
token up to its closing quote, and the value of that token is the text. -/
theorem next_quote (s more : String) :
    (∀ (line : Nat) (behind : List Char), (Lexer.mk ((quote s).toList ++ behind) line false).next =
      (.ok ⟨.stringLiteral, body s, line⟩, ⟨behind, line + s.toList.count '\n', false⟩)) ∧
    (ofSource (quote s ++ more)).next =
      (.ok ⟨.stringLiteral, body s, 1⟩,
        ⟨more.toList.takeWhile (· != '\x00'), 1 + s.toList.count '\n', false⟩) ∧
    decode (body s) = s := by
  have hsource : ofSource (quote s ++ more) =
      ⟨(quote s).toList ++ more.toList.takeWhile (· != '\x00'), 1, false⟩ := by
    rw [ofSource, String.toList_append, List.takeWhile_append_of_pos]
    intro c hc
    rw [toList_quote, tokenText, if_pos rfl, List.mem_cons, List.mem_append,
      List.mem_singleton] at hc
    rcases hc with rfl | hc | rfl
    · rfl
    · exact bne_iff_ne.mpr (ne_nul_of_mem_written hc)
    · rfl
  refine ⟨fun line behind => next_before_quote s behind line, ?_, decode_body s⟩
  rw [hsource]
  exact next_before_quote s _ 1

end Lexer

end Ifj22
