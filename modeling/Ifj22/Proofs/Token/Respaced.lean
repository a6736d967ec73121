import Ifj22.Proofs.Token.Lexeme
import Mathlib.Data.List.TakeWhile
set_option autoImplicit false

/-!
# Token: reading the tokens of a text again

What a token is does not depend on what stood around it.  A blank ends every token, so each lexeme
is found again in front of one (`scan_lexeme`).  The tokens of a text, written with single blanks
between them, are therefore cut into the same tokens (`tokenize_respaced`).
-/

namespace Ifj22

variable {l : Lexer} {t : Token} {tokens : List Token} {l' : Lexer}

theorem goesOn_blank (text : List Char) : (goesOn text).contains ' ' = false := by
  rw [List.contains_eq_mem, decide_eq_false_iff_not]
  intro h
  obtain ⟨mark, hmark, hnext⟩ := List.mem_filterMap.mp h
  have hplain : ∀ mark ∈ marks, ' ' ∉ mark := by decide
  apply hplain mark hmark
  split at hnext
  · exact List.mem_of_mem_drop (List.mem_of_head? hnext)
  · cases hnext

/-- A lexeme in front of a blank is found again. -/
theorem scan_lexeme {kind : TokenKind} {lexeme : List Char} (h : IsLexeme kind lexeme)
    (behind : List Char) :
    gap? (tokenText kind lexeme ++ ' ' :: behind) = some 0 ∧
      scan (tokenText kind lexeme ++ ' ' :: behind) = .token kind lexeme := by
  cases h with
  | word h =>
    rw [tokenText_word]
    exact scan_word h (endsRun_cons (by decide) behind)
  | int hne h => exact scan_int hne h (endsRun_cons (by decide) behind) (by simp)
  | float hne hw hf => exact scan_float hne hw hf (endsRun_cons (by decide) behind)
  | var h => exact scan_variable h (endsRun_cons (by decide) behind)
  | @string body h =>
    have hagain := scan_string (stringBody?_append h (' ' :: behind))
    rw [tokenText, if_pos rfl, List.cons_append, List.append_assoc]
    exact hagain
  | tag => exact scan_tag (by decide) behind
  | operator h =>
    have hall : ∀ entry ∈ operators, entry.2 ≠ .stringLiteral := by decide
    rw [tokenText_of_ne (hall _ h)]
    exact scan_operator h (endsRun_cons (goesOn_blank _) behind)

/-! ## Token lists -/

/-- The texts of the tokens with single blanks between them, and one behind the last unless that is
the closing tag. -/
def respaced (tokens : List Token) : String :=
  String.ofList ([' '].intercalate (tokens.map fun t => t.text.toList) ++
    if tokens.getLast?.map (·.kind) = some .closeTag then [] else [' '])

theorem respaced_nil : (respaced []).toList = [' '] := by
  simp [respaced]

theorem respaced_singleton (t : Token) : (respaced [t]).toList =
    t.text.toList ++ if t.kind = .closeTag then [] else [' '] := by
  simp [respaced]

theorem respaced_cons (t u : Token) (tokens : List Token) :
    (respaced (t :: u :: tokens)).toList =
      t.text.toList ++ ' ' :: (respaced (u :: tokens)).toList := by
  simp [respaced, List.intercalate_cons_cons, List.getLast?_cons_cons]

namespace Lexer

theorem tokens_blank (text : List Char) (line : Nat) :
    (Lexer.mk (' ' :: text) line false).tokens = (Lexer.mk text line false).tokens := by
  unfold tokens
  rw [← next_blank (l := ⟨' ' :: text, line, false⟩) rfl rfl (by decide)]
  rfl

theorem tokens_of_eof (h : l.next = (.ok t, l')) (ht : t.kind = .eof) : l.tokens = .ok [t] := by
  unfold tokens
  rw [h]
  exact dif_pos ht

theorem tokens_nil (line : Nat) (closed : Bool) :
    (Lexer.mk [] line closed).tokens = .ok [⟨.eof, "", line⟩] := by
  cases closed with
  | true => exact tokens_of_eof rfl rfl
  | false => exact tokens_of_eof (next_nil rfl rfl) rfl

/-- A token at the front comes before the tokens behind it. -/
theorem tokens_of_token (h : l.next = (.ok t, l')) (ht : t.kind ≠ .eof) :
    l.tokens = l'.tokens.map (t :: ·) := by
  rw [tokens]
  split
  · rename_i heq
    cases h.symm.trans heq
  · rename_i heq
    obtain ⟨rfl, rfl⟩ : _ ∧ _ := by simpa using h.symm.trans heq
    exact dif_neg ht

theorem tokens_of_next {behind : List Token} (h : l.next = (.ok t, l')) (ht : t.kind ≠ .eof)
    (hbehind : l'.tokens = .ok behind) : l.tokens = .ok (t :: behind) := by
  rw [tokens_of_token h ht, hbehind]
  rfl

/-- What the next token is: the end, or a token with a lexeme of its kind. -/
theorem next_lexeme (h : l.next = (.ok t, l')) :
    t.kind = .eof ∧ t.lexeme = "" ∨ t.kind ≠ .eof ∧ IsLexeme t.kind t.lexeme.toList := by
  obtain hends | ⟨gap, hfinds⟩ := next_ok h
  · exact .inl ⟨hends.kind, hends.lexeme⟩
  · exact .inr ⟨hfinds.found.ne_eof, hfinds.found.isLexeme⟩

/-- The tokens of a text have lexemes of their kinds, up to the end. -/
theorem tokens_lexemes (h : l.tokens = .ok tokens) :
    ∃ init last, tokens = init ++ [last] ∧ last.kind = .eof ∧ last.lexeme = "" ∧
      ∀ t ∈ init, t.kind ≠ .eof ∧ IsLexeme t.kind t.lexeme.toList := by
  induction hn : l.rest.length using Nat.strongRecOn generalizing l tokens with
  | ind n ih =>
    obtain ⟨t, l', hnext, ⟨ht, rfl⟩ | ⟨ht, behind, hbehind, rfl⟩⟩ := tokens_eq_ok h
    · obtain ⟨_, hlexeme⟩ | ⟨hne, _⟩ := next_lexeme hnext
      · exact ⟨[], t, rfl, ht, hlexeme, by simp⟩
      · exact absurd ht hne
    · obtain ⟨init, last, rfl, hlast, hlexeme, hinit⟩ :=
        ih _ (hn ▸ next_shortens hnext ht) hbehind rfl
      obtain ⟨heof, _⟩ | hfirst := next_lexeme hnext
      · exact absurd heof ht
      · refine ⟨t :: init, last, rfl, hlast, hlexeme, ?_⟩
        intro u hu
        rcases List.mem_cons.mp hu with rfl | hu
        · exact hfirst
        · exact hinit u hu

end Lexer

/-- The characters of the tokens are characters of the text. -/
theorem LaidOut.mem {text : List Char} (h : LaidOut tokens text) :
    ∀ t ∈ tokens, ∀ c ∈ t.text.toList, c ∈ text := by
  induction h with
  | done => simp
  | token _ _ _ ih =>
    intro u hu c hc
    rcases List.mem_cons.mp hu with rfl | hu
    · exact List.mem_append_right _ (List.mem_append_left _ hc)
    · exact List.mem_append_right _ (List.mem_append_right _ (ih u hu c hc))
  | close =>
    intro u hu c hc
    obtain rfl := List.mem_singleton.mp hu
    exact List.mem_append_right _ (List.mem_append_left _ hc)

/-- The characters of the tokens and the blanks are all there is. -/
theorem mem_respaced {c : Char} (h : c ∈ (respaced tokens).toList) :
    c = ' ' ∨ ∃ t ∈ tokens, c ∈ t.text.toList := by
  induction tokens with
  | nil =>
    rw [respaced_nil] at h
    exact .inl (List.mem_singleton.mp h)
  | cons t tokens ih =>
    cases tokens with
    | nil =>
      rw [respaced_singleton] at h
      rcases List.mem_append.mp h with h | h
      · exact .inr ⟨t, by simp, h⟩
      · split at h
        · simp at h
        · exact .inl (List.mem_singleton.mp h)
    | cons u tokens =>
      rw [respaced_cons] at h
      rcases List.mem_append.mp h with h | h
      · exact .inr ⟨t, by simp, h⟩
      · rcases List.mem_cons.mp h with h | h
        · exact .inl h
        · obtain h | ⟨v, hv, h⟩ := ih h
          · exact .inl h
          · exact .inr ⟨v, List.mem_cons_of_mem _ hv, h⟩

/-- Behind a token that is not the closing tag stands a blank, and the tokens behind it. -/
theorem respaced_cons_behind (ht : t.kind ≠ .closeTag) (tokens : List Token) :
    ∃ behind, (respaced (t :: tokens)).toList = t.text.toList ++ ' ' :: behind ∧
      ∀ line, (Lexer.mk (' ' :: behind) line false).tokens =
        (Lexer.mk (respaced tokens).toList line false).tokens := by
  cases tokens with
  | nil =>
    rw [respaced_singleton, if_neg ht, respaced_nil]
    exact ⟨[], rfl, fun _ => rfl⟩
  | cons u tokens =>
    rw [respaced_cons]
    exact ⟨_, rfl, Lexer.tokens_blank _⟩

/-- The tokens of a text are found again where single blanks stand between them. -/
theorem LaidOut.tokens_respaced {text : List Char} (h : LaidOut tokens text)
    (hlexeme : ∀ t ∈ tokens, t.kind ≠ .eof ∧ IsLexeme t.kind t.lexeme.toList) (line : Nat) :
    ∃ again, (Lexer.mk (respaced tokens).toList line false).tokens = .ok again ∧
      again.map (fun t => (t.kind, t.lexeme)) =
        tokens.map (fun t => (t.kind, t.lexeme)) ++ [(.eof, "")] := by
  induction h generalizing line with
  | done =>
    rw [respaced_nil, Lexer.tokens_blank]
    exact ⟨_, Lexer.tokens_nil line false, rfl⟩
  | @token t tokens gap text ht _ _ ih =>
    obtain ⟨hne, ht'⟩ := hlexeme t (.head _)
    obtain ⟨behind, htext, hbehind⟩ := respaced_cons_behind ht tokens
    rw [Token.text, String.toList_ofList] at htext
    obtain ⟨hgap, hscan⟩ := scan_lexeme ht' behind
    have hnext := Lexer.next_front line hgap hscan
    rw [beq_false_of_ne ht] at hnext
    obtain ⟨again, hagain, hsame⟩ := ih (fun u hu => hlexeme u (List.mem_cons_of_mem _ hu)) _
    rw [htext]
    refine ⟨_, Lexer.tokens_of_next hnext hne ((hbehind _).trans hagain), ?_⟩
    rw [List.map_cons, List.map_cons, hsame, String.ofList_toList]
    rfl
  | @close t gap behind ht _ _ =>
    obtain ⟨hne, ht'⟩ := hlexeme t (.head _)
    rw [ht] at ht'
    have hlex : t.lexeme.toList = ['?', '>'] := lexeme_closeTag ht'
    have htext : (respaced [t]).toList = tokenText .closeTag ['?', '>'] ++ [] := by
      rw [respaced_singleton, if_pos ht, Token.text, String.toList_ofList, ht, hlex]
    have hgap : gap? (tokenText .closeTag ['?', '>'] ++ []) = some 0 :=
      gap?_of_ne (by decide) (by decide) (by decide) _
    have hnext := Lexer.next_front line hgap rfl
    rw [htext]
    refine ⟨_, Lexer.tokens_of_next hnext (by simp) (Lexer.tokens_nil _ _), ?_⟩
    rw [← hlex, ← ht, String.ofList_toList]
    rfl

/-- The tokens of a text, written with single blanks between them, are cut into the same tokens. -/
theorem tokenize_respaced {source : String} {tokens : List Token}
    (h : tokenize source = .ok tokens) :
    ∃ again, tokenize (respaced (tokens.filter (·.kind ≠ .eof))) = .ok again ∧
      again.map (fun t => (t.kind, t.lexeme)) = tokens.map (fun t => (t.kind, t.lexeme)) := by
  obtain ⟨init, last, htokens, hlast, hempty, hinit⟩ := Lexer.tokens_lexemes h
  have hfilter : tokens.filter (·.kind ≠ .eof) = init := by
    have hself : init.filter (·.kind ≠ .eof) = init :=
      List.filter_eq_self.mpr fun t ht => by simpa using (hinit t ht).1
    rw [htokens, List.filter_append, hself]
    simp [hlast]
  have hlaid : LaidOut (tokens.filter (·.kind ≠ .eof))
      (source.toList.takeWhile (· != '\x00')) := Lexer.tokens_laidOut h rfl
  rw [hfilter] at hlaid ⊢
  have hplain : ∀ c ∈ (respaced init).toList, (c != '\x00') = true := by
    intro c hc
    obtain rfl | ⟨t, ht, hc⟩ := mem_respaced hc
    · rfl
    · exact List.all_eq_true.mp List.all_takeWhile c (hlaid.mem t ht c hc)
  obtain ⟨again, hagain, hsame⟩ := hlaid.tokens_respaced hinit 1
  refine ⟨again, ?_, ?_⟩
  · rw [tokenize, Lexer.ofSource, List.takeWhile_eq_self_iff.mpr hplain]
    exact hagain
  · rw [hsame, htokens, List.map_append, List.map_singleton, hlast, hempty]

theorem tokenize_respaced_sample :
    let source := "<?php\n$a.=1..2/**/;whilex===--\"?>\\\"\"?>\n"
    let text := "<?php $a .= 1. . 2 ; whilex === -- \"?>\\\"\" ?>"
    let tokens : List Token :=
      [⟨.openTag, "<?php", 1⟩, ⟨.varName, "$a", 2⟩, ⟨.dotAssign, ".=", 2⟩,
        ⟨.floatLiteral, "1.", 2⟩, ⟨.dot, ".", 2⟩, ⟨.intLiteral, "2", 2⟩, ⟨.semicolon, ";", 2⟩,
        ⟨.identifier, "whilex", 2⟩, ⟨.identical, "===", 2⟩, ⟨.decrement, "--", 2⟩,
        ⟨.stringLiteral, "?>\\\"", 2⟩, ⟨.closeTag, "?>", 2⟩, ⟨.eof, "", 3⟩]
    tokenize source = .ok tokens ∧ respaced (tokens.filter (·.kind ≠ .eof)) = text ∧
      ∃ again, tokenize text = .ok again ∧
        again.map (fun t => (t.kind, t.lexeme)) = tokens.map (fun t => (t.kind, t.lexeme)) := by
  intro source text tokens
  have htokens : tokenize source = .ok tokens := eq_ok_of_toOption (by decide +kernel)
  have htext : respaced (tokens.filter (·.kind ≠ .eof)) = text := by decide +kernel
  have hagain := tokenize_respaced htokens
  rw [htext] at hagain
  exact ⟨htokens, htext, hagain⟩

end Ifj22
