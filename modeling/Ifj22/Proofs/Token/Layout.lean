import Ifj22.Proofs.Outcome
import Ifj22.Proofs.Token.Shape
set_option autoImplicit false

/-!
# Token: how the tokens of a text lie in it

Cutting a text into tokens neither loses nor invents a character: the text is its tokens' texts in
order, with gaps of blanks and complete comments between them.  What makes a comment complete
depends on what stands behind it, so `IsComment` and `IsGap` relate a text to the text behind it.
`LaidOut tokens text` is the whole statement, and `tokenize_laidOut` proves it of every text that
can be cut into tokens.
-/

namespace Ifj22

variable {text : List Char} {n : Nat} {l : Lexer} {c : Char} {kind : TokenKind} {lexeme : List Char}
  {l' : Lexer} {t : Token} {tokens : List Token}

/-- The text is one complete comment in front of `behind`: a line comment reaches to the newline or
the end, and a block comment to the first closing mark. -/
inductive IsComment : List Char → List Char → Prop
  | line {mark body behind : List Char} (hmark : mark = ['#'] ∨ mark = ['/', '/'])
      (hbody : '\n' ∉ body) (hend : behind = [] ∨ behind.head? = some '\n') :
      IsComment (mark ++ body) behind
  | block {body behind : List Char} (hfirst : ¬ ['*', '/'] <:+: body ++ ['*']) :
      IsComment ('/' :: '*' :: (body ++ ['*', '/'])) behind

/-- The text is a sequence of blanks and complete comments in front of `behind`.  What stands
behind matters, because a line comment goes on up to the newline. -/
inductive IsGap : List Char → List Char → Prop
  | nil {behind : List Char} : IsGap [] behind
  | blank {c : Char} {gap behind : List Char} (hc : Text.isBlank c = true)
      (hgap : IsGap gap behind) : IsGap (c :: gap) behind
  | comment {text gap behind : List Char} (htext : IsComment text (gap ++ behind))
      (hgap : IsGap gap behind) : IsGap (text ++ gap) behind

/-- The text consists of the tokens' texts in order, a gap before each of them and one behind the
last.  A closing tag is the last token, and behind it stands at most one newline. -/
inductive LaidOut : List Token → List Char → Prop
  | done {gap : List Char} (hgap : IsGap gap []) : LaidOut [] gap
  | token {t : Token} {tokens : List Token} {gap behind : List Char} (ht : t.kind ≠ .closeTag)
      (hgap : IsGap gap (t.text.toList ++ behind)) (hbehind : LaidOut tokens behind) :
      LaidOut (t :: tokens) (gap ++ (t.text.toList ++ behind))
  | close {t : Token} {gap behind : List Char} (ht : t.kind = .closeTag)
      (hgap : IsGap gap (t.text.toList ++ behind)) (hbehind : behind = [] ∨ behind = ['\n']) :
      LaidOut [t] (gap ++ (t.text.toList ++ behind))

/-! ## Gaps -/

theorem isComment_line {mark : List Char} (hmark : mark = ['#'] ∨ mark = ['/', '/'])
    (rest : List Char) :
    IsComment (mark ++ rest.takeWhile (· != '\n')) (rest.dropWhile (· != '\n')) := by
  refine .line hmark (fun hmem => ?_) ?_
  · simpa using List.all_eq_true.mp List.all_takeWhile _ hmem
  · have hhead := List.head?_dropWhile_not (· != '\n') rest
    cases hdrop : rest.dropWhile (· != '\n') with
    | nil => exact .inl rfl
    | cons c behind =>
      rw [hdrop] at hhead
      simpa using hhead

/-- The closing mark does not start at a character that the search went past. -/
theorem not_infix_cons {body : List Char} (hc : ∀ tail, c = '*' → body = '/' :: tail → False)
    (h : ¬ ['*', '/'] <:+: body ++ ['*']) : ¬ ['*', '/'] <:+: c :: body ++ ['*'] := by
  rw [List.cons_append, List.infix_cons_iff, not_or]
  refine ⟨fun hprefix => ?_, h⟩
  obtain ⟨hstar, hslash⟩ := List.cons_prefix_cons.mp hprefix
  cases body with
  | nil => simp at hslash
  | cons d body =>
    obtain ⟨hd, _⟩ := List.cons_prefix_cons.mp hslash
    exact hc body hstar.symm (by rw [← hd])

theorem blockLength?_eq_some (h : blockLength? text = some n) :
    ∃ body behind, text = body ++ ['*', '/'] ++ behind ∧ n = body.length + 2 ∧
      ¬ ['*', '/'] <:+: body ++ ['*'] := by
  fun_induction blockLength? text generalizing n with
  | case1 behind =>
    refine ⟨[], behind, rfl, by simpa using h.symm, ?_⟩
    decide
  | case2 c rest hclose ih =>
    obtain ⟨m, hm, rfl⟩ := Option.map_eq_some_iff.mp h
    obtain ⟨body, behind, rfl, rfl, hfirst⟩ := ih hm
    refine ⟨c :: body, behind, rfl, rfl, not_infix_cons (fun tail hc hbody => ?_) hfirst⟩
    exact hclose _ hc (by rw [hbody]; rfl)
  | case3 => simp at h

theorem comment_eq_length (h : comment text = .length n) :
    ∃ front behind, text = front ++ behind ∧ n = front.length ∧ IsComment front behind := by
  have hline {mark : List Char} (hmark : mark = ['#'] ∨ mark = ['/', '/']) (rest : List Char) :
      ∃ front behind, mark ++ rest = front ++ behind ∧
        mark.length + lineLength rest = front.length ∧ IsComment front behind :=
    ⟨_, _, by rw [List.append_assoc, List.takeWhile_append_dropWhile],
      (List.length_append ..).symm, isComment_line hmark rest⟩
  unfold comment at h
  split at h
  · simp only [Comment.length.injEq] at h
    exact h ▸ hline (.inl rfl) _
  · simp only [Comment.length.injEq] at h
    exact h ▸ hline (.inr rfl) _
  · split at h
    · rename_i m hm
      simp only [Comment.length.injEq] at h
      obtain ⟨body, behind, rfl, rfl, hfirst⟩ := blockLength?_eq_some hm
      exact ⟨_, behind, rfl, by simp [← h]; omega, .block hfirst⟩
    · simp at h
  · simp at h

theorem gap?_blank (h : Text.isBlank c = true) (rest : List Char) :
    gap? (c :: rest) = (gap? rest).map (· + 1) := by
  rw [gap?, if_pos h]

theorem gap?_of_comment (h : Text.isBlank c = false) (rest : List Char) :
    gap? (c :: rest) =
      match comment (c :: rest) with
      | .absent => some 0
      | .unending => none
      | .length n => (gap? ((c :: rest).drop n)).map (· + n) := by
  rw [gap?, if_neg (by simp [h])]
  split <;> simp_all

/-- What is skipped before a token is a gap, and no gap is left behind it. -/
theorem gap?_eq_some (h : gap? text = some n) : ∃ gap behind, text = gap ++ behind ∧
    n = gap.length ∧ IsGap gap behind ∧ gap? behind = some 0 := by
  fun_induction gap? text generalizing n with
  | case1 => exact ⟨[], [], rfl, by simpa using h.symm, .nil, by rw [gap?]⟩
  | case2 c rest hc ih =>
    obtain ⟨m, hm, rfl⟩ := Option.map_eq_some_iff.mp h
    obtain ⟨gap, behind, rfl, rfl, hgap, hstart⟩ := ih hm
    exact ⟨c :: gap, behind, rfl, rfl, .blank hc hgap, hstart⟩
  | case3 c rest hc hcomment =>
    refine ⟨[], c :: rest, rfl, by simpa using h.symm, .nil, ?_⟩
    rw [gap?_of_comment ((Bool.not_eq_true _).mp hc), hcomment]
  | case4 => simp at h
  | case5 c rest hc n1 hcomment ih =>
    obtain ⟨m, hm, rfl⟩ := Option.map_eq_some_iff.mp h
    obtain ⟨front, behind, htext, rfl, hfront⟩ := comment_eq_length hcomment
    rw [htext, List.drop_left] at hm
    obtain ⟨gap, behind', hbehind, rfl, hgap, hstart⟩ :=
      ih (by rw [htext, List.drop_left]; exact hm)
    rw [htext, List.drop_left] at hbehind
    subst hbehind
    refine ⟨front ++ gap, behind', by rw [htext, List.append_assoc], ?_, .comment hfront hgap,
      hstart⟩
    rw [List.length_append, Nat.add_comm]

/-! ## The next token -/

namespace Lexer

/-- The end of the text is next. -/
structure Ends (l : Lexer) (t : Token) : Prop where
  kind : t.kind = .eof
  lexeme : t.lexeme = ""
  line : t.line = l.line + l.rest.count '\n'
  rest : if l.closed then l.rest = [] ∨ l.rest = ['\n'] else IsGap l.rest []

/-- A token is next, behind a gap. -/
structure Finds (l : Lexer) (gap : List Char) (t : Token) (l' : Lexer) : Prop where
  isOpen : l.closed = false
  rest : l.rest = gap ++ (t.text.toList ++ l'.rest)
  isGap : IsGap gap (t.text.toList ++ l'.rest)
  start : gap? (t.text.toList ++ l'.rest) = some 0
  found : Found t.kind t.lexeme.toList l'.rest
  line : t.line = l.line + gap.count '\n'
  line' : l'.line = t.line + t.text.toList.count '\n'
  closed' : l'.closed = (t.kind == .closeTag)

theorem ends_of_nextClosed (h : l.nextClosed = (.ok t, l')) (hclosed : l.closed = true) :
    l.Ends t := by
  unfold nextClosed at h
  split at h
  · rename_i hrest
    simp only [Prod.mk.injEq, Except.ok.injEq] at h
    obtain ⟨rfl, _⟩ := h
    exact ⟨rfl, rfl, by rw [hrest]; rfl, by rw [if_pos hclosed]; exact .inl hrest⟩
  · rename_i hrest
    simp only [Prod.mk.injEq, Except.ok.injEq] at h
    obtain ⟨rfl, _⟩ := h
    exact ⟨rfl, rfl, by rw [hrest]; rfl, by rw [if_pos hclosed]; exact .inr hrest⟩
  · simp [fail] at h
  · simp [fail] at h

/-- One step of the lexer: the end is next, or a token behind a gap. -/
theorem next_ok (h : l.next = (.ok t, l')) : l.Ends t ∨ ∃ gap, l.Finds gap t l' := by
  unfold next at h
  split at h
  · rename_i hclosed
    exact .inl (ends_of_nextClosed h hclosed)
  · rename_i hopen
    unfold nextOpen at h
    split at h
    · simp [fail] at h
    · rename_i n hn
      obtain ⟨gap, text, hrest, rfl, hgap, hzero⟩ := gap?_eq_some hn
      have hstart : l.advance gap.length = ⟨text, l.line + gap.count '\n', l.closed⟩ := by
        simp [advance, hrest]
      simp only [hstart] at h
      split at h
      · simp [fail] at h
      · rename_i kind lexeme hscan
        simp only [Prod.mk.injEq, Except.ok.injEq] at h
        obtain ⟨rfl, rfl⟩ := h
        cases text with
        | nil =>
          obtain ⟨rfl, rfl⟩ := Scan.token.inj hscan
          rw [List.append_nil] at hrest
          refine .inl ⟨rfl, rfl, by rw [hrest], ?_⟩
          rwa [if_neg hopen, hrest]
        | cons c rest =>
          obtain ⟨behind, htext, hfound⟩ := found_of_scan hscan
          refine .inr ⟨gap, by simpa using hopen, ?_, ?_, ?_, ?_, rfl, ?_, rfl⟩
          all_goals simp only [Token.text, String.toList_ofList, advance, htext, List.drop_left,
            List.take_left] at hrest hgap hzero ⊢
          · exact hrest
          · exact hgap
          · exact hzero
          · exact hfound

end Lexer

/-! ## Token lists -/

theorem Lexer.next_wellSpelled (h : l.next = (.ok t, l')) : t.WellSpelled := by
  obtain hends | ⟨gap, hfinds⟩ := next_ok h
  · rw [Token.WellSpelled, hends.kind]
    simp
  · exact hfinds.found.spelled

/-- A token list as the lexer makes it: `eof` at its end and nowhere else, and all tokens well
spelled. -/
structure TokenList (tokens : List Token) : Prop where
  ends : ∃ init last, tokens = init ++ [last] ∧ last.kind = .eof ∧ ∀ t ∈ init, t.kind ≠ .eof
  spelled : ∀ t ∈ tokens, t.WellSpelled

/-- The first of the tokens of a text, and the tokens behind it. -/
theorem Lexer.tokens_eq_ok (h : l.tokens = .ok tokens) :
    ∃ t l', l.next = (.ok t, l') ∧
      (t.kind = .eof ∧ tokens = [t] ∨
        t.kind ≠ .eof ∧ ∃ behind, l'.tokens = .ok behind ∧ tokens = t :: behind) := by
  unfold Lexer.tokens at h
  split at h
  · simp at h
  · rename_i t l' hnext
    refine ⟨t, l', hnext, ?_⟩
    split at h
    · rename_i ht
      simp only [Except.ok.injEq] at h
      exact .inl ⟨ht, h.symm⟩
    · rename_i ht
      cases hbehind : l'.tokens with
      | error e => rw [hbehind] at h; simp [Except.map] at h
      | ok behind =>
        rw [hbehind] at h
        simp only [Except.map, Except.ok.injEq] at h
        exact .inr ⟨ht, behind, rfl, h.symm⟩

theorem Lexer.tokens_shape (h : l.tokens = .ok tokens) :
    TokenList tokens ∧ tokens.length ≤ l.rest.length + 1 := by
  induction hn : l.rest.length using Nat.strongRecOn generalizing l tokens with
  | ind n ih =>
    obtain ⟨t, l', hnext, ⟨ht, rfl⟩ | ⟨ht, behind, hbehind, rfl⟩⟩ := tokens_eq_ok h
    · refine ⟨⟨⟨[], t, rfl, ht, by simp⟩, ?_⟩, by simp⟩
      intro u hu
      rw [List.mem_singleton] at hu
      exact hu ▸ next_wellSpelled hnext
    · have hshort := next_shortens hnext ht
      obtain ⟨⟨⟨init, last, rfl, hlast, hinit⟩, hspelled⟩, hlen⟩ := ih _ (hn ▸ hshort) hbehind rfl
      refine ⟨⟨⟨t :: init, last, by simp, hlast, ?_⟩, ?_⟩, ?_⟩
      · intro u hu
        rcases List.mem_cons.mp hu with rfl | hu
        · exact ht
        · exact hinit u hu
      · intro u hu
        rcases List.mem_cons.mp hu with rfl | hu
        · exact next_wellSpelled hnext
        · exact hspelled u hu
      · simp only [List.length_cons] at *
        omega

/-- The tokens of a text. -/
theorem tokenize_shape {source : String} (h : tokenize source = .ok tokens) :
    TokenList tokens ∧ tokens.length ≤ source.length + 1 := by
  obtain ⟨hlist, hlen⟩ := Lexer.tokens_shape h
  refine ⟨hlist, Nat.le_trans hlen ?_⟩
  have : (Lexer.ofSource source).rest.length ≤ source.toList.length :=
    (List.takeWhile_sublist _).length_le
  rw [String.length_toList] at this
  omega

theorem Lexer.advance_advance (l : Lexer) (m n : Nat) :
    (l.advance m).advance n = l.advance (m + n) := by
  simp only [advance, List.drop_drop, List.take_add, List.count_append, Nat.add_assoc]

/-- The front of a gap can be passed first. -/
theorem Lexer.nextOpen_skip {k : Nat} (hk : k ≤ l.rest.length)
    (h : gap? l.rest = (gap? (l.rest.drop k)).map (· + k)) :
    l.nextOpen = (l.advance k).nextOpen := by
  unfold nextOpen
  rw [h, rest_advance]
  cases gap? (l.rest.drop k) with
  | none =>
    have hall : l.rest.length = k + (l.rest.drop k).length := by
      rw [List.length_drop]
      omega
    simp only [Option.map_none, fail, advance_advance, ← hall]
  | some m =>
    simp only [Option.map_some, advance_advance, Nat.add_comm m k]

theorem Lexer.next_of_open (h : l.closed = false) : l.next = l.nextOpen := by
  rw [next, h]
  rfl

theorem Lexer.next_blank {rest : List Char} (hopen : l.closed = false)
    (hrest : l.rest = c :: rest) (h : Text.isBlank c = true) : (l.advance 1).next = l.next := by
  rw [next_of_open hopen, next_of_open (l := l.advance 1) hopen]
  refine (nextOpen_skip ?_ ?_).symm
  · rw [hrest, List.length_cons]
    omega
  · rw [hrest, gap?_blank h]
    rfl

/-- Behind the closing tag there is no token. -/
theorem Lexer.tokens_closed (h : l.tokens = .ok tokens) (hclosed : l.closed = true) :
    tokens.filter (·.kind ≠ .eof) = [] ∧ (l.rest = [] ∨ l.rest = ['\n']) := by
  obtain ⟨t, l', hnext, htokens⟩ := tokens_eq_ok h
  obtain hends | ⟨gap, hfinds⟩ := next_ok hnext
  · have hrest := hends.rest
    rw [if_pos hclosed] at hrest
    obtain ⟨_, rfl⟩ | ⟨hne, _⟩ := htokens
    · exact ⟨by simp [hends.kind], hrest⟩
    · exact absurd hends.kind hne
  · exact absurd hclosed (by simp [hfinds.isOpen])

theorem Lexer.tokens_laidOut (h : l.tokens = .ok tokens) (hopen : l.closed = false) :
    LaidOut (tokens.filter (·.kind ≠ .eof)) l.rest := by
  induction hn : l.rest.length using Nat.strongRecOn generalizing l tokens with
  | ind n ih =>
    obtain ⟨t, l', hnext, ⟨ht, rfl⟩ | ⟨ht, behind, hbehind, rfl⟩⟩ := tokens_eq_ok h
    · obtain hends | ⟨gap, hfinds⟩ := next_ok hnext
      · have hgap := hends.rest
        rw [hopen, if_neg Bool.false_ne_true] at hgap
        simpa [ht] using LaidOut.done hgap
      · exact absurd ht hfinds.found.ne_eof
    · obtain hends | ⟨gap, hfinds⟩ := next_ok hnext
      · exact absurd hends.kind ht
      · rw [hfinds.rest, List.filter_cons_of_pos (by simpa using ht)]
        by_cases hclose : t.kind = .closeTag
        · obtain ⟨hnone, hend⟩ := tokens_closed hbehind (by rw [hfinds.closed', hclose]; rfl)
          rw [hnone]
          exact .close hclose hfinds.isGap hend
        · exact .token hclose hfinds.isGap (ih _ (hn ▸ next_shortens hnext ht) hbehind
            (by rw [hfinds.closed', beq_false_of_ne hclose]) rfl)

/-- Cutting a text into tokens loses and invents nothing: the text up to its first NUL consists of
the tokens' texts, with blanks and complete comments around them. -/
theorem tokenize_laidOut {source : String} {tokens : List Token}
    (h : tokenize source = .ok tokens) :
    LaidOut (tokens.filter (·.kind ≠ .eof)) (source.toList.takeWhile (· != '\x00')) :=
  Lexer.tokens_laidOut h rfl

theorem tokenize_laidOut_sample :
    let source := "<?php $s = \"// no\"; /* a * / */ # end\n?>\n\x00$"
    let tokens : List Token :=
      [⟨.openTag, "<?php", 1⟩, ⟨.varName, "$s", 1⟩, ⟨.assign, "=", 1⟩, ⟨.stringLiteral, "// no", 1⟩,
        ⟨.semicolon, ";", 1⟩, ⟨.closeTag, "?>", 2⟩]
    tokenize source = .ok (tokens ++ [⟨.eof, "", 3⟩]) ∧
      LaidOut tokens "<?php $s = \"// no\"; /* a * / */ # end\n?>\n".toList := by
  intro source tokens
  have htokens : tokenize source = .ok (tokens ++ [⟨.eof, "", 3⟩]) :=
    eq_ok_of_toOption (by decide +kernel)
  exact ⟨htokens, by simpa [source, tokens] using tokenize_laidOut htokens⟩

end Ifj22
