import Ifj22.Proofs.Token.Inside
set_option autoImplicit false

/-!
# Token: the automaton is the lexer

Reading a character changes nothing of what the lexer makes of the text, in any mode
(`Mode.react_leads`), so a whole run ends in it (`Mode.run_eq`).  The automaton therefore gives the
tokens and faults of the lexer, on the same lines, and stands at the same place behind each of them
(`Reader.next_lexer`).  In particular a newline that is put back can always be taken off the count.
-/

namespace Ifj22

variable {c : Char} {rest : List Char}

/-! ## Between tokens -/

theorem part?_reads {part : Part} (h : part? c = some part) :
    part.opening = [] ∧ part.Reads [c] := by
  have hsingle {lexemes : List (List Char)} {first : List Char}
      (hall : ∀ d ∈ first, [d] ∈ lexemes) (hc : c ∈ first) : [c] ∈ lexemes :=
    hall c hc
  unfold part? at h
  split_ifs at h with hname hdigit hdollar hequal harith hlogical hrel hquestion <;> cases h
  · exact ⟨rfl, hname, by simp⟩
  · exact ⟨rfl, by simp, by simpa using hdigit⟩
  · exact ⟨rfl, congrArg (fun c => [c]) hdollar⟩
  · exact ⟨rfl, hsingle (by decide) hequal⟩
  · exact ⟨rfl, hsingle (by decide) harith⟩
  · exact ⟨rfl, hlogical, rfl⟩
  · exact ⟨rfl, hsingle (by decide) hrel⟩
  · exact ⟨rfl, congrArg (fun c => [c]) hquestion⟩

/-- A character that starts nothing. -/
theorem scan_stray (hsingle : single? c = none) (hquote : c ≠ '"') (hpart : part? c = none)
    (rest : List Char) : c ≠ '/' ∧ scan (c :: rest) = .fault (.strayChar c) 1 := by
  have hfront : ∀ entry ∈ operators, ∀ d ∈ entry.1.toList.head?,
      single? d ≠ none ∨ part? d ≠ none := by
    decide
  have hnone : operator? (c :: rest) = none := by
    refine List.find?_eq_none.mpr fun entry hentry hprefix => ?_
    obtain ⟨tail, htail⟩ := List.isPrefixOf_iff_prefix.mp hprefix
    cases hspelling : entry.1.toList with
    | nil => exact operators_ne_nil entry hentry hspelling
    | cons d spelling =>
      rw [hspelling] at htail
      obtain rfl : d = c := (List.cons.inj htail).1
      rcases hfront entry hentry d (by rw [hspelling]; rfl) with hd | hd
      · exact hd hsingle
      · exact hd hpart
  have hname : isNameStart c = false := by
    rw [Bool.eq_false_iff]
    intro hc
    rw [part?, if_pos hc] at hpart
    cases hpart
  have hdigit : c.isDigit = false := by
    rw [Bool.eq_false_iff]
    intro hc
    rw [part?, if_neg (by simp [hname]), if_pos hc] at hpart
    cases hpart
  have hne {d : Char} (hd : part? d ≠ none) : c ≠ d := by
    rintro rfl
    exact hd hpart
  refine ⟨hne (by decide), ?_⟩
  rw [scan_of_operator?_none hname hdigit (hne (by decide)) hquote (hne (by decide)) hnone]
  have hand : c ≠ '&' := hne (by decide)
  have hor : c ≠ '|' := hne (by decide)
  exact if_neg (by simp [hand, hor])

theorem single?_completes {kind : TokenKind} (h : single? c = some kind) : Completes kind [c] := by
  have htable : ∀ entry ∈ singles, Completes entry.2 [entry.1] := by decide
  obtain ⟨before, behind, hsingles, _⟩ := List.lookup_eq_some_iff.mp h
  exact htable (c, kind) (by rw [hsingles]; simp)

/-- The first character of a token or a comment. -/
theorem Reader.begin_leads {l : Lexer} {r : Reader} (hread : Behind l (some c) r)
    (hopen : l.closed = false) (hblank : Text.isBlank c = false) : (r.begin c).Leads l.next := by
  have hpast : l.Past [] l.line := ⟨hopen, rfl⟩
  have hself : Lexer.mk ([] ++ l.rest) l.line false = l := hpast.eq.symm
  have hline : r.line = l.line := by
    apply hread.line_eq
    rintro rfl
    exact absurd hblank (by decide)
  unfold begin
  rw [hline]
  split
  · rename_i kind hsingle
    have hleads := Part.leads_operatorBehind hread hpast (single?_completes hsingle)
    rwa [hself] at hleads
  rename_i hsingle
  split
  · rename_i hquote
    subst hquote
    apply Reply.leads_go
    · rw [Mode.outcome, ← hself]
      exact congrArg (fun rest => (Lexer.mk rest l.line false).next) hread.rest.symm
    · exact ⟨hread.past hpast, inString_nil⟩
  rename_i hquote
  split
  · rename_i hhash
    subst hhash
    apply Reply.leads_go
    · rw [Mode.outcome, hread.lexer]
      refine (Lexer.next_line hopen hread.rest hblank ?_).symm
      rw [hread.rest]
      rfl
    · exact hread.closed.trans hopen
  rename_i hhash
  split
  · rename_i part hpart
    obtain ⟨hopening, hreads⟩ := part?_reads hpart
    apply Reply.leads_go
    · rw [Mode.outcome, hopening, ← hself]
      exact congrArg (fun rest => (Lexer.mk rest l.line false).next) hread.rest.symm
    · rw [Mode.Fits, hopening]
      exact ⟨hread.past hpast, hreads⟩
  · rename_i hpart
    obtain ⟨hslash, hscan⟩ := scan_stray hsingle hquote hpart r.lexer.rest
    rw [← hread.rest] at hscan
    apply Reply.leads_refuse hread
    have hgap : gap? ([] ++ l.rest) = some 0 := by
      rw [List.nil_append, hread.rest]
      exact gap?_of_ne hblank hhash hslash _
    have hfault : (Lexer.mk ([] ++ l.rest) l.line false).next = l.fail (.strayChar c) 1 :=
      hpast.next_fault hgap hscan
    rwa [hself] at hfault

/-! ## Runs -/

namespace Lexer

variable {l : Lexer}

/-- A character of a block comment that does not end it. -/
theorem nextBehindBlock_advance (hrest : l.rest = c :: rest) (h : ¬ ['*', '/'] <+: l.rest) :
    (l.advance 1).nextBehindBlock = l.nextBehindBlock := by
  have hlength : blockLength? l.rest = (blockLength? rest).map (· + 1) := by
    rw [hrest] at h ⊢
    rw [blockLength?]
    rintro tail rfl rfl
    exact h ⟨tail, rfl⟩
  rw [nextBehindBlock, nextBehindBlock, hlength, rest_advance, hrest, List.drop_succ_cons,
    List.drop_zero]
  cases blockLength? rest with
  | none => simp only [Option.map_none, fail, advance_advance, List.length_cons, Nat.add_comm 1]
  | some n => simp only [Option.map_some, advance_advance, Nat.add_comm 1]

theorem nextBehindLine_advance (hrest : l.rest = c :: rest) (h : c ≠ '\n') :
    (l.advance 1).nextBehindLine = l.nextBehindLine := by
  have hlength : lineLength l.rest = 1 + lineLength rest := by
    rw [hrest, lineLength, lineLength, List.takeWhile_cons_of_pos (by simpa using h),
      List.length_cons, Nat.add_comm]
  rw [nextBehindLine, nextBehindLine, hlength, advance_advance, rest_advance, hrest]
  rfl

end Lexer

namespace Mode

open Reader (Behind)

variable {l : Lexer} {c : Option Char} {r : Reader}

theorem start_leads (hread : Behind l c r) (hopen : l.closed = false) :
    (Mode.start.react c r).Leads l.next := by
  cases c with
  | none =>
    apply Reply.leads_emit
    rw [Lexer.next_nil hopen hread.nil, ← hread.lexer_of_none]
    rfl
  | some c =>
    unfold react
    dsimp only
    split
    · rename_i hblank
      apply Reply.leads_go
      · rw [Mode.outcome, hread.lexer]
        exact Lexer.next_blank hopen hread.rest hblank
      · exact hread.closed.trans hopen
    · rename_i hblank
      exact Reader.begin_leads hread hopen ((Bool.not_eq_true _).mp hblank)

theorem lineComment_leads (hread : Behind l c r) (hopen : l.closed = false) :
    (Mode.lineComment.react c r).Leads l.nextBehindLine := by
  cases c with
  | none =>
    apply Reply.leads_emit
    rw [Lexer.nextBehindLine, Lexer.advance_of_nil hread.nil, Lexer.next_nil hopen hread.nil,
      ← hread.lexer_of_none]
    rfl
  | some c =>
    unfold react
    dsimp only
    split
    · rename_i hbreak
      subst hbreak
      apply Reply.leads_go
      · rw [Mode.outcome, hread.lexer, Lexer.next_blank hopen hread.rest (by decide),
          Lexer.nextBehindLine, hread.rest]
        rfl
      · exact hread.closed.trans hopen
    · rename_i hbreak
      apply Reply.leads_go
      · rw [Mode.outcome, hread.lexer]
        exact Lexer.nextBehindLine_advance hread.rest hbreak
      · exact hread.closed.trans hopen

/-- A star may end the comment: that takes one more character, which is put back if it does not. -/
theorem star_leads (hread : Behind l (some '*') r) (hopen : l.closed = false) :
    (Mode.blockComment.react (some '*') r).Leads l.nextBehindBlock := by
  have hnext := r.read_behind
  have hclosed : r.lexer.closed = false := hread.closed.trans hopen
  unfold react
  dsimp only
  rw [if_pos rfl]
  split
  · rename_i hd
    rw [hd] at hnext
    apply Reply.leads_go
    · rw [Mode.outcome, Lexer.nextBehindBlock, hread.rest, hnext.rest, hnext.lexer, hread.lexer,
        Lexer.advance_advance]
      rfl
    · exact hnext.closed.trans hclosed
  · rename_i hd
    obtain ⟨r', hback, hlexer⟩ := hnext.back
    rw [hback]
    apply Reply.leads_go
    · rw [Mode.outcome, hlexer, hread.lexer]
      apply Lexer.nextBehindBlock_advance hread.rest
      rintro ⟨tail, htail⟩
      rw [hread.rest] at htail
      rw [hnext.char, ← (List.cons.inj htail).2] at hd
      exact hd rfl
    · show r'.lexer.closed = false
      rw [hlexer]
      exact hclosed

theorem blockComment_leads (hread : Behind l c r) (hopen : l.closed = false) :
    (Mode.blockComment.react c r).Leads l.nextBehindBlock := by
  cases c with
  | none =>
    apply Reply.leads_refuse hread
    rw [Lexer.nextBehindBlock, hread.nil]
    exact Lexer.fail_of_nil hread.nil _ _ _
  | some c =>
    by_cases hstar : c = '*'
    · subst hstar
      exact star_leads hread hopen
    · unfold react
      dsimp only
      rw [if_neg hstar]
      apply Reply.leads_go
      · rw [Mode.outcome, hread.lexer]
        apply Lexer.nextBehindBlock_advance hread.rest
        rintro ⟨tail, htail⟩
        rw [hread.rest] at htail
        exact hstar (List.cons.inj htail).1.symm
      · exact hread.closed.trans hopen

/-- A character changes nothing of what is to come. -/
theorem react_leads (mode : Mode) (hread : Behind l c r) (hfits : mode.Fits l) :
    (mode.react c r).Leads (mode.outcome l) := by
  cases mode with
  | start => exact start_leads hread hfits
  | lineComment => exact lineComment_leads hread hfits
  | blockComment => exact blockComment_leads hread hfits
  | inside part lexeme line => exact part.agrees hread hfits

end Mode

/-- A run ends in what the lexer makes of the text. -/
theorem Mode.run_eq (mode : Mode) (r : Reader) (hfits : mode.Fits r.lexer) :
    ∃ r', mode.run r = some ((mode.outcome r.lexer).1, r') ∧
      r'.lexer = (mode.outcome r.lexer).2 := by
  induction hn : r.lexer.rest.length using Nat.strongRecOn generalizing mode r with
  | ind n ih =>
    obtain ⟨verdict, r', hreact, houtcome, hfits'⟩ := mode.react_leads r.read_behind hfits
    rw [Mode.run, hreact, ← houtcome]
    cases verdict with
    | stop outcome => exact ⟨r', rfl, rfl⟩
    | go mode' =>
      obtain ⟨hc, hle⟩ := Mode.react_go hreact
      have hlt := Nat.lt_of_le_of_lt hle (Reader.read_shortens hc)
      exact ih _ (hn ▸ hlt) mode' r' hfits' rfl

namespace Reader

/-- Behind a closing tag the reader does what the lexer does. -/
theorem nextClosed_lexer (r : Reader) :
    r.nextClosed.1 = r.lexer.nextClosed.1 ∧ r.nextClosed.2.lexer = r.lexer.nextClosed.2 := by
  have hread := r.read_behind
  unfold nextClosed
  generalize r.read = first at hread ⊢
  obtain ⟨c, r1⟩ := first
  dsimp only at hread ⊢
  by_cases hbreak : c = some '\n'
  · subst hbreak
    have hread' := r1.read_behind
    rw [if_pos rfl]
    generalize r1.read = second at hread' ⊢
    obtain ⟨d, r2⟩ := second
    dsimp only at hread' ⊢
    have hrest := hread.rest
    cases d with
    | none =>
      rw [hread'.nil] at hrest
      have hstep : r.lexer.nextClosed = (.ok ⟨.eof, "", r.lexer.line + 1⟩, r.lexer.advance 1) := by
        rw [Lexer.nextClosed, hrest]
        rfl
      have hhere : r2.lexer = r.lexer.advance 1 := hread'.lexer_of_none.trans hread.lexer
      have hline : r2.line = r.lexer.line + 1 := by
        show r2.lexer.line = _
        rw [hhere, Lexer.line_advance, hrest]
        rfl
      rw [hstep, ← hhere, ← hline]
      exact ⟨rfl, rfl⟩
    | some d =>
      rw [hread'.rest] at hrest
      have hstep : r.lexer.nextClosed = r.lexer.fail .trailingText 2 := by
        rw [Lexer.nextClosed, hrest]
        rfl
      have hhere : r2.lexer = r.lexer.advance 2 := by
        rw [hread'.lexer, hread.lexer, Lexer.advance_advance]
      rw [hstep, Lexer.fail, ← hhere]
      exact ⟨rfl, rfl⟩
  · rw [if_neg hbreak]
    cases c with
    | none =>
      have hstep : r.lexer.nextClosed = (.ok ⟨.eof, "", r.lexer.line⟩, r.lexer) := by
        rw [Lexer.nextClosed, hread.nil]
      rw [hstep, ← hread.lexer_of_none]
      exact ⟨rfl, rfl⟩
    | some c =>
      rw [Lexer.nextClosed_of_ne hread.rest (by simpa using hbreak), Lexer.fail, ← hread.lexer]
      exact ⟨rfl, rfl⟩

/-- The automaton is the lexer, and it never fails to put a character back. -/
theorem next_lexer (r : Reader) :
    ∃ r', r.next = some (r.lexer.next.1, r') ∧ r'.lexer = r.lexer.next.2 := by
  unfold next Lexer.next
  split
  · rename_i hclosed
    have hclosed' : r.lexer.closed = true := hclosed
    rw [if_pos hclosed']
    obtain ⟨hstep, hlexer⟩ := r.nextClosed_lexer
    exact ⟨r.nextClosed.2, by rw [← hstep], hlexer⟩
  · rename_i hopen
    have hopen' : r.lexer.closed = false := (Bool.not_eq_true _).mp hopen
    have hrun := Mode.start.run_eq r hopen'
    rw [Mode.outcome, Lexer.next_of_open hopen'] at hrun
    rwa [hopen', if_neg (by decide)]

end Reader

end Ifj22
