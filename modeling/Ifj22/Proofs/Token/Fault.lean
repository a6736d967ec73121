import Ifj22.Proofs.Token.Agreement
import Ifj22.Proofs.Token.Respaced
set_option autoImplicit false

/-!
# Token: where a text stops being the front of tokens

A text that cannot be cut into tokens has a first place where no text with the same front can be
cut: there stands a character that continues nothing, or the text ends too early.  `StopsAt` says
which place that is, without the lexer.  The automaton of `Reader` comes to it character by
character (`Settles`): in every mode some text can still follow, and what it refuses it refuses
whatever follows.  It has counted that character then, so the line of the fault counts the newlines
up to there, the character itself included (`tokenize_fault_line`).
-/

namespace Ifj22

variable {c : Char} {line start : Nat} {rest text : List Char} {mode : Mode} {verdict : Verdict}
  {r : Reader} {e : Located LexicalFault}

/-! ## Reading a text -/

/-- A text is read from `line` on, up to a character that is refused or to its end.  Of what has been
read, `f` gives the fault with a text behind it, and with some text there is none. -/
inductive Settles : (List Char → Option (Located LexicalFault)) → Nat → List Char → Prop
  | ends {f line} (more : List Char) (hmore : f more = none) (hend : ∀ e ∈ f [], e.line = line) :
    Settles f line []
  | refused {f line c e rest} (more : List Char) (hmore : f more = none)
    (hline : e.line = line + [c].count '\n') (hc : ∀ rest, f (c :: rest) = some e) :
    Settles f line (c :: rest)
  | read {f line c rest} (h : Settles (fun rest => f (c :: rest)) (line + [c].count '\n') rest) :
    Settles f line (c :: rest)

namespace Settles

variable {f g : List Char → Option (Located LexicalFault)}

theorem exists_none (h : Settles f line text) : ∃ more, f more = none := by
  induction h with
  | ends more hmore => exact ⟨more, hmore⟩
  | refused more hmore => exact ⟨more, hmore⟩
  | read _ ih =>
    obtain ⟨more, hmore⟩ := ih
    exact ⟨_, hmore⟩

theorem of_none (line : Nat) (text : List Char) : Settles (fun _ => none) line text := by
  induction text generalizing line with
  | nil => exact .ends [] rfl nofun
  | cons c rest ih => exact .read (ih _)

/-- The faults behind the first character tell how it is read. -/
theorem congr_cons (h : Settles f line (c :: rest)) (hfg : ∀ rest, g (c :: rest) = f (c :: rest))
    (hg : ∃ more, g more = none) : Settles g line (c :: rest) := by
  obtain ⟨more, hmore⟩ := hg
  cases h with
  | refused _ _ hline hc => exact .refused more hmore hline fun rest => (hfg rest).trans (hc rest)
  | read h => exact .read (by simpa only [hfg] using h)

/-- A text with a fault is read to the place where it is given up. -/
theorem exists_stop (h : Settles f line text) (he : f text = some e) :
    ∃ before behind, text = before ++ behind ∧ (∃ more, f (before ++ more) = none) ∧
      (∀ c ∈ behind.head?, ∀ more, f (before ++ c :: more) ≠ none) ∧
      e.line = line + before.count '\n' + if behind.head? = some '\n' then 1 else 0 := by
  induction h with
  | ends more hmore hend => exact ⟨[], [], rfl, ⟨more, hmore⟩, by simp, hend e he⟩
  | @refused f line c _ rest more hmore hline hc =>
    cases (hc rest).symm.trans he
    refine ⟨[], c :: rest, rfl, ⟨more, hmore⟩, ?_, ?_⟩
    · rintro _ ⟨⟩ more
      simp [hc]
    · rw [hline]
      simp [List.count_singleton]
  | @read f line c rest _ ih =>
    obtain ⟨before, behind, rfl, hmore, hstop, hline⟩ := ih he
    refine ⟨c :: before, behind, rfl, hmore, hstop, ?_⟩
    show _ = line + ([c] ++ before).count '\n' + _
    rw [hline, List.count_append, Nat.add_assoc line]

end Settles

/-! ## Faults -/

namespace Lexer

/-- The fault of a text that cannot be cut into tokens. -/
def fault? (l : Lexer) : Option (Located LexicalFault) :=
  match l.tokens with
  | .error e => some e
  | .ok _ => none

/-- The fault that a step leads to. -/
def Step.fault? : Step → Option (Located LexicalFault)
  | (.error e, _) => some e
  | (.ok t, l) => if t.kind = .eof then none else l.fault?

theorem tokens_of_fault {l l' : Lexer} (h : l.next = (.error e, l')) : l.tokens = .error e := by
  unfold tokens
  rw [h]

theorem fault?_eq (l : Lexer) : l.fault? = Step.fault? l.next := by
  unfold fault?
  match hnext : l.next with
  | (.error e, l') => rw [tokens_of_fault hnext, Step.fault?]
  | (.ok t, l') =>
    by_cases ht : t.kind = .eof
    · rw [tokens_of_eof hnext ht, Step.fault?, if_pos ht]
    · rw [tokens_of_token hnext ht, Step.fault?, if_neg ht, fault?]
      cases l'.tokens <;> rfl

/-- A step at the end of the text leads to no fault. -/
theorem Step.fault?_nil (t : Token) (line : Nat) (closed : Bool) :
    Step.fault? (.ok t, ⟨[], line, closed⟩) = none := by
  rw [Step.fault?, Lexer.fault?, tokens_nil, ite_self]

end Lexer

theorem Reader.read_cons (hc : c ≠ '\x00') (rest : List Char) (line : Nat) (closed : Bool) :
    (Reader.mk (c :: rest) none line closed).read =
      (some c, ⟨rest, none, line + [c].count '\n', closed⟩) := by
  by_cases hbreak : c = '\n' <;> simp [read, take, hc, hbreak]

theorem Reader.behind_cons (hc : c ≠ '\x00') (rest : List Char) (line : Nat) :
    Behind (Reader.mk (c :: rest) none line false).lexer (some c)
      ⟨rest, none, line + [c].count '\n', false⟩ := by
  have hread := (Reader.mk (c :: rest) none line false).read_behind
  rwa [read_cons hc] at hread

/-- The fault that a verdict leads to. -/
def Verdict.fault? (verdict : Verdict) (r : Reader) : Option (Located LexicalFault) :=
  (verdict.outcome r.lexer).fault?

theorem Reply.Leads.fault?_eq {reply : Reply} {step : Lexer.Step} (h : reply.Leads step)
    (hreply : reply = some (verdict, r)) :
    step.fault? = verdict.fault? r ∧ verdict.Fits r.lexer := by
  obtain ⟨verdict', r', hreply', rfl, hfits⟩ := h
  cases hreply.symm.trans hreply'
  exact ⟨rfl, hfits⟩

namespace Mode

/-- The fault of a text that is read on from a mode. -/
def fault? (mode : Mode) (line : Nat) (text : List Char) : Option (Located LexicalFault) :=
  (Verdict.go mode).fault? ⟨text, none, line, false⟩

/-- The automaton can be in the mode on this line. -/
abbrev FitsOn (mode : Mode) (line : Nat) : Prop := mode.Fits ⟨[], line, false⟩

theorem Fits.withText (h : mode.Fits ⟨text, line, false⟩) (text' : List Char) :
    mode.Fits ⟨text', line, false⟩ := by
  cases mode <;> exact h

theorem fault?_cons (hfits : mode.FitsOn line) (hc : c ≠ '\x00')
    (h : mode.react (some c) ⟨rest, none, line + [c].count '\n', false⟩ = some (verdict, r)) :
    mode.fault? line (c :: rest) = verdict.fault? r ∧ verdict.Fits r.lexer :=
  (mode.react_leads (Reader.behind_cons hc rest line) (hfits.withText _)).fault?_eq h

theorem fault?_nil (hfits : mode.FitsOn line)
    (h : mode.react none ⟨[], none, line, false⟩ = some (verdict, r)) :
    mode.fault? line [] = verdict.fault? r :=
  ((mode.react_leads (Reader.mk [] none line false).read_behind hfits).fault?_eq h).1

theorem fault?_start (line : Nat) (text : List Char) :
    Mode.start.fault? line text = (Reader.mk text none line false).lexer.fault? := by
  rw [Lexer.fault?_eq]
  rfl

theorem fault?_emitBefore {kind : TokenKind} {lexeme : List Char} {step : Lexer.Step}
    (hc : c ≠ '\x00') (h : (Reply.emitBefore (some c) kind lexeme start
      ⟨rest, none, line + [c].count '\n', false⟩).Leads step) :
    step.fault? = if kind = .eof then none else Mode.start.fault? line (c :: rest) := by
  obtain ⟨r, hback, hlexer⟩ := (Reader.behind_cons hc rest line).back
  rw [(h.fault?_eq (by rw [Reply.emitBefore, hback]; rfl)).1, fault?_start, ← hlexer]
  rfl

/-! ## The end of the text -/

theorem fault?_last {t : Token} (hfits : mode.FitsOn line)
    (h : mode.react none ⟨[], none, line, false⟩ =
      some (.stop (.ok t), ⟨[], none, line, false⟩)) : mode.fault? line [] = none :=
  (fault?_nil hfits h).trans (Lexer.Step.fault?_nil t line false)

theorem fault?_start_nil (line : Nat) : Mode.start.fault? line [] = none :=
  fault?_last rfl rfl

/-- At the end of the text something may be missing, but nothing is wrong so far. -/
theorem settles_nil (hfits : mode.FitsOn line) : Settles (mode.fault? line) line [] := by
  have hdone {t : Token} (h : mode.react none ⟨[], none, line, false⟩ =
        some (.stop (.ok t), ⟨[], none, line, false⟩)) : Settles (mode.fault? line) line [] :=
    .ends [] (fault?_last hfits h) (by simp [fault?_last hfits h])
  have hmissing {fault : LexicalFault} {more : List Char} (hmore : mode.fault? line more = none)
      (h : mode.react none ⟨[], none, line, false⟩ = Reply.refuse fault ⟨[], none, line, false⟩) :
      Settles (mode.fault? line) line [] := by
    refine .ends more hmore ?_
    rw [fault?_nil hfits h]
    rintro _ ⟨⟩
    rfl
  have hquote {body : List Char} {start line : Nat}
      (hfits : (Mode.inside .string body start).FitsOn line) :
      (Mode.inside .string body start).fault? line ['"'] = none := by
    rw [(fault?_cons hfits (by decide) rfl).1]
    exact Lexer.Step.fault?_nil ..
  cases mode with
  | start => exact hdone rfl
  | lineComment => exact hdone rfl
  | blockComment =>
    have hclose : Mode.blockComment.fault? line ['*', '/'] = Mode.start.fault? line [] :=
      (fault?_cons hfits (by decide) rfl).1
    exact hmissing (hclose.trans (fault?_start_nil line)) rfl
  | inside part lexeme start =>
    cases part with
    | dollar =>
      obtain ⟨h, hfits'⟩ := @fault?_cons 'a' line [] _ _ _ hfits (by decide) rfl
      exact hmissing (h.trans (fault?_last hfits' rfl)) rfl
    | logical first =>
      have hfirst : first ≠ '\x00' := by
        rintro rfl
        exact absurd hfits.2.1 (by decide)
      have h := (@fault?_cons first line [] _ _ _ hfits hfirst (if_pos rfl)).1
      exact hmissing (h.trans (Lexer.Step.fault?_nil ..)) rfl
    | string => exact hmissing (hquote hfits) rfl
    | escape =>
      obtain ⟨h, hfits'⟩ := @fault?_cons 'n' line ['"'] _ _ _ hfits (by decide) rfl
      exact hmissing (h.trans (hquote hfits')) rfl
    | arithmetic =>
      cases h : arithmeticPairs.lookup lexeme with
      | none => exact hdone (by simp [react, Part.react, h]; rfl)
      | some kind => exact hdone (by simp [react, Part.react, h]; rfl)
    | _ => exact hdone (by simp [react, Part.react]; rfl)

/-! ## One character -/

/-- What is made of a character, whatever follows it. -/
inductive Foresees (c : Char) (line : Nat) (inside : Prop) : (List Char → Reply) → Prop
  | go (mode : Mode) : Foresees c line inside fun rest => Reply.go mode ⟨rest, none, line, false⟩
  | emit (kind : TokenKind) (lexeme : List Char) (start : Nat) (closed : Bool) :
    Foresees c line inside fun rest => Reply.emit kind lexeme start ⟨rest, none, line, closed⟩
  | emitBefore (kind : TokenKind) (lexeme : List Char) (start : Nat) (h : inside) :
    Foresees c line inside fun rest =>
      Reply.emitBefore (some c) kind lexeme start ⟨rest, none, line, false⟩
  | refuse (fault : LexicalFault) :
    Foresees c line inside fun rest => Reply.refuse fault ⟨rest, none, line, false⟩

/-- Only a star in a comment and the mark of the opening tag need more than one character. -/
theorem foresees (hstar : ¬ (mode = .blockComment ∧ c = '*'))
    (htag : ∀ start, ¬ (mode = .inside .relational ['<'] start ∧ c = '?')) :
    Foresees c line (mode ≠ .start) fun rest => mode.react (some c) ⟨rest, none, line, false⟩ := by
  cases mode with
  | start =>
    simp only [react, Reader.begin]
    cases single? c <;> cases part? c <;> dsimp only <;> split_ifs <;> constructor
  | lineComment => constructor
  | blockComment =>
    have hc : c ≠ '*' := by simpa using hstar
    simp only [react, if_neg hc]
    constructor
  | inside part lexeme start =>
    have hinside : Mode.inside part lexeme start ≠ .start := by simp
    cases part with
    | arithmetic =>
      simp only [react, Part.react]
      cases arithmeticPairs.lookup (lexeme ++ (some c).toList) <;> dsimp only <;>
        split_ifs <;> constructor
      exact hinside
    | relational =>
      have hc : ¬ (lexeme = ['<'] ∧ some c = some '?') := by
        rintro ⟨rfl, hc⟩
        exact htag start ⟨rfl, Option.some.inj hc⟩
      simp only [react, Part.react, if_neg hc]
      split_ifs <;> constructor <;> exact hinside
    | escape => constructor
    | _ =>
      simp only [react, Part.react]
      split_ifs <;> constructor <;> exact hinside

/-- Behind the closing tag at most a newline is read. -/
theorem settles_closed (hplain : '\x00' ∉ text) (line : Nat) :
    Settles (fun text => (Reader.mk text none line true).lexer.fault?) line text := by
  have hcut {c : Char} (hc : '\x00' ≠ c) (rest : List Char) :
      (c :: rest).takeWhile (· != '\x00') = c :: rest.takeWhile (· != '\x00') :=
    List.takeWhile_cons_of_pos (by simpa using Ne.symm hc)
  have hstep (text : List Char) : (Reader.mk text none line true).lexer.fault? =
      (Lexer.mk (text.takeWhile (· != '\x00')) line true).nextClosed.fault? := Lexer.fault?_eq _
  cases text with
  | nil => exact .ends [] (hstep []) (hstep [] ▸ nofun)
  | cons c rest =>
    obtain ⟨hc, hrest⟩ := not_or.mp (List.mem_cons.not.mp hplain)
    by_cases hne : c = '\n'
    · subst hne
      refine .read ?_
      cases rest with
      | nil => exact .ends [] (hstep ['\n']) (hstep ['\n'] ▸ nofun)
      | cons d rest =>
        obtain ⟨hd, _⟩ := not_or.mp (List.mem_cons.not.mp hrest)
        refine .refused (e := ⟨line + ['\n', d].count '\n', .trailingText⟩) [] (hstep ['\n'])
          (by simp [List.count_cons]; omega) fun rest => ?_
        rw [hstep, hcut hc, hcut hd]
        rfl
    · refine .refused (e := ⟨_, .trailingText⟩) [] (hstep []) rfl fun rest => ?_
      rw [hstep, hcut hc, Lexer.nextClosed_of_ne rfl hne]
      rfl

/-- If it is foreseen what a character leads to, the fault of a text that starts with it is
settled by the rest of the text. -/
theorem Foresees.settles
    (h : Foresees c (line + [c].count '\n') (mode ≠ .start) fun rest =>
      mode.react (some c) ⟨rest, none, line + [c].count '\n', false⟩)
    (hfits : mode.FitsOn line) (hc : c ≠ '\x00') (hplain : '\x00' ∉ rest)
    (hgo : ∀ (mode : Mode) (line : Nat), mode.FitsOn line → Settles (mode.fault? line) line rest)
    (hstart : mode ≠ .start → Settles (Mode.start.fault? line) line (c :: rest)) :
    Settles (mode.fault? line) line (c :: rest) := by
  have hnil := (settles_nil hfits).exists_none
  generalize hreply : (fun rest =>
    mode.react (some c) ⟨rest, none, line + [c].count '\n', false⟩) = reply at h
  cases h with
  | go mode' =>
    have h (rest : List Char) := fault?_cons hfits hc (congrFun hreply rest)
    refine .read ?_
    simp only [(h _).1]
    exact hgo mode' _ (h []).2
  | emit kind lexeme start closed =>
    have h (rest : List Char) := (fault?_cons hfits hc (congrFun hreply rest)).1
    refine .read ?_
    simp only [h, Verdict.fault?, Verdict.outcome, Lexer.Step.fault?]
    split_ifs
    · exact .of_none _ _
    · cases closed with
      | true => exact settles_closed hplain _
      | false =>
        simp only [← fault?_start]
        exact hgo .start _ rfl
  | emitBefore kind lexeme start hinside =>
    have h (rest : List Char) : mode.fault? line (c :: rest) = _ :=
      fault?_emitBefore hc (congrFun hreply rest ▸
        mode.react_leads (Reader.behind_cons hc rest line) (hfits.withText _))
    split_ifs at h
    · refine .read ?_
      simp only [h]
      exact .of_none _ _
    · exact (hstart hinside).congr_cons h hnil
  | refuse fault =>
    obtain ⟨more, hmore⟩ := hnil
    exact .refused (e := ⟨_, fault⟩) more hmore rfl fun rest =>
      (fault?_cons hfits hc (congrFun hreply rest)).1

/-! ## More than one character -/

/-- A star in a comment is read with the character behind it. -/
theorem settles_star (hplain : '\x00' ∉ rest)
    (ih : ∀ (mode : Mode) (text : List Char), text.length ≤ rest.length → '\x00' ∉ text →
      mode.FitsOn line → Settles (mode.fault? line) line text) :
    Settles (fun rest => Mode.blockComment.fault? line ('*' :: rest)) line rest := by
  have hfits : Mode.blockComment.FitsOn line := rfl
  have hclose (rest : List Char) : Mode.blockComment.fault? line ('*' :: '/' :: rest) =
      Mode.start.fault? line rest := (fault?_cons hfits (by decide) rfl).1
  have hend := (hclose []).trans (fault?_start_nil line)
  cases rest with
  | nil =>
    have hstar : Mode.blockComment.fault? line ['*'] = Mode.blockComment.fault? line [] :=
      (fault?_cons hfits (by decide) rfl).1
    cases settles_nil hfits with
    | ends _ _ h => exact .ends _ hend (hstar ▸ h)
  | cons d rest =>
    obtain ⟨hd, hrest⟩ := not_or.mp (List.mem_cons.not.mp hplain)
    by_cases hslash : d = '/'
    · subst hslash
      refine .read ?_
      simp only [hclose]
      exact ih .start rest (Nat.le_succ _) hrest rfl
    · refine (ih .blockComment (d :: rest) le_rfl hplain rfl).congr_cons ?_ ⟨_, hend⟩
      intro rest
      obtain ⟨r, hback, hlexer⟩ := (Reader.behind_cons (Ne.symm hd) rest line).back
      have hreact : Mode.blockComment.react (some '*') ⟨d :: rest, none, line, false⟩ =
          Reply.go .blockComment r := by
        simp [react, Reader.read_cons (Ne.symm hd), hback, hslash]
      rw [(fault?_cons hfits (by decide) hreact).1, Verdict.fault?, hlexer]
      rfl

/-- The fault of a text behind the front of an opening tag. -/
def tagFault? (found : List Char) (start : Nat) (text : List Char) : Option (Located LexicalFault) :=
  (Lexer.mk ('<' :: '?' :: found ++ text.takeWhile (· != '\x00')) start false).fault?

/-- The letters of the opening tag and the blank behind them are read one by one. -/
theorem settles_tag (letters found : List Char) (htag : found ++ letters = tagName)
    (hpast : Lexer.Past ⟨[], line, false⟩ ('<' :: '?' :: found) start) (hplain : '\x00' ∉ rest)
    (hstart : ∀ text line, text.length ≤ rest.length → '\x00' ∉ text →
      Settles (Mode.start.fault? line) line text) :
    Settles (tagFault? found start) line rest := by
  have hrefused {letters found rest rest' : List Char} {line line' : Nat} {fault : LexicalFault}
      (htag : found ++ letters = tagName)
      (hpast : Lexer.Past ⟨[], line, false⟩ ('<' :: '?' :: found) start)
      (h : (Reader.mk rest none line false).readTag letters start =
        Reply.refuse fault ⟨rest', none, line', false⟩) :
      tagFault? found start rest = some ⟨line', fault⟩ :=
    (Lexer.fault?_eq _).trans
      ((Part.readTag_leads letters found ⟨rest, none, line, false⟩ htag hpast).fault?_eq h).1
  induction letters generalizing found line rest with
  | nil =>
    have hblank {c : Char} (hc : c ≠ '\x00') (h : Text.isBlank c) (rest : List Char) :
        tagFault? found start (c :: rest) = Mode.start.fault? line (c :: rest) := by
      have hleads := Part.readTag_leads [] found ⟨c :: rest, none, line, false⟩ htag hpast
      simp only [Reader.readTag, Reader.read_cons hc, Option.any_some, h, if_true] at hleads
      exact (Lexer.fault?_eq _).trans (fault?_emitBefore hc hleads)
    have hopen : Mode.start.FitsOn line := rfl
    have hspace : Mode.start.fault? line [' '] = Mode.start.fault? line [] :=
      (fault?_cons hopen (by decide) rfl).1
    have hend := (hblank (by decide) (by decide) []).trans (hspace.trans (fault?_start_nil line))
    cases rest with
    | nil =>
      refine .ends _ hend ?_
      rw [hrefused htag hpast rfl]
      rintro _ ⟨⟩
      rfl
    | cons c rest =>
      obtain ⟨hc, _⟩ := not_or.mp (List.mem_cons.not.mp hplain)
      by_cases h : Text.isBlank c
      · exact (hstart _ _ le_rfl hplain).congr_cons (hblank (Ne.symm hc) h) ⟨_, hend⟩
      · refine .refused (e := ⟨_, .unseparatedTag⟩) _ hend rfl fun rest => ?_
        apply hrefused htag hpast
        simp [Reader.readTag, Reader.read_cons (Ne.symm hc), h]
        rfl
  | cons expected letters ih =>
    have hnul : expected ≠ '\x00' := by
      have hall : ∀ c ∈ tagName, c ≠ '\x00' := by decide
      exact hall expected (htag ▸ by simp)
    have hnext (rest : List Char) :
        tagFault? found start (expected :: rest) = tagFault? (found ++ [expected]) start rest := by
      simp [tagFault?, hnul]
    have hmore {rest : List Char} := @ih _ rest (found ++ [expected]) (by simpa using htag)
      ((Reader.behind_cons hnul [] line).past hpast)
    obtain ⟨more, hnone⟩ := (@hmore [] List.not_mem_nil fun text _ htext _ =>
      List.eq_nil_of_length_eq_zero (Nat.le_zero.mp htext) ▸ settles_nil rfl).exists_none
    have hend := (hnext more).trans hnone
    cases rest with
    | nil =>
      refine .ends _ hend ?_
      rw [hrefused htag hpast rfl]
      rintro _ ⟨⟩
      rfl
    | cons c rest =>
      obtain ⟨hc, hrest⟩ := not_or.mp (List.mem_cons.not.mp hplain)
      by_cases h : c = expected
      · subst h
        refine .read ?_
        simp only [hnext]
        exact hmore hrest fun text line hle => hstart text line (Nat.le_succ_of_le hle)
      · refine .refused (e := ⟨_, .malformedTag⟩) _ hend rfl fun rest => ?_
        apply hrefused htag hpast
        simp [Reader.readTag, Reader.read_cons (Ne.symm hc), h]
        rfl

/-- Every text is read, from every mode on. -/
theorem settles (mode : Mode) (hfits : mode.FitsOn line) (hplain : '\x00' ∉ text) :
    Settles (mode.fault? line) line text := by
  induction hn : text.length using Nat.strongRecOn generalizing text mode line with
  | ind n ih =>
    subst hn
    cases text with
    | nil => exact settles_nil hfits
    | cons c rest =>
      obtain ⟨hc, hrest⟩ := not_or.mp (List.mem_cons.not.mp hplain)
      have hstep (mode : Mode) (hfits : mode.FitsOn line)
          (hstart : mode ≠ .start → Settles (Mode.start.fault? line) line (c :: rest)) :
          Settles (mode.fault? line) line (c :: rest) := by
        by_cases hstar : mode = .blockComment ∧ c = '*'
        · obtain ⟨rfl, rfl⟩ := hstar
          exact .read (settles_star hrest fun mode text hle hplain hfits =>
            ih _ (Nat.lt_succ_of_le hle) mode hfits hplain rfl)
        by_cases htag : ∃ start, mode = .inside .relational ['<'] start ∧ c = '?'
        · obtain ⟨start, rfl, rfl⟩ := htag
          have htag (rest : List Char) : (Mode.inside .relational ['<'] start).fault? line
              ('?' :: rest) = tagFault? [] start rest := by
            rw [tagFault?, Lexer.fault?_eq]
            rfl
          refine .read ?_
          simp only [htag]
          exact settles_tag tagName [] rfl hfits.1 hrest
            fun text line hle hplain => ih _ (Nat.lt_succ_of_le hle) .start rfl hplain rfl
        · exact (foresees hstar (by simpa using htag)).settles hfits (Ne.symm hc) hrest
            (fun mode line hfits => ih _ (Nat.lt_succ_self _) mode hfits hrest rfl) hstart
      exact hstep mode hfits fun _ => hstep .start rfl fun h => absurd rfl h

end Mode

/-! ## The line of a fault -/

/-- A text with this front can be cut into tokens. -/
def Viable (front : List Char) : Prop :=
  ∃ more tokens, tokenize (String.ofList (front ++ more)) = .ok tokens

/-- The place in a text where it stops being the front of tokens: in front of the first character
that no text with this front can have there, or at its end.  It is found by what texts can be cut,
not by where the lexer stands, so that the line of a fault has something to agree with. -/
def StopsAt (before behind : List Char) : Prop :=
  Viable before ∧ ∀ c ∈ behind.head?, ¬ Viable (before ++ [c])

theorem viable_iff {front : List Char} :
    Viable front ↔ ∃ more, Mode.start.fault? 1 (front ++ more) = none := by
  refine exists_congr fun more => ?_
  have htokens : tokenize (String.ofList (front ++ more)) =
      (Reader.mk (front ++ more) none 1 false).lexer.tokens := by
    rw [tokenize, Lexer.ofSource, String.toList_ofList]
    rfl
  rw [htokens, Mode.fault?_start, Lexer.fault?]
  cases (Reader.mk (front ++ more) none 1 false).lexer.tokens <;> simp

theorem Viable.of_append {front behind : List Char} (h : Viable (front ++ behind)) :
    Viable front := by
  obtain ⟨more, tokens, hok⟩ := h
  exact ⟨behind ++ more, tokens, by rwa [← List.append_assoc]⟩

/-- A text does not stop before the place where it stops. -/
theorem StopsAt.length_le {before behind before' behind' : List Char} (h : StopsAt before behind)
    (h' : StopsAt before' behind') (htext : before ++ behind = before' ++ behind') :
    before'.length ≤ before.length := by
  obtain ⟨more, rfl, rfl⟩ | ⟨more, rfl, rfl⟩ := List.append_eq_append_iff.mp htext
  · cases more with
    | nil => simp
    | cons c more =>
      have hviable := h'.1
      rw [← List.singleton_append, ← List.append_assoc] at hviable
      exact absurd hviable.of_append (h.2 c rfl)
  · simp

/-- The line of a fault counts the newlines up to the character that made the text fail, and that
character too: it is one line too far down where that character is a newline itself. -/
theorem tokenize_fault_line {source : String} (h : tokenize source = .error e) :
    let text := source.toList.takeWhile (· != '\x00')
    (∃ before behind, text = before ++ behind ∧ StopsAt before behind) ∧
    ∀ before behind, text = before ++ behind → StopsAt before behind →
      e.line = 1 + before.count '\n' + if behind.head? = some '\n' then 1 else 0 := by
  intro text
  have hplain : '\x00' ∉ text := fun hmem => by simpa using List.mem_takeWhile_imp hmem
  have hfault : Mode.start.fault? 1 text = some e := by
    have hcut : text.takeWhile (· != '\x00') = text :=
      List.takeWhile_eq_self_iff.mpr fun c hc => by simpa using ne_of_mem_of_not_mem hc hplain
    have htokens : (Lexer.mk text 1 false).tokens = .error e := h
    rw [Mode.fault?_start]
    show Lexer.fault? ⟨text.takeWhile (· != '\x00'), 1, false⟩ = some e
    rw [hcut, Lexer.fault?, htokens]
  obtain ⟨before, behind, htext, hviable, hstop, hline⟩ :=
    (Mode.start.settles rfl hplain).exists_stop hfault
  have hstops : StopsAt before behind := by
    refine ⟨viable_iff.mpr hviable, fun c hc hviable => ?_⟩
    obtain ⟨more, hmore⟩ := viable_iff.mp hviable
    rw [List.append_assoc] at hmore
    exact hstop c hc more hmore
  refine ⟨⟨before, behind, htext, hstops⟩, fun before' behind' htext' hstops' => ?_⟩
  have hsame := htext.symm.trans htext'
  obtain ⟨rfl, rfl⟩ := List.append_inj hsame
    (Nat.le_antisymm (hstops'.length_le hstops hsame.symm) (hstops.length_le hstops' hsame))
  exact hline

theorem tokenize_fault_line_newline :
    tokenize "$\n" = .error ⟨2, .danglingDollar⟩ ∧ StopsAt ['$'] ['\n'] ∧
      2 = 1 + ['$'].count '\n' + if ['\n'].head? = some '\n' then 1 else 0 := by
  have hgap (more : List Char) : gap? ('$' :: '\n' :: more) = some 0 :=
    gap?_of_ne (by decide) (by decide) (by decide) _
  have hfault (more : List Char) :
      (Lexer.mk ('$' :: '\n' :: more) 1 false).tokens = .error ⟨2, .danglingDollar⟩ :=
    Lexer.tokens_of_fault (Lexer.next_fault 1 (hgap more) rfl)
  have hstops : StopsAt ['$'] ['\n'] := by
    refine ⟨⟨['a'], [⟨.varName, "$a", 1⟩, ⟨.eof, "", 1⟩], eq_ok_of_toOption (by decide +kernel)⟩, ?_⟩
    rintro c ⟨⟩ ⟨more, tokens, hok⟩
    rw [tokenize, Lexer.ofSource, String.toList_ofList] at hok
    cases (hfault _).symm.trans hok
  have htokens : tokenize "$\n" = .error ⟨2, .danglingDollar⟩ := hfault []
  exact ⟨htokens, hstops, (tokenize_fault_line htokens).2 ['$'] ['\n'] rfl hstops⟩

end Ifj22
