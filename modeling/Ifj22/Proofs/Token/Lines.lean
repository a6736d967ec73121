import Ifj22.Proofs.Token.Agreement
set_option autoImplicit false

/-!
# Token: line numbers

Wherever the lexer stands, its line is one more than the number of newlines it has read, and every
token carries the line of its first character.  Since the automaton of `Reader` is the lexer, the
same holds of it, with its newlines counted one by one and taken back with a character put back.
-/

namespace Ifj22

namespace Lexer

/-- The lexer behind `n` further tokens or faults. -/
def after : Nat → Lexer → Lexer
  | 0, l => l
  | n + 1, l => l.next.2.after n

/-- The lexer has read a front of the text and counted its newlines. -/
def Counts (text : List Char) (l : Lexer) : Prop :=
  ∃ consumed, text = consumed ++ l.rest ∧ l.line = 1 + consumed.count '\n'

variable {text : List Char} {l l' : Lexer} {t : Token}

theorem counts_ofSource (source : String) :
    Counts (source.toList.takeWhile (· != '\x00')) (ofSource source) :=
  ⟨[], rfl, rfl⟩

theorem Counts.advance (h : Counts text l) (n : Nat) : Counts text (l.advance n) := by
  obtain ⟨consumed, htext, hline⟩ := h
  refine ⟨consumed ++ l.rest.take n, ?_, ?_⟩
  · rw [rest_advance, List.append_assoc, List.take_append_drop, htext]
  · rw [line_advance, hline, List.count_append, Nat.add_assoc]

/-- Every step of the lexer is an advance over some characters. -/
theorem next_advance (l : Lexer) :
    ∃ n closed, l.next.2 = { l.advance n with closed := closed } := by
  unfold next
  split
  · unfold nextClosed
    split
    · exact ⟨0, l.closed, by simp [advance]⟩
    · exact ⟨1, _, rfl⟩
    · exact ⟨2, _, rfl⟩
    · exact ⟨1, _, rfl⟩
  · unfold nextOpen
    split
    · exact ⟨_, _, rfl⟩
    · rename_i n _
      dsimp only
      split
      · exact ⟨_, _, by rw [fail, advance_advance]⟩
      · exact ⟨_, _, by rw [advance_advance]⟩

theorem Counts.next (h : Counts text l) : Counts text l.next.2 := by
  obtain ⟨n, closed, hnext⟩ := l.next_advance
  rw [hnext]
  exact h.advance n

theorem Counts.after (h : Counts text l) (n : Nat) : Counts text (l.after n) := by
  induction n generalizing l with
  | zero => exact h
  | succ n ih => exact ih h.next

/-- A token carries the line of its first character, and the end the line of the text's end. -/
theorem Counts.token (h : Counts text l) (hnext : l.next = (.ok t, l')) :
    (t.kind ≠ .eof → ∃ before, text = before ++ (t.text.toList ++ l'.rest) ∧
      t.line = 1 + before.count '\n') ∧
    (t.kind = .eof → t.line = 1 + text.count '\n') := by
  obtain ⟨consumed, rfl, hline⟩ := h
  obtain hends | ⟨gap, hfinds⟩ := next_ok hnext
  · refine ⟨fun hne => absurd hends.kind hne, fun _ => ?_⟩
    rw [hends.line, hline, List.count_append, Nat.add_assoc]
  · refine ⟨fun _ => ⟨consumed ++ gap, ?_, ?_⟩, fun heof => absurd heof hfinds.found.ne_eof⟩
    · rw [hfinds.rest, List.append_assoc]
    · rw [hfinds.line, hline, List.count_append, Nat.add_assoc]

end Lexer

namespace Reader

/-- The reader behind `n` further tokens or faults. -/
def after : Nat → Reader → Option Reader
  | 0, r => some r
  | n + 1, r => r.next.bind fun step => step.2.after n

/-- However many tokens are read, the automaton stands where the lexer stands. -/
theorem after_lexer (n : Nat) (r : Reader) :
    ∃ r', r.after n = some r' ∧ r'.lexer = r.lexer.after n := by
  induction n generalizing r with
  | zero => exact ⟨r, rfl, rfl⟩
  | succ n ih =>
    obtain ⟨r1, hnext, hlexer⟩ := r.next_lexer
    obtain ⟨r2, hafter, hlexer'⟩ := ih r1
    refine ⟨r2, ?_, ?_⟩
    · rw [after, hnext, Option.bind_some, hafter]
    · rw [hlexer', hlexer]
      rfl

/-- The lines are counted exactly, over any number of tokens and faults: no newline is taken off a
count of zero, the line is one more than the number of newlines read and not put back, a token
carries the line of its first character, and the end carries the line of the text's end. -/
theorem lines_exact (source : String) (n : Nat) :
    let text := source.toList.takeWhile (· != '\x00')
    let lexer := (Lexer.ofSource source).after n
    ∃ r, (ofSource source).after n = some r ∧ r.lexer = lexer ∧
      r.next.map (·.1) = some lexer.next.1 ∧
      (∃ consumed, text = consumed ++ r.lexer.rest ∧ r.line = 1 + consumed.count '\n') ∧
      ∀ t r', r.next = some (.ok t, r') →
        (t.kind ≠ .eof → ∃ before, text = before ++ (t.text.toList ++ r'.lexer.rest) ∧
          t.line = 1 + before.count '\n') ∧
        (t.kind = .eof → t.line = 1 + text.count '\n') := by
  intro text lexer
  obtain ⟨r, hafter, hlexer⟩ := (ofSource source).after_lexer n
  have hcounts : Lexer.Counts text r.lexer := by
    rw [hlexer]
    exact (Lexer.counts_ofSource source).after n
  obtain ⟨r₁, hnext, hlexer₁⟩ := r.next_lexer
  refine ⟨r, hafter, hlexer, ?_, hcounts, ?_⟩
  · rw [hnext, Option.map_some, hlexer]
    rfl
  · intro t r' ht
    rw [hnext, Option.some.injEq, Prod.mk.injEq] at ht
    obtain ⟨htoken, rfl⟩ := ht
    rw [hlexer₁]
    exact hcounts.token (Prod.ext htoken rfl)

theorem lines_exact_sample :
    let source := "<?php\n/*\n*/ $a =\n\"x\ny\"?>\n\x00\n"
    let r : Reader := ⟨"\"x\ny\"?>\n\x00\n".toList, some '\n', 3, false⟩
    let r' : Reader := ⟨"?>\n\x00\n".toList, none, 5, false⟩
    (ofSource source).after 3 = some r ∧ r.next = some (.ok ⟨.stringLiteral, "x\ny", 4⟩, r') ∧
      ∃ before, source.toList.takeWhile (· != '\x00') = before ++ "\"x\ny\"?>\n".toList ∧
        4 = 1 + before.count '\n' := by
  intro source r r'
  have hafter : (ofSource source).after 3 = some r := by decide +kernel
  have hnext : r.next = some (.ok ⟨.stringLiteral, "x\ny", 4⟩, r') := by
    have hsome : r.next.map (fun step => (step.1.toOption, step.2)) =
        some (some ⟨.stringLiteral, "x\ny", 4⟩, r') := by
      decide +kernel
    obtain ⟨⟨outcome, r₁⟩, hnext, hstep⟩ := Option.map_eq_some_iff.mp hsome
    obtain ⟨houtcome, rfl⟩ := Prod.mk.inj hstep
    obtain rfl := eq_ok_of_toOption houtcome
    exact hnext
  refine ⟨hafter, hnext, ?_⟩
  obtain ⟨r₁, hafter₁, _, _, _, htoken⟩ := lines_exact source 3
  cases hafter.symm.trans hafter₁
  exact (htoken _ _ hnext).1 (by decide)

end Reader

end Ifj22
