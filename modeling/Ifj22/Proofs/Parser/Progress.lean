import Ifj22.Proofs.Parser.Program
set_option autoImplicit false

/-!
# Parser: reading ends at the end of the text

The tokens may hold the end of the text more than once.  Reading stops at the first one: whatever
tokens come before it, a program or a fault of the text is found (`parse_progress`), the cursor goes
forward with every statement and never behind the first end, and it stands there when a program has
been read.
-/

namespace Ifj22

namespace Parser

variable {p p' : Parser} {ts : List Token}

/-- The place of the first token that is the end of the text. -/
def firstEnd (tokens : List Token) : Nat := tokens.findIdx (·.kind = .eof)

theorem kind_getElem_firstEnd {tokens : List Token} (h : firstEnd tokens < tokens.length) :
    tokens[firstEnd tokens].kind = .eof := by
  have hfound := List.findIdx_getElem (w := h)
  exact of_decide_eq_true hfound

theorem Ends.firstEnd_lt (hp : p.Ends) : firstEnd p.tokens.toList < p.tokens.toList.length := by
  obtain ⟨init, last, heq, hlast⟩ := hp
  refine List.findIdx_lt_length_of_exists ⟨last, ?_, decide_eq_true hlast⟩
  rw [heq]
  exact List.mem_append_right _ (.head _)

/-- Tokens that are passed before the first end do not reach behind it. -/
theorem Passes.index_le_firstEnd (h : p.Passes ts p') (hp : p.Ends)
    (hindex : p.index ≤ firstEnd p.tokens.toList) : p'.index ≤ firstEnd p.tokens.toList := by
  refine Nat.le_of_not_lt fun hlt => ?_
  have hend := hp.firstEnd_lt
  obtain ⟨k, hk⟩ := Nat.exists_eq_add_of_le hindex
  have hkt : k < ts.length := by
    have := h.index
    omega
  -- the first end would be one of the tokens that are passed
  have hget : ts[k] = p.tokens.toList[firstEnd p.tokens.toList] := by
    have hahead : p.ahead[k]? = some ts[k] := by
      rw [h.passed, List.getElem?_append_left hkt, List.getElem?_eq_getElem hkt]
    unfold ahead at hahead
    rw [List.getElem?_drop, ← hk, List.getElem?_eq_getElem hend] at hahead
    exact (Option.some.inj hahead).symm
  exact h.inside _ (List.getElem_mem hkt) (hget ▸ kind_getElem_firstEnd hend)

/-- A cursor up to the first end that finds the end stands there. -/
theorem index_eq_firstEnd (hp : p.Ends) (hindex : p.index ≤ firstEnd p.tokens.toList)
    (hk : p.kind = .eof) : p.index = firstEnd p.tokens.toList := by
  refine Nat.le_antisymm hindex (Nat.le_of_not_lt fun hlt => ?_)
  have hend := hp.firstEnd_lt
  have hlength : p.index < p.tokens.toList.length := Nat.lt_trans hlt hend
  have hahead : p.ahead = p.tokens.toList[p.index] :: p.skip.ahead :=
    List.drop_eq_getElem_cons hlength
  have hbefore := of_decide_eq_false (List.not_of_lt_findIdx hlt)
  exact hbefore ((kind_of_ahead hahead).symm.trans hk)

/-- Every tree is over the vocabulary of all names. -/
def allNames : Vocabulary := ⟨fun _ => True, fun _ _ => True⟩

theorem Ends.good (hp : p.Ends) : p.Good allNames :=
  ⟨hp, fun _ _ => ⟨fun _ _ => trivial, fun _ => trivial⟩⟩

/-- A statement that is read moves the cursor forward. -/
theorem meets_statement (hp : p.Ends) (hindex : p.index ≤ firstEnd p.tokens.toList) (fuel : Nat)
    (toplevel : Bool) (hfuel : 3 * (p.tokens.size - p.index) + 2 ≤ fuel) :
    Meets (statement fuel toplevel) p
      (fun e p' => ¬ e.Internal ∧ p.index ≤ p'.index ∧ p'.index ≤ firstEnd p.tokens.toList)
      fun _ p' => p.index < p'.index ∧ p'.index ≤ firstEnd p.tokens.toList := by
  have hlength : p.ahead.length = p.tokens.size - p.index := by
    unfold ahead
    rw [List.length_drop, Array.length_toList]
  refine (takes_statement fuel toplevel hp.good (by omega)).mono ?_ ?_
  · rintro e p' ⟨he, ts, h⟩
    exact ⟨he, by have := h.index; omega, h.index_le_firstEnd hp hindex⟩
  · rintro id p' ⟨ts, h, s, _, _, _, hsize⟩
    exact ⟨by have := h.index; omega, h.index_le_firstEnd hp hindex⟩

/-- Reading a whole program ends on the first end, or in a fault before it. -/
theorem meets_parse_firstEnd (hp : p.Ends) (hindex : p.index ≤ firstEnd p.tokens.toList) :
    Meets parse p
      (fun e p' => ¬ e.Internal ∧ p'.index ≤ firstEnd p.tokens.toList)
      fun _ p' => p'.index = firstEnd p.tokens.toList ∧ ∃ root q, front p = .ok root q ∧
        (q.index = p'.index ∨ q.index + 1 = p'.index ∧ q.kind = .closeTag) := by
  have hfront := takes_front hp.good
  rw [parse_eq, meets_bind]
  refine Meets.intro ?_ ?_
  · intro root q hrun
    obtain ⟨ts, h, _⟩ := Meets.of_ok hfront hrun
    have hq := h.ends hp
    have hqindex : q.index ≤ firstEnd q.tokens.toList := by
      rw [h.tokens]
      exact h.index_le_firstEnd hp hindex
    rw [meets_bind]
    refine (takes_back hq).mono ?_ ?_
    · rintro e p' ⟨he, us, hus⟩
      have hle := hus.index_le_firstEnd hq hqindex
      rw [h.tokens] at hle
      exact ⟨he, hle⟩
    · rintro _ r ⟨us, hus, _, hk, htag⟩
      have hr := hus.ends hq
      have htokens : r.tokens = p.tokens := hus.tokens.trans h.tokens
      have hrindex : r.index ≤ firstEnd r.tokens.toList := by
        rw [hus.tokens]
        exact hus.index_le_firstEnd hq hqindex
      have hend := index_eq_firstEnd hr hrindex hk
      rw [htokens] at hend
      refine ⟨hend, root, q, hrun, ?_⟩
      show q.index = r.index ∨ q.index + 1 = r.index ∧ _
      rw [hus.index]
      rcases htag with rfl | ⟨t, rfl, ht⟩
      · exact .inl rfl
      · exact .inr ⟨rfl, (kind_of_ahead hus.passed).trans ht⟩
  · intro e p' hrun
    obtain ⟨he, ts, h⟩ := Meets.of_error hfront hrun
    exact ⟨he, h.index_le_firstEnd hp hindex⟩

/-- Reading a token list that ends with the end of the text always ends, in a program or in a fault of
the text.  The cursor never goes behind the first end; every statement that is read moves it forward;
and behind a program it stands on the first end, with nothing or one closing tag between the
statements and the end. -/
theorem parse_progress {tokens : List Token} {last : Token} (hlast : tokens.getLast? = some last)
    (heof : last.kind = .eof) :
    Meets parse (ofTokens tokens)
      (fun e p' => ¬ e.Internal ∧ p'.index ≤ firstEnd tokens)
      (fun _ p' => p'.index = firstEnd tokens ∧ ∃ root q, front (ofTokens tokens) = .ok root q ∧
        (q.index = p'.index ∨ q.index + 1 = p'.index ∧ q.kind = .closeTag)) ∧
    ∀ p : Parser, p.tokens = tokens.toArray → p.index ≤ firstEnd tokens →
      Meets advance p (fun _ _ => False)
        (fun _ p' => p.index ≤ p'.index ∧ p'.index ≤ firstEnd tokens) ∧
      ∀ (fuel : Nat) (toplevel : Bool), 3 * (tokens.length - p.index) + 2 ≤ fuel →
        Meets (statement fuel toplevel) p
          (fun e p' => ¬ e.Internal ∧ p.index ≤ p'.index ∧ p'.index ≤ firstEnd tokens)
          fun _ p' => p.index < p'.index ∧ p'.index ≤ firstEnd tokens := by
  have hends (p : Parser) (hp : p.tokens = tokens.toArray) : p.Ends := by
    obtain ⟨init, rfl⟩ := List.getLast?_eq_some_iff.mp hlast
    exact ⟨init, last, by rw [hp], heof⟩
  refine ⟨meets_parse_firstEnd (hends _ rfl) (Nat.zero_le _), fun p hp hindex => ?_⟩
  have htokens : p.tokens.toList = tokens := by rw [hp]
  refine ⟨?_, fun fuel toplevel hfuel => ?_⟩
  · unfold advance
    rw [meets_modify]
    split
    · exact ⟨Nat.le_refl _, hindex⟩
    · rename_i hk
      obtain ⟨t, ht⟩ := (hends p hp).next hk
      have hpass := Passes.skip ht (kind_of_ahead ht ▸ hk)
      have hle := hpass.index_le_firstEnd (hends p hp) (htokens.symm ▸ hindex)
      rw [htokens] at hle
      exact ⟨Nat.le_succ _, hle⟩
  · have hmeets := meets_statement (hends p hp) (htokens.symm ▸ hindex) fuel toplevel
      (by rwa [hp, List.size_toArray])
    rwa [htokens] at hmeets

theorem parse_progress_inner_end :
    let tokens : List Token :=
      [⟨.openTag, "<?php", 1⟩, ⟨.varName, "$x", 1⟩, ⟨.increment, "++", 1⟩, ⟨.semicolon, ";", 1⟩,
        ⟨.closeTag, "?>", 1⟩, ⟨.eof, "", 1⟩, ⟨.kwIf, "if", 2⟩, ⟨.eof, "", 2⟩]
    tokens.getLast? = some ⟨.eof, "", 2⟩ ∧ firstEnd tokens = 5 ∧
      ∃ program p' root q, parse (ofTokens tokens) = .ok program p' ∧ p'.index = 5 ∧
        front (ofTokens tokens) = .ok root q ∧
        (q.index = p'.index ∨ q.index + 1 = p'.index ∧ q.kind = .closeTag) := by
  intro tokens
  have hlast : tokens.getLast? = some ⟨.eof, "", 2⟩ := rfl
  have hfirst : firstEnd tokens = 5 := by decide
  obtain ⟨program, p', hrun, _⟩ : ∃ program p', parse (ofTokens tokens) = .ok program p' ∧ True := by
    decide +kernel
  clear_value tokens
  obtain ⟨hindex, root, q, hfront, hq⟩ := (parse_progress hlast rfl).1.of_ok hrun
  exact ⟨hlast, hfirst, program, p', root, q, hrun, hindex.trans hfirst, hfront, hq⟩

end Parser

end Ifj22
