import Ifj22.Compile
import Ifj22.Proofs.Parser.Program
import Ifj22.Proofs.Typing.Integer
set_option autoImplicit false

/-!
# Analysis: what is known of an analyzed program

The front end refuses a text for a fault of the text, or yields a program whose arena holds a tree
over names that its table knows, settled under that table.
-/

namespace Ifj22

/-- What analysis finds out about the statements of a program. -/
structure Checked.Sound (checked : Checked) (body : List Stmt) : Prop where
  holds : checked.program.Holds body
  spelled : ∀ s ∈ body, s.OverTop .spelled
  known : ∀ s ∈ body, s.OverTop checked.table.lexicon
  settled : ∀ s ∈ body, s.Settled checked.table none
  grown : ∃ t, SymbolTable.builtins.Hoists t body ∧ t.Grows checked.table

/-! ## The front end -/

/-- What the statements of a program are checked into: names are known, functions were declared
first, and settling only adds to the tables. -/
structure Stmt.CheckedInto (body body' : List Stmt) (t : SymbolTable) : Prop where
  hoisted : ∃ u, SymbolTable.builtins.Hoists u body ∧ u.Grows t
  accepts : List.Forall₂ (Checker.Accepts t) body body'
  known : ∀ s ∈ body', s.OverTop t.lexicon
  grows : t.Grows (Stmt.settleRounds body' (6 * t.symbolCount + 1) t)
  settled : ∀ s ∈ body', s.Settled (Stmt.settleRounds body' (6 * t.symbolCount + 1) t) none

theorem Stmt.checkedInto {L : Lexicon} {body body' : List Stmt} {c : Checker}
    (hbody : ∀ s ∈ body, s.OverTop L)
    (hrun : Stmt.checkProgram body (Checker.start .builtins) = .ok body' c) :
    Stmt.CheckedInto body body' c.table := by
  obtain ⟨t, hhoists, hgrows, haccepts⟩ :=
    (Checker.meets_checkProgram hbody SymbolTable.builtins).of_ok hrun
  have hknown : ∀ s ∈ body', s.OverTop c.table.lexicon := by
    intro s' hs'
    obtain ⟨s, hs, hacc⟩ := exists_of_mem_right haccepts hs'
    refine hacc.known fun name hname => ?_
    cases s with
    | function name' params declared b =>
      obtain rfl := Option.some.inj hname
      obtain ⟨f, hf, hfun, _⟩ := (hhoists.head name' params declared b hs).symbol
      obtain ⟨f', hf', hg⟩ := hgrows.symbols hf
      exact ⟨f', hf', hg.isFunction.trans hfun⟩
    | _ => cases hname
  obtain ⟨hsettlegrows, hsettled⟩ :=
    settleRounds_settled (6 * c.table.symbolCount + 1) c.table hknown (by omega)
  exact ⟨⟨t, hhoists, hgrows⟩, haccepts, hknown, hsettlegrows, hsettled⟩

/-- A program of the parser is refused for its own fault, or checked soundly. -/
theorem Program.Holds.check_sound {p : Program} {body : List Stmt} (h : p.Holds body)
    (hspelled : ∀ s ∈ body, s.OverTop .spelled) :
    match p.check with
    | .ok checked => checked.program.arena.size = p.arena.size ∧ ∃ body', checked.Sound body' ∧
        (Stmt.allInteger body = true → body' = body ∧ checked.table.Integer)
    | .error e => ¬ e.Internal := by
  have hcheck := h.check
  cases hrun : Stmt.checkProgram body (Checker.start .builtins) with
  | error e c =>
    rw [hrun] at hcheck
    rw [hcheck]
    exact (Checker.meets_checkProgram hspelled SymbolTable.builtins).of_error hrun
  | ok body' c =>
    rw [hrun] at hcheck
    obtain ⟨checked, hok, hfrom⟩ := hcheck
    obtain ⟨⟨t, hhoists, hgrows⟩, haccepts, hknown, hsettlegrows, hsettled⟩ :=
      Stmt.checkedInto hspelled hrun
    rw [hok]
    have hinteger : Stmt.allInteger body = true → body' = body ∧
        (Stmt.settleRounds body' (6 * c.table.symbolCount + 1) c.table).Integer := by
      intro hint
      obtain ⟨htable, rfl⟩ :=
        Stmt.checkProgram_integer hspelled hint SymbolTable.integer_builtins hrun
      exact ⟨rfl, Stmt.settleRounds_integer hspelled (Stmt.allInteger_iff.mp hint) htable hknown _⟩
    rw [← hfrom.table] at hsettlegrows hsettled hinteger
    refine ⟨hfrom.size, body',
      ⟨hfrom.holds, overTop_of_accepts haccepts hspelled, ?_, hsettled, t, ?_, ?_⟩, hinteger⟩
    · exact fun s hs => hsettlegrows.toplevel (hknown s hs)
    · exact hhoists.accepts haccepts
    · exact hgrows.trans hsettlegrows

/-- What analysis without simplification makes of a text: a fault of the text, or a checked program,
which is the parsed one if that is an integer program. -/
theorem analyze_parsed (source : String) :
    match analyze false source with
    | .ok checked => checked.program.arena.size ≤ 2 * (source.length + 1) ∧
        ∃ tokens program tree body, tokenize source = .ok tokens ∧ parseTokens tokens = .ok program ∧
          program.tree? = some tree ∧ checked.Sound body ∧
          (Stmt.allInteger tree = true → body = tree ∧ checked.table.Integer)
    | .error e => ¬ e.Internal := by
  unfold analyze
  cases htok : tokenize source with
  | error e => exact id
  | ok tokens =>
    obtain ⟨hlist, hlen⟩ := tokenize_shape htok
    have hparse := parseTokens_spelled hlist
    show match analyzeTokens false tokens with | .ok checked => _ | .error e => _
    cases hp : parseTokens tokens with
    | error e =>
      have hanalyze : analyzeTokens false tokens = .error e := by
        unfold analyzeTokens
        rw [hp]
        rfl
      rw [hp] at hparse
      rw [hanalyze]
      exact hparse
    | ok program =>
      have hanalyze : analyzeTokens false tokens = program.check := by
        unfold analyzeTokens
        rw [hp]
        show (program.check >>= fun checked => pure checked) = _
        exact bind_pure _
      rw [hp] at hparse
      obtain ⟨⟨tree, hholds, hspelled⟩, hsize⟩ := hparse
      have hcheck := hholds.check_sound hspelled
      rw [hanalyze]
      cases hc : program.check with
      | error e =>
        rw [hc] at hcheck
        exact hcheck
      | ok checked =>
        rw [hc] at hcheck
        obtain ⟨hsame, body, hsound, hinteger⟩ := hcheck
        exact ⟨by omega, tokens, program, tree, body, rfl, hp, hholds.tree?_eq, hsound, hinteger⟩

/-- Analysis without simplification. -/
theorem analyze_sound (source : String) :
    match analyze false source with
    | .ok checked => checked.program.arena.size ≤ 2 * (source.length + 1) ∧
        ∃ body, checked.Sound body
    | .error e => ¬ e.Internal := by
  have hparsed := analyze_parsed source
  cases hanalyze : analyze false source with
  | error e =>
    rw [hanalyze] at hparsed
    exact hparsed
  | ok checked =>
    rw [hanalyze] at hparsed
    obtain ⟨hsize, _, _, _, body, _, _, _, hsound, _⟩ := hparsed
    exact ⟨hsize, body, hsound⟩

/-- The run of the checker behind an accepted text. -/
theorem analyze_eq_ok {source : String} {checked : Checked}
    (h : analyze false source = .ok checked) :
    ∃ program tree body c, parseSource source = .ok program ∧ program.Holds tree ∧
      (∀ s ∈ tree, s.OverTop .spelled) ∧
      Stmt.checkProgram tree (Checker.start .builtins) = .ok body c ∧
      checked.From program body c.table := by
  unfold analyze at h
  unfold parseSource
  cases htok : tokenize source with
  | error e =>
    rw [htok] at h
    cases h
  | ok tokens =>
    rw [htok] at h
    have h : analyzeTokens false tokens = .ok checked := h
    obtain ⟨hlist, _⟩ := tokenize_shape htok
    have hparse := parseTokens_spelled hlist
    unfold analyzeTokens at h
    cases hp : parseTokens tokens with
    | error e =>
      rw [hp] at h
      cases h
    | ok program =>
      rw [hp] at h hparse
      obtain ⟨⟨tree, hholds, hspelled⟩, _⟩ := hparse
      have h : program.check = .ok checked := by
        rw [← h]
        exact (bind_pure program.check).symm
      have hcheck := hholds.check
      cases hrun : Stmt.checkProgram tree (Checker.start .builtins) with
      | error e c =>
        rw [hrun] at hcheck
        rw [hcheck] at h
        cases h
      | ok body c =>
        rw [hrun] at hcheck
        obtain ⟨checked', hok, hfrom⟩ := hcheck
        rw [h] at hok
        cases hok
        exact ⟨program, tree, body, c, hp, hholds, hspelled, hrun, hfrom⟩

/-- Simplification changes the program of an analysis, and nothing else. -/
theorem analyze_true (source : String) :
    analyze true source = (analyze false source).map fun checked =>
      { checked with program := checked.program.simplify } := by
  unfold analyze
  cases tokenize source with
  | error e => rfl
  | ok tokens =>
    show analyzeTokens true tokens = (analyzeTokens false tokens).map _
    unfold analyzeTokens
    cases parseTokens tokens with
    | error e => rfl
    | ok program =>
      show (program.check >>= _) = Except.map _ (program.check >>= _)
      cases program.check <;> rfl

/-- The table of an analysis does not depend on simplification. -/
theorem analyze_table {simplify : Bool} {source : String} {checked : Checked}
    (h : analyze simplify source = .ok checked) :
    ∃ plain, analyze false source = .ok plain ∧ plain.table = checked.table := by
  cases simplify with
  | false => exact ⟨checked, h, rfl⟩
  | true =>
    rw [analyze_true] at h
    cases hplain : analyze false source with
    | error e =>
      rw [hplain] at h
      cases h
    | ok plain =>
      rw [hplain] at h
      cases h
      exact ⟨plain, rfl, rfl⟩

/-! ## A program -/

/-- A program with a function, a loop, branches and output. -/
def sample : String :=
  "<?php declare(strict_types=1);
  function f(int $n): int { $k = 1; while ($n > $k) { $n = $n - $k; } return $n; }
  $x = 2 * 3; if ($x < 7) { write(f($x)); } else { $x = 1; } write($x);"

theorem sample_accepted : ∃ checked, analyze false sample = .ok checked := by
  obtain ⟨checked, h, _⟩ : ∃ checked, analyze false sample = .ok checked ∧ True := by
    decide +kernel
  exact ⟨checked, h⟩

end Ifj22
