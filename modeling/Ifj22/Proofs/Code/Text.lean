import Ifj22.Proofs.Code.Declarations
set_option autoImplicit false

/-!
# Code: the text of a listing

A string constant is written without blanks, control characters and comment signs, and can be read
back (`unescape_escape`).  So are the other words of an instruction: names, labels and numbers.  Hence
the text of a listing, cut at the ends of its lines and each line at its blanks, gives the operation
codes and the operands of its instructions.
-/

namespace Ifj22

variable {c : Char}

namespace Code

/-! ## String constants -/

/-- The number that decimal digits spell. -/
def codeOf (a b c : Char) : Nat := 100 * (a.toNat - 48) + 10 * (b.toNat - 48) + (c.toNat - 48)

/-- Reads each backslash with the three characters behind it as the character of that code. -/
def unescape : List Char → List Char
  | '\\' :: a :: b :: c :: rest => Char.ofNat (codeOf a b c) :: unescape rest
  | c :: rest => c :: unescape rest
  | [] => []

/-- The character neither ends a word or a line nor starts a comment. -/
def IsPlain (c : Char) : Prop := 32 < c.toNat ∧ c ≠ '#'

instance (c : Char) : Decidable (IsPlain c) := inferInstanceAs (Decidable (_ ∧ _))

/-- The text is made of plain characters and of escapes. -/
inductive Escaped : List Char → Prop
  | nil : Escaped []
  | plain {c : Char} {text : List Char} (hc : IsPlain c) (hne : c ≠ '\\') (h : Escaped text) :
      Escaped (c :: text)
  | code {a b c : Char} {text : List Char} (ha : a.isDigit = true) (hb : b.isDigit = true)
      (hc : c.isDigit = true) (h : Escaped text) : Escaped ('\\' :: a :: b :: c :: text)

theorem isPlain_of_isDigit (h : c.isDigit = true) : IsPlain c := by
  simp only [Char.isDigit, Bool.and_eq_true, decide_eq_true_eq] at h
  have hle : 48 ≤ c.toNat := UInt32.le_iff_toNat_le.mp h.1
  refine ⟨by omega, ?_⟩
  rintro rfl
  exact absurd hle (by decide)

namespace Escaped

variable {text : List Char}

theorem isPlain (h : Escaped text) : ∀ c ∈ text, IsPlain c := by
  induction h with
  | nil => simp
  | plain hc _ _ ih => exact List.forall_mem_cons.mpr ⟨hc, ih⟩
  | code ha hb hc _ ih =>
    simp only [List.forall_mem_cons]
    exact ⟨by decide, isPlain_of_isDigit ha, isPlain_of_isDigit hb, isPlain_of_isDigit hc, ih⟩

/-- A text that does not start with the backslash has it further on. -/
theorem tail_of_ne {before behind : List Char} (hne : c ≠ '\\')
    (h : c :: text = before ++ '\\' :: behind) : ∃ before', text = before' ++ '\\' :: behind := by
  cases before with
  | nil => exact absurd (List.cons.inj h).1 hne
  | cons d before => exact ⟨before, (List.cons.inj h).2⟩

theorem ne_backslash (h : c.isDigit = true) : c ≠ '\\' := by
  rintro rfl
  exact absurd h (by decide)

/-- Behind every backslash there are three digits. -/
theorem digits (h : Escaped text) : ∀ {before behind : List Char},
    text = before ++ '\\' :: behind → ∃ a b c rest, behind = a :: b :: c :: rest ∧
      a.isDigit = true ∧ b.isDigit = true ∧ c.isDigit = true := by
  induction h with
  | nil => intro before behind heq; simp at heq
  | plain _ hne _ ih =>
    intro before behind heq
    obtain ⟨_, heq⟩ := tail_of_ne hne heq
    exact ih heq
  | @code a b c text ha hb hc _ ih =>
    intro before behind heq
    cases before with
    | nil => exact ⟨a, b, c, text, (List.cons.inj heq).2.symm, ha, hb, hc⟩
    | cons d before =>
      obtain ⟨_, heq⟩ := tail_of_ne (ne_backslash ha) (List.cons.inj heq).2
      obtain ⟨_, heq⟩ := tail_of_ne (ne_backslash hb) heq
      obtain ⟨_, heq⟩ := tail_of_ne (ne_backslash hc) heq
      exact ih heq

end Escaped

/-- The characters that are written as an escape have a code of two digits. -/
theorem toNat_lt_of_isEscaped (h : isEscaped c = true) : c.toNat < 100 := by
  simp only [isEscaped, Bool.or_eq_true, decide_eq_true_eq, beq_iff_eq] at h
  rcases h with (h | rfl) | rfl
  · omega
  · decide
  · decide

theorem escaped_cons {text : List Char} (h : Escaped text) : Escaped (escapeChar c ++ text) := by
  unfold escapeChar
  split
  · refine .code ?_ ?_ ?_ h
    all_goals
      rw [Nat.isDigit_digitChar]
      exact decide_eq_true (Nat.mod_lt _ (by decide))
  · rename_i hplain
    simp only [isEscaped, Bool.or_eq_true, decide_eq_true_eq, beq_iff_eq, not_or, Nat.not_le]
      at hplain
    exact .plain ⟨hplain.1.1, hplain.1.2⟩ hplain.2 h

theorem escaped_flatMap : ∀ chars : List Char, Escaped (chars.flatMap escapeChar)
  | [] => .nil
  | _ :: chars => escaped_cons (escaped_flatMap chars)

theorem escaped_escape (s : String) : Escaped (escape s).toList := by
  rw [escape, String.toList_ofList]
  exact escaped_flatMap s.toList

theorem codeOf_threeDigits {n : Nat} (h : n < 1000) :
    codeOf (Nat.digitChar (n / 100 % 10)) (Nat.digitChar (n / 10 % 10)) (Nat.digitChar (n % 10)) =
      n := by
  have hdigit : ∀ d, d < 10 → (Nat.digitChar d).toNat - 48 = d :=
    fun d hd => Nat.toNat_digitChar_sub_48_of_lt_ten hd
  rw [codeOf, hdigit _ (Nat.mod_lt _ (by decide)), hdigit _ (Nat.mod_lt _ (by decide)),
    hdigit _ (Nat.mod_lt _ (by decide))]
  omega

theorem unescape_cons (h : c ≠ '\\') (rest : List Char) :
    unescape (c :: rest) = c :: unescape rest := by
  conv_lhs => unfold unescape
  split <;> simp_all

theorem unescape_flatMap : ∀ chars : List Char, unescape (chars.flatMap escapeChar) = chars
  | [] => rfl
  | c :: chars => by
    rw [List.flatMap_cons]
    by_cases h : isEscaped c = true
    · have hcode := codeOf_threeDigits (Nat.lt_trans (toNat_lt_of_isEscaped h) (by decide))
      have htext : escapeChar c ++ chars.flatMap escapeChar =
          '\\' :: Nat.digitChar (c.toNat / 100 % 10) :: Nat.digitChar (c.toNat / 10 % 10) ::
            Nat.digitChar (c.toNat % 10) :: chars.flatMap escapeChar := by
        rw [escapeChar, if_pos h]
        rfl
      rw [htext, unescape, hcode, unescape_flatMap chars, Char.ofNat_toNat]
    · have hne : c ≠ '\\' := by
        rintro rfl
        exact h rfl
      rw [escapeChar, if_neg h, List.singleton_append, unescape_cons hne, unescape_flatMap chars]

/-- A string constant can be read back. -/
theorem unescape_escape (s : String) : unescape (escape s).toList = s.toList := by
  rw [escape, String.toList_ofList]
  exact unescape_flatMap s.toList

/-! ## Words -/

/-- The characters form a word of a line. -/
def IsWord (w : List Char) : Prop := w ≠ [] ∧ ∀ c ∈ w, IsPlain c

instance (w : List Char) : Decidable (IsWord w) := inferInstanceAs (Decidable (_ ∧ _))

theorem isWord_append {w v : List Char} (hw : IsWord w) (hv : ∀ c ∈ v, IsPlain c) :
    IsWord (w ++ v) :=
  ⟨by simp [hw.1], List.forall_mem_append.mpr ⟨hw.2, hv⟩⟩

theorem isPlain_of_isNameChar (h : isNameChar c = true) : IsPlain c := by
  unfold isNameChar Char.isAlphanum Char.isAlpha Char.isUpper Char.isLower Char.isDigit at h
  simp only [Bool.or_eq_true, Bool.and_eq_true, decide_eq_true_eq, beq_iff_eq,
    UInt32.le_iff_toNat_le] at h
  have hnat : c.val.toNat = c.toNat := rfl
  refine ⟨?_, ?_⟩
  · rcases h with (((h | h) | h) | rfl)
    · exact Nat.lt_of_lt_of_le (by decide) h.1
    · exact Nat.lt_of_lt_of_le (by decide) h.1
    · exact Nat.lt_of_lt_of_le (by decide) h.1
    · decide
  · rintro rfl
    revert h
    decide

theorem isWord_of_isName {w : List Char} (h : IsName w) : IsWord w := by
  cases w with
  | nil => exact h.elim
  | cons c rest =>
    refine ⟨by simp, List.forall_mem_cons.mpr ⟨?_, fun x hx => isPlain_of_isNameChar (h.2 x hx)⟩⟩
    exact isPlain_of_isNameChar (isNameChar_of_isNameStart h.1)

/-! ### Numbers -/

theorem isPlain_digitChar (d : Nat) : IsPlain (Nat.digitChar d) := by
  by_cases h : d < 16
  · have hall : ∀ d, d < 16 → IsPlain (Nat.digitChar d) := by decide
    exact hall d h
  · rw [Nat.digitChar_eq_star.mpr (by omega)]
    decide

theorem isPlain_toDigits {b : Nat} (hb : 1 < b) (n : Nat) : ∀ c ∈ Nat.toDigits b n, IsPlain c := by
  induction n using Nat.strongRecOn with
  | _ n ih =>
    rw [Nat.toDigits_eq_if hb]
    split
    · exact List.forall_mem_singleton.mpr (isPlain_digitChar n)
    · refine List.forall_mem_append.mpr ⟨ih (n / b) (Nat.div_lt_self (by omega) hb), ?_⟩
      exact List.forall_mem_singleton.mpr (isPlain_digitChar _)

theorem isPlain_natText (n : Nat) : ∀ c ∈ (toString n).toList, IsPlain c := by
  rw [Nat.toString_eq_ofList_toDigits, String.toList_ofList]
  exact isPlain_toDigits (by decide) n

theorem isPlain_intText (n : Int) : ∀ c ∈ (toString n).toList, IsPlain c := by
  cases n with
  | ofNat n => exact isPlain_natText n
  | negSucc n =>
    have htext : (toString (Int.negSucc n)).toList = '-' :: (toString (n + 1)).toList := by
      show ("-" ++ toString (n + 1)).toList = _
      rw [String.toList_append]
      rfl
    rw [htext]
    exact List.forall_mem_cons.mpr ⟨by decide, isPlain_natText (n + 1)⟩

theorem isPlain_fractionDigits (n : Nat) : ∀ c ∈ Number.fractionDigits n, IsPlain c := by
  intro c hc
  simp only [Number.fractionDigits, List.mem_reverse] at hc
  have hmem := (List.dropWhile_sublist _).mem hc
  rw [List.mem_reverse, List.mem_append] at hmem
  rcases hmem with hmem | hmem
  · rw [List.eq_of_mem_replicate hmem]
    decide
  · exact isPlain_toDigits (by decide) n c hmem

theorem isPlain_signedText (e : Int) : ∀ c ∈ (Number.signedText e).toList, IsPlain c := by
  unfold Number.signedText
  split
  · exact isPlain_intText e
  · rw [String.toList_append]
    exact List.forall_mem_append.mpr ⟨by decide, isPlain_intText e⟩

theorem isPlain_hexText (x : Float) : ∀ c ∈ (Number.hexText x).toList, IsPlain c := by
  unfold Number.hexText
  have hsign : ∀ negative : Bool, ∀ c ∈ (if negative then "-" else "").toList, IsPlain c := by
    decide
  dsimp only
  split
  · decide
  split
  · rw [String.toList_append]
    exact List.forall_mem_append.mpr ⟨hsign _, by decide⟩
  split
  · rw [String.toList_append]
    exact List.forall_mem_append.mpr ⟨hsign _, by decide⟩
  · simp only [String.toList_append, List.forall_mem_append]
    refine ⟨⟨⟨⟨⟨hsign _, by decide⟩, ?_⟩, ?_⟩, by decide⟩, isPlain_signedText _⟩
    · split <;> decide
    · split
      · decide
      · rw [String.toList_append]
        refine List.forall_mem_append.mpr ⟨by decide, ?_⟩
        rw [String.toList_ofList]
        exact isPlain_fractionDigits _

/-! ### Operands and instructions -/

theorem Var.isWord {v : Var} (h : ∀ c ∈ v.name.toList, IsPlain c) : IsWord v.text.toList := by
  simp only [Var.text, String.toList_append]
  refine isWord_append ?_ h
  cases v.frame <;> decide

theorem Operand.isWord {a : Operand} (h : ∀ v ∈ a.vars, ∀ c ∈ v.name.toList, IsPlain c) :
    IsWord a.text.toList := by
  cases a with
  | var v => exact Var.isWord (h v (List.mem_singleton.mpr rfl))
  | int n =>
    rw [Operand.text, String.toList_append]
    exact isWord_append (by decide) (isPlain_intText _)
  | float x =>
    rw [Operand.text, String.toList_append]
    exact isWord_append (by decide) (isPlain_hexText x)
  | str s =>
    rw [Operand.text, String.toList_append]
    exact isWord_append (by decide) (escaped_escape s).isPlain
  | bool b => cases b <;> decide
  | nil => decide

theorem Site.isWord (site : Site) (n : Nat) : IsWord (site.text n).toList := by
  rw [Site.toList_text]
  refine isWord_append (by cases site <;> decide) (List.forall_mem_append.mpr ⟨?_, ?_⟩)
  · exact isPlain_toDigits (by decide) n
  · cases site <;> decide

/-- The words of an instruction are words if its labels are and its variables are named by them. -/
theorem Instr.isWord {i : Instr} (hlabels : ∀ l ∈ i.labels, IsWord l.text.toList)
    (hvars : ∀ v ∈ i.vars, ∀ c ∈ v.name.toList, IsPlain c) :
    ∀ w ∈ i.words, IsWord w.toList := by
  have hbinary : ∀ op : Binary, IsWord op.text.toList := by intro op; cases op <;> decide
  have hunary : ∀ op : Unary, IsWord op.text.toList := by intro op; cases op <;> decide
  have hkind : ∀ kind : InputKind, IsWord kind.text.toList := by intro kind; cases kind <;> decide
  cases i <;>
    simp only [Instr.words, Instr.labels, Instr.vars, Instr.label?, Instr.targets, Instr.jump?,
      Instr.callee?, Option.toList, List.nil_append, List.append_nil, List.forall_mem_cons,
      List.forall_mem_append, List.not_mem_nil, false_implies, implies_true, and_true] at hlabels hvars ⊢
  case createFrame | pushFrame | popFrame | ret => decide
  case move => exact ⟨by decide, Var.isWord hvars.1, Operand.isWord hvars.2⟩
  case defVar | pop => exact ⟨by decide, Var.isWord hvars⟩
  case push | write | exit => exact ⟨by decide, Operand.isWord hvars⟩
  case call | label | jump => exact ⟨by decide, hlabels⟩
  case read => exact ⟨by decide, Var.isWord hvars, hkind _⟩
  case binary =>
    exact ⟨hbinary _, Var.isWord hvars.1, Operand.isWord hvars.2.1, Operand.isWord hvars.2.2⟩
  case unary => exact ⟨hunary _, Var.isWord hvars.1, Operand.isWord hvars.2⟩
  case jumpIfEq | jumpIfNeq =>
    exact ⟨by decide, hlabels, Operand.isWord hvars.1, Operand.isWord hvars.2⟩

/-! ## The words of a listing -/

theorem Routine.isWord_labels (r : Routine) : ∀ l ∈ labelsOf r.body, IsWord l.text.toList := by
  cases r <;> decide +kernel

theorem Routine.isPlain_vars (r : Routine) :
    ∀ i ∈ r.body, ∀ v ∈ i.vars, ∀ c ∈ v.name.toList, IsPlain c := by
  cases r <;> decide +kernel

namespace Generator

variable {t : SymbolTable} {limit : Nat} {body : List Stmt} {g : Generator}

/-- Variables are named by names of the program and by numbers. -/
theorem Tidy.isPlain (h : g.Tidy) {v : Var} (hv : v ∈ g.segment.declared) :
    ∀ c ∈ v.name.toList, IsPlain c := by
  rcases h.named v hv with ⟨stem, hstem, m, _, _, heq⟩ | ⟨x, hx, heq, _⟩
  · rw [heq, String.toList_append]
    refine List.forall_mem_append.mpr ⟨?_, isPlain_natText m⟩
    rcases hstem with rfl | rfl <;> decide
  · rw [heq]
    exact (isWord_of_isName (bareName_eq hx).2).2

theorem Tidy.isPlain_has (h : g.Tidy) {v : Var} (hv : g.Has v) : ∀ c ∈ v.name.toList, IsPlain c := by
  rcases hv with hv | rfl | ⟨rfl, _⟩
  · exact h.isPlain hv
  · decide
  · decide

namespace Generated

variable {i : Instr}

theorem isWord_labels (h : Generated t limit body g) (hi : i ∈ g.finish.listing.instructions) :
    ∀ l ∈ i.labels, IsWord l.text.toList :=
  h.forall_labels (fun _ => isWord_of_isName) Site.isWord Routine.isWord_labels hi

theorem isPlain_function {name : String} {params : List Param} {b : List Stmt} {g1 g2 : Generator}
    (hrun : FunctionRun t limit name params b g1 g2)
    (hi : i ∈ functionCode name (pops params) g2.segment) {v : Var} (hv : v ∈ i.vars) :
    ∀ c ∈ v.name.toList, IsPlain c := by
  have htidy : g2.Tidy := hrun.step.tidy hrun.knows.inScope hrun.knows.tidy
  rw [functionCode_eq] at hi
  rcases function_has hrun hi hv with rfl | hv
  · decide
  · exact htidy.isPlain_has hv

theorem isPlain_vars (h : Generated t limit body g) (hi : i ∈ g.finish.listing.instructions) :
    ∀ v ∈ i.vars, ∀ c ∈ v.name.toList, IsPlain c := by
  intro v hv
  rw [finish_instructions] at hi
  simp only [List.mem_append] at hi
  rcases hi with (((hdecl | hbody) | hexit) | hfunction) | hroutine
  · obtain ⟨w, hw, rfl⟩ := List.mem_map.mp hdecl
    obtain rfl := List.mem_singleton.mp hv
    exact h.top.tidy.isPlain (Array.mem_toList_iff.mp hw)
  · exact h.top.tidy.isPlain_has (h.top.uses i hbody v hv)
  · obtain rfl := List.mem_singleton.mp hexit
    cases hv
  · obtain ⟨code, hcode, hi⟩ := List.mem_flatten.mp hfunction
    obtain ⟨name, params, _, b, g1, g2, _, hrun, _, rfl⟩ := h.mem_functions hcode
    exact isPlain_function hrun hi hv
  · obtain ⟨r, _, hi⟩ := List.mem_flatMap.mp hroutine
    exact r.isPlain_vars i hi v hv

end Generated

end Generator

/-! ## Cutting a text -/

/-- The operation codes and the numbers of their operands. -/
def operationCodes : List (String × Nat) :=
  [("MOVE", 2), ("CREATEFRAME", 0), ("PUSHFRAME", 0), ("POPFRAME", 0), ("DEFVAR", 1), ("CALL", 1),
    ("RETURN", 0), ("PUSHS", 1), ("POPS", 1), ("ADD", 3), ("SUB", 3), ("MUL", 3), ("DIV", 3),
    ("IDIV", 3), ("LT", 3), ("GT", 3), ("EQ", 3), ("STRI2INT", 3), ("CONCAT", 3), ("GETCHAR", 3),
    ("NOT", 2), ("INT2FLOAT", 2), ("FLOAT2INT", 2), ("INT2CHAR", 2), ("STRLEN", 2), ("TYPE", 2),
    ("READ", 2), ("WRITE", 1), ("LABEL", 1), ("JUMP", 1), ("JUMPIFEQ", 3), ("JUMPIFNEQ", 3),
    ("EXIT", 1)]

/-- The number of operands that an operation code takes. -/
def operandCount? (op : String) : Option Nat := operationCodes.lookup op

theorem Instr.words_eq (i : Instr) :
    ∃ op operands, i.words = op :: operands ∧ operandCount? op = some operands.length := by
  cases i with
  | binary op _ _ _ => exact ⟨_, _, rfl, by cases op <;> rfl⟩
  | unary op _ _ => exact ⟨_, _, rfl, by cases op <;> rfl⟩
  | _ => exact ⟨_, _, rfl, rfl⟩

/-- The characters of joined words are those of the words and the blanks between them. -/
theorem mem_intercalate : ∀ {words : List (List Char)},
    c ∈ [' '].intercalate words → c = ' ' ∨ ∃ w ∈ words, c ∈ w
  | [], h => by simp at h
  | [w], h => .inr ⟨w, by simp, by simpa using h⟩
  | w :: v :: words, h => by
    rw [List.intercalate_cons_cons, List.mem_append, List.mem_append] at h
    rcases h with (h | h) | h
    · exact .inr ⟨w, by simp, h⟩
    · exact .inl (List.mem_singleton.mp h)
    · exact (mem_intercalate h).imp_right fun ⟨u, hu, hc⟩ => ⟨u, .tail w hu, hc⟩

section Lines

variable {i : Instr} (h : ∀ w ∈ i.words, IsWord w.toList)
include h

/-- A line cut at its blanks gives the words of its instruction. -/
theorem Instr.splitOn_text : i.text.toList.splitOn ' ' = i.words.map String.toList := by
  obtain ⟨op, operands, hwords, _⟩ := i.words_eq
  rw [Instr.text, String.toList_intercalate]
  refine List.splitOn_intercalate ' ' (fun w hw hblank => ?_) (by simp [hwords])
  obtain ⟨v, hv, rfl⟩ := List.mem_map.mp hw
  exact absurd ((h v hv).2 _ hblank).1 (by decide)

/-- A line does not end early. -/
theorem Instr.newline_not_mem_text : '\n' ∉ i.text.toList := by
  intro hmem
  rw [Instr.text, String.toList_intercalate] at hmem
  rcases mem_intercalate hmem with heq | ⟨w, hw, hc⟩
  · exact absurd heq (by decide)
  · obtain ⟨v, hv, rfl⟩ := List.mem_map.mp hw
    exact absurd ((h v hv).2 _ hc).1 (by decide)

end Lines

/-- A text cut at the ends of its lines gives the lines; behind the last one nothing is left. -/
theorem splitOn_listingText : ∀ {code : List Instr},
    (∀ i ∈ code, '\n' ∉ i.text.toList) →
      (listingText code).toList.splitOn '\n' = (code.map fun i => i.text.toList) ++ [[]]
  | [], _ => rfl
  | i :: code, h => by
    have htext : (listingText (i :: code)).toList =
        i.text.toList ++ '\n' :: (listingText code).toList := by
      simp only [listingText, List.map_cons, String.toList_join, List.flatMap_cons,
        String.toList_append, List.append_assoc]
      rfl
    rw [htext, List.splitOn_append_cons_self_of_not_mem (h i (.head _)),
      splitOn_listingText fun j hj => h j (.tail i hj)]
    rfl

end Code

/-- Every string constant is written with plain characters and escapes of three digits, and can be
read back.  So the text of compiled code falls into its header and lines of words: an operation code,
and as many operands as it takes. -/
theorem compile_text_words :
    (∀ s : String,
      (∀ c ∈ (Code.escape s).toList, 32 < c.toNat ∧ c ≠ '#') ∧
      (∀ before behind, (Code.escape s).toList = before ++ '\\' :: behind →
        ∃ a b c rest, behind = a :: b :: c :: rest ∧
          a.isDigit = true ∧ b.isDigit = true ∧ c.isDigit = true) ∧
      Code.unescape (Code.escape s).toList = s.toList) ∧
    ∀ simplify source listing, compile simplify source = .ok listing →
      ∃ lines, listing.text.toList.splitOn '\n' = ".IFJcode22".toList :: lines ++ [[]] ∧
        lines.map (·.splitOn ' ') = listing.instructions.map (·.words.map String.toList) ∧
        ∀ line ∈ lines, ∃ op operands, line.splitOn ' ' = op :: operands ∧
          Code.operandCount? (String.ofList op) = some operands.length ∧
          ∀ w ∈ operands, w ≠ [] ∧ ∀ c ∈ w, 32 < c.toNat ∧ c ≠ '#' := by
  refine ⟨fun s => ?_, fun simplify source listing h => ?_⟩
  · have hescaped := Code.escaped_escape s
    exact ⟨hescaped.isPlain, fun _ _ => hescaped.digits, Code.unescape_escape s⟩
  obtain ⟨t, body, g, hg, rfl⟩ := generated_of_compile h
  have hwords : ∀ i ∈ g.finish.listing.instructions, ∀ w ∈ i.words, Code.IsWord w.toList :=
    fun i hi => i.isWord (hg.isWord_labels hi) (hg.isPlain_vars hi)
  refine ⟨g.finish.listing.instructions.map fun i => i.text.toList, ?_, ?_, ?_⟩
  · have htext : g.finish.listing.text.toList =
        ".IFJcode22".toList ++ '\n' :: (Code.listingText g.finish.listing.instructions).toList := by
      rw [Code.Listing.text, String.toList_append]
      rfl
    rw [htext, List.splitOn_append_cons_self_of_not_mem (by decide),
      Code.splitOn_listingText fun i hi => Code.Instr.newline_not_mem_text (hwords i hi)]
    rfl
  · rw [List.map_map]
    exact List.map_congr_left fun i hi => Code.Instr.splitOn_text (hwords i hi)
  · intro line hline
    obtain ⟨i, hi, rfl⟩ := List.mem_map.mp hline
    obtain ⟨op, operands, heq, hcount⟩ := i.words_eq
    refine ⟨op.toList, operands.map String.toList, ?_, ?_, fun w hw => ?_⟩
    · rw [Code.Instr.splitOn_text (hwords i hi), heq, List.map_cons]
    · rw [String.ofList_toList, List.length_map, hcount]
    · obtain ⟨v, hv, rfl⟩ := List.mem_map.mp hw
      exact hwords i hi v (by rw [heq]; exact .tail op hv)

/-- A string of blanks, signs and digits in a program. -/
theorem compile_text_words_string : ∃ listing lines,
    compile true "<?php write(\"x #\\\\1\\n\");" = .ok listing ∧
    listing.text.toList.splitOn '\n' = ".IFJcode22".toList :: lines ++ [[]] ∧
    "PUSHS string@x\\032\\035\\0921\\010".toList ∈ lines ∧
    ∀ line ∈ lines, ∃ op operands, line.splitOn ' ' = op :: operands ∧
      Code.operandCount? (String.ofList op) = some operands.length := by
  obtain ⟨listing, h, hline⟩ : ∃ listing,
      compile true "<?php write(\"x #\\\\1\\n\");" = .ok listing ∧
      "PUSHS string@x\\032\\035\\0921\\010".toList ∈ listing.text.toList.splitOn '\n' := by
    decide +kernel
  obtain ⟨lines, htext, _, hlines⟩ := compile_text_words.2 _ _ _ h
  refine ⟨listing, lines, h, htext, ?_, fun line hmem => ?_⟩
  · rw [htext] at hline
    simpa using hline
  · obtain ⟨op, operands, heq, hcount, _⟩ := hlines line hmem
    exact ⟨op, operands, heq, hcount⟩

end Ifj22
