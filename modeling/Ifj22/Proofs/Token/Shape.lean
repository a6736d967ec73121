import Ifj22.Token.Lexer
set_option autoImplicit false

/-!
# Token: what the tokens of a text look like

Identifiers are spelled as names and variables as a dollar sign and a name.  `Found` says of every
kind what its tokens look like and what may stand behind them; the scanner finds nothing else
(`found_of_scan`).
-/

namespace Ifj22

variable {kind : TokenKind} {c : Char} {word : String} {text lexeme behind : List Char}

/-- What holds of every character of a text is decided by trying the characters of the text. -/
instance (priority := high) decidableForallChar {p : Char → Prop} [DecidablePred p]
    {text : List Char} : Decidable (∀ c ∈ text, p c) := List.decidableBAll p text

/-- What holds of the first character, if there is one, is decided by trying that character. -/
instance (priority := high) decidableForallFront {p : Char → Prop} [DecidablePred p]
    {front : Option Char} : Decidable (∀ c ∈ front, p c) := Option.decidableForallMem front

/-- The characters spell a name. -/
def IsName : List Char → Prop
  | [] => False
  | c :: rest => isNameStart c = true ∧ ∀ x ∈ rest, isNameChar x = true

/-- The characters spell a dollar sign and a name. -/
def IsVarName : List Char → Prop
  | [] => False
  | c :: rest => c = '$' ∧ IsName rest

/-- An identifier is spelled as a name, and a variable as a dollar sign and a name. -/
def Token.WellSpelled (t : Token) : Prop :=
  (t.kind = .identifier → IsName t.lexeme.toList) ∧
    (t.kind = .varName → IsVarName t.lexeme.toList)

/-! ## Scanning -/

theorem isName_takeWhile (rest : List Char) (hc : isNameStart c = true) :
    IsName ((c :: rest).takeWhile isNameChar) := by
  rw [List.takeWhile_cons, if_pos (isNameChar_of_isNameStart hc)]
  refine ⟨hc, fun x hx => ?_⟩
  exact List.all_eq_true.mp List.all_takeWhile x hx

theorem mem_keywords_of_keyword? (h : keyword? word = some kind) : (word, kind) ∈ keywords := by
  unfold keyword? at h
  generalize keywords = table at h
  induction table with
  | nil => simp at h
  | cons entry table ih =>
    rw [List.lookup_cons] at h
    split at h
    · rename_i heq
      rw [beq_iff_eq] at heq
      simp only [Option.some.injEq] at h
      subst heq h
      exact (.head _)
    · exact List.mem_cons_of_mem _ (ih h)

/-- A word is an identifier or a keyword. -/
theorem wordKind_mem (word : String) :
    (keyword? word).getD .identifier ∈ TokenKind.identifier :: keywords.map (·.2) := by
  cases hkey : keyword? word with
  | none => exact (.head _)
  | some kind =>
    have hmem : kind ∈ keywords.map (·.2) :=
      List.mem_map.mpr ⟨_, mem_keywords_of_keyword? hkey, rfl⟩
    exact List.mem_cons_of_mem _ hmem

theorem wordKind_ne (word : String)
    (h : kind ∉ TokenKind.identifier :: keywords.map (·.2)) :
    (keyword? word).getD .identifier ≠ kind := by
  rintro rfl
  exact h (wordKind_mem word)

theorem tokenText_word (word : List Char) :
    tokenText ((keyword? (String.ofList word)).getD .identifier) word = word :=
  tokenText_of_ne (wordKind_ne _ (by decide)) word

/-- No operator is an identifier, a variable, a string or the end. -/
theorem operators_kind : ∀ entry ∈ operators, entry.2 ≠ .identifier ∧ entry.2 ≠ .varName ∧
    entry.2 ≠ .stringLiteral ∧ entry.2 ≠ .eof := by decide

theorem tokenText_operator {spelling : String} (h : (spelling, kind) ∈ operators) :
    tokenText kind lexeme = lexeme :=
  tokenText_of_ne (operators_kind _ h).2.2.1 lexeme

/-- The text does not go on with a character of the class. -/
def EndsRun (p : Char → Bool) (behind : List Char) : Prop := ∀ c ∈ behind.head?, p c = false

theorem endsRun_dropWhile (p : Char → Bool) (text : List Char) : EndsRun p (text.dropWhile p) := by
  intro c hc
  have hhead := List.head?_dropWhile_not p text
  rw [Option.mem_def.mp hc] at hhead
  simpa using hhead

/-- A token of the given kind and lexeme is found in front of the text. -/
inductive Found : TokenKind → List Char → List Char → Prop
  | word {word behind : List Char} (h : IsName word) (hend : EndsRun isNameChar behind) :
    Found ((keyword? (String.ofList word)).getD .identifier) word behind
  | int {digits behind : List Char} (hne : digits ≠ []) (h : ∀ c ∈ digits, c.isDigit = true)
    (hend : EndsRun Char.isDigit behind) (hpoint : behind.head? ≠ some '.') :
    Found .intLiteral digits behind
  | float {whole fraction behind : List Char} (hne : whole ≠ [])
    (hw : ∀ c ∈ whole, c.isDigit = true) (hf : ∀ c ∈ fraction, c.isDigit = true)
    (hend : EndsRun Char.isDigit behind) : Found .floatLiteral (whole ++ '.' :: fraction) behind
  | var {name behind : List Char} (h : IsName name) (hend : EndsRun isNameChar behind) :
    Found .varName ('$' :: name) behind
  | string {body behind : List Char} (h : stringBody? (body ++ '"' :: behind) = some body) :
    Found .stringLiteral body behind
  | tag {c : Char} {behind : List Char} (h : Text.isBlank c = true) :
    Found .openTag ('<' :: '?' :: tagName) (c :: behind)
  | operator {entry : String × TokenKind} {behind : List Char} (h : entry ∈ operators)
    (hfound : operator? (entry.1.toList ++ behind) = some entry)
    (htag : ¬ ['<', '?'] <+: entry.1.toList ++ behind) : Found entry.2 entry.1.toList behind

theorem stringBody?_eq_some {body : List Char} (h : stringBody? text = some body) :
    body ++ ['"'] <+: text := by
  fun_induction stringBody? text generalizing body with
  | case1 rest =>
    simp only [Option.some.injEq] at h
    subst h
    exact ⟨rest, rfl⟩
  | case2 c rest ih =>
    obtain ⟨inner, hinner, rfl⟩ := Option.map_eq_some_iff.mp h
    simpa using ih hinner
  | case3 c rest _ _ ih =>
    obtain ⟨inner, hinner, rfl⟩ := Option.map_eq_some_iff.mp h
    simpa using ih hinner
  | case4 => simp at h

/-- The characters that two lists have in common are a front of both. -/
theorem commonLength_spec (as bs : List Char) : ∃ found as' bs', as = found ++ as' ∧
    bs = found ++ bs' ∧ commonLength as bs = found.length ∧ ∀ c ∈ as'.head?, bs'.head? ≠ some c := by
  fun_induction commonLength as bs with
  | case1 as a bs ih =>
    obtain ⟨found, as', bs', rfl, rfl, hlength, hapart⟩ := ih
    exact ⟨a :: found, as', bs', rfl, rfl, by simp [hlength], hapart⟩
  | case2 a as b bs hne =>
    refine ⟨[], _, _, rfl, rfl, rfl, fun c hc => ?_⟩
    cases hc
    simpa using Ne.symm hne
  | case3 as bs hcons =>
    refine ⟨[], _, _, rfl, rfl, rfl, fun c hc heq => ?_⟩
    obtain ⟨_, rfl⟩ := List.head?_eq_some_iff.mp hc
    obtain ⟨_, rfl⟩ := List.head?_eq_some_iff.mp heq
    exact hcons _ _ _ _ rfl rfl

theorem operator?_prefix {spelling : String} (h : operator? text = some (spelling, kind)) :
    spelling.toList <+: text := by
  unfold operator? at h
  simpa using List.find?_some h

/-- What the first token of a text that is not empty looks like. -/
theorem found_of_scan {rest : List Char} (h : scan (c :: rest) = .token kind lexeme) :
    ∃ behind, c :: rest = tokenText kind lexeme ++ behind ∧ Found kind lexeme behind := by
  have hdigits (text : List Char) : ∀ x ∈ text.takeWhile Char.isDigit, x.isDigit = true :=
    List.all_eq_true.mp List.all_takeWhile
  simp only [scan] at h
  split at h
  · rename_i hc
    obtain ⟨rfl, rfl⟩ := Scan.token.inj h
    rw [tokenText_word]
    exact ⟨_, List.takeWhile_append_dropWhile.symm,
      .word (isName_takeWhile rest hc) (endsRun_dropWhile _ _)⟩
  split at h
  · rename_i hc
    have hne : (c :: rest).takeWhile Char.isDigit ≠ [] := by simp [hc]
    have hsplit := List.takeWhile_append_dropWhile (p := Char.isDigit) (l := c :: rest)
    unfold scanNumber at h
    split at h
    · rename_i fraction hpoint
      obtain ⟨rfl, rfl⟩ := Scan.token.inj h
      refine ⟨fraction.dropWhile Char.isDigit, ?_,
        .float hne (hdigits _) (hdigits _) (endsRun_dropWhile _ _)⟩
      rw [tokenText_of_ne (by decide), List.append_assoc, List.cons_append,
        List.takeWhile_append_dropWhile, ← hpoint, hsplit]
    · rename_i hpoint
      obtain ⟨rfl, rfl⟩ := Scan.token.inj h
      refine ⟨_, hsplit.symm, .int hne (hdigits _) (endsRun_dropWhile _ _) fun hdot => ?_⟩
      obtain ⟨tail, htail⟩ := List.head?_eq_some_iff.mp hdot
      exact hpoint tail htail
  split at h
  · rename_i hc
    subst hc
    unfold scanVariable at h
    split at h
    · rename_i d tail
      split at h
      · rename_i hd
        obtain ⟨rfl, rfl⟩ := Scan.token.inj h
        refine ⟨(d :: tail).dropWhile isNameChar, ?_,
          .var (isName_takeWhile tail hd) (endsRun_dropWhile _ _)⟩
        rw [tokenText_of_ne (by decide), List.cons_append, List.takeWhile_append_dropWhile]
      · cases h
    · cases h
  split at h
  · rename_i hc
    subst hc
    unfold scanString at h
    split at h
    · rename_i body hbody
      obtain ⟨rfl, rfl⟩ := Scan.token.inj h
      obtain ⟨behind, rfl⟩ := stringBody?_eq_some hbody
      refine ⟨behind, by simp [tokenText], .string ?_⟩
      rwa [List.append_assoc] at hbody
    · cases h
  split at h
  · rename_i hopen
    obtain ⟨rfl, hmark⟩ := hopen
    obtain ⟨tail, rfl⟩ := List.head?_eq_some_iff.mp hmark
    unfold scanTag at h
    dsimp only [List.tail_cons] at h
    split at h
    · cases h
    · rename_i hcommon
      obtain ⟨found, letters, behind, htag, rfl, hlength, _⟩ := commonLength_spec tagName tail
      obtain rfl : letters = [] := by
        rw [hlength, htag, List.length_append] at hcommon
        exact List.length_eq_zero_iff.mp (by omega)
      rw [List.append_nil] at htag
      subst htag
      rw [List.drop_left] at h
      split at h
      · split at h
        · rename_i hblank
          obtain ⟨rfl, rfl⟩ := Scan.token.inj h
          exact ⟨_, rfl, .tag hblank⟩
        · cases h
      · cases h
  rename_i hopen
  split at h
  · rename_i spelling k hop
    obtain ⟨rfl, rfl⟩ := Scan.token.inj h
    have hmem := List.mem_of_find?_eq_some hop
    obtain ⟨behind, htext⟩ := operator?_prefix hop
    rw [tokenText_operator hmem]
    refine ⟨behind, htext.symm, .operator hmem (by rwa [htext]) ?_⟩
    rw [htext]
    rintro ⟨tail, htail⟩
    obtain ⟨rfl, rfl⟩ := List.cons.inj htail
    exact hopen ⟨rfl, rfl⟩
  · split at h <;> cases h

theorem Found.ne_eof (h : Found kind lexeme behind) : kind ≠ .eof := by
  cases h with
  | word => exact wordKind_ne _ (by decide)
  | operator h => exact (operators_kind _ h).2.2.2
  | _ => simp

theorem Found.spelled (h : Found kind lexeme behind) :
    (kind = .identifier → IsName lexeme) ∧ (kind = .varName → IsVarName lexeme) := by
  cases h with
  | word h => exact ⟨fun _ => h, fun hvar => absurd hvar (wordKind_ne _ (by decide))⟩
  | var h => exact ⟨by simp, fun _ => ⟨rfl, h⟩⟩
  | operator h =>
    obtain ⟨h1, h2, _⟩ := operators_kind _ h
    exact ⟨fun hkind => absurd hkind h1, fun hkind => absurd hkind h2⟩
  | _ => simp

end Ifj22
