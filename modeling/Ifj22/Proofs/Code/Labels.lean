import Ifj22.Proofs.Compile
import Mathlib.Data.List.Flatten
set_option autoImplicit false

/-!
# Code: the labels of a listing

A label is the name of a function of the program, the name of a routine, a place in generated code
with a number, or a place inside a routine.  These have different texts: names of functions do not
start with a percent sign, only generated labels have digits, and no function is named like a
built-in one.  So each label of a listing is set once.  It sets every label that it jumps to or
calls: jumps stay in their segment, and the functions and routines that are called are in the listing.
-/

namespace Ifj22

variable {n : Nat} {name text : String} {params : List Param} {scope : Option String}

namespace Code

/-! ## Texts of generated labels -/

namespace Site

/-- The text of a generated label before its number. -/
def front : Site → String
  | ifElse | ifEnd => "%if"
  | whileStart | whileEnd => "%while"
  | arithFloat | arithEnd => "%arith"
  | bool => "%bool"
  | compare => "%cmp"
  | and => "%and"
  | or => "%or"

/-- The text of a generated label behind its number. -/
def back : Site → String
  | ifElse => "_else"
  | ifEnd | whileEnd | arithEnd => "_end"
  | whileStart => "_start"
  | arithFloat => "_float"
  | bool | compare | and | or => ""

theorem toList_text (site : Site) (n : Nat) :
    (site.text n).toList = site.front.toList ++ (Nat.toDigits 10 n ++ site.back.toList) := by
  cases site <;>
    simp only [text, front, back, String.toList_append, Nat.toString_eq_ofList_toDigits,
      String.toList_ofList, String.toList_empty, List.append_assoc, List.append_nil]

/-- The digits of a generated label are those of its number. -/
theorem digits_text (site : Site) (n : Nat) :
    (site.text n).toList.filter Char.isDigit = Nat.toDigits 10 n := by
  have hfront : site.front.toList.filter Char.isDigit = [] := by cases site <;> decide
  have hback : site.back.toList.filter Char.isDigit = [] := by cases site <;> decide
  have hnumber : (Nat.toDigits 10 n).filter Char.isDigit = Nat.toDigits 10 n :=
    List.filter_eq_self.mpr fun c hc => Nat.isDigit_of_mem_toDigits (by decide) (by decide) hc
  rw [toList_text, List.filter_append, List.filter_append, hfront, hback, hnumber, List.nil_append,
    List.append_nil]

/-- The other characters of a generated label are those of its site. -/
theorem rest_text (site : Site) (n : Nat) : (site.text n).toList.filter (!·.isDigit) =
    site.front.toList ++ site.back.toList := by
  have hfront : site.front.toList.filter (!·.isDigit) = site.front.toList := by
    cases site <;> decide
  have hback : site.back.toList.filter (!·.isDigit) = site.back.toList := by
    cases site <;> decide
  have hnumber : (Nat.toDigits 10 n).filter (!·.isDigit) = [] := by
    refine List.filter_eq_nil_iff.mpr fun c hc => ?_
    rw [Nat.isDigit_of_mem_toDigits (by decide) (by decide) hc]
    decide
  rw [toList_text, List.filter_append, List.filter_append, hfront, hback, hnumber, List.nil_append]

theorem text_inj {site site' : Site} {n' : Nat} (h : site.text n = site'.text n') :
    site = site' ∧ n = n' := by
  constructor
  · have hrest := rest_text site n
    rw [h, rest_text] at hrest
    revert hrest
    cases site <;> cases site' <;> decide
  · have hdigits := digits_text site n
    rw [h, digits_text] at hdigits
    rw [← Nat.ofDigitChars_ten_toDigits (n := n), ← hdigits, Nat.ofDigitChars_ten_toDigits]

/-- Generated labels start with a percent sign and have a digit. -/
theorem text_percent (site : Site) (n : Nat) : ∃ rest, (site.text n).toList = '%' :: rest := by
  have hfront : ∃ rest, site.front.toList = '%' :: rest := by cases site <;> exact ⟨_, rfl⟩
  obtain ⟨rest, hrest⟩ := hfront
  exact ⟨_, by rw [toList_text, hrest, List.cons_append]⟩

theorem text_digit (site : Site) (n : Nat) : ∃ c ∈ (site.text n).toList, c.isDigit = true := by
  have hdigits := digits_text site n
  cases hn : Nat.toDigits 10 n with
  | nil => exact absurd hn Nat.toDigits_ne_nil
  | cons c rest =>
    rw [hn] at hdigits
    have hmem : c ∈ (site.text n).toList.filter Char.isDigit := hdigits ▸ (.head _)
    exact ⟨c, List.mem_filter.mp hmem⟩

end Site

/-- The labels that an instruction jumps to or calls. -/
def Instr.targets (i : Instr) : List Label := i.jump?.toList ++ i.callee?.toList

/-! ## Labels of routines -/

namespace Routine

/-- The labels of a routine are in order. -/
structure Labelled (r : Routine) : Prop where
  /-- A label is the name of a built-in function or starts with a percent sign, and has no digits. -/
  label_text : ∀ l ∈ labelsOf r.body,
    (l.text ∈ SymbolTable.builtinList.map (·.name) ∨ l.text.toList.head? = some '%') ∧
      ∀ c ∈ l.text.toList, c.isDigit = false
  /-- A label that is jumped to or called is set, or is the entry of a routine that is brought along. -/
  target_mem : ∀ i ∈ r.body, ∀ l ∈ i.targets,
    l ∈ labelsOf r.body ∨ ∃ d ∈ r.dependencies, l = d.entry
  entry_mem : r.entry ∈ labelsOf r.body

theorem labelled (r : Routine) : r.Labelled := by
  cases r <;> exact ⟨by decide +kernel, by decide +kernel, by decide +kernel⟩

/-- No two labels of the routines have the same text. -/
theorem label_texts_nodup : ((all.flatMap fun r => labelsOf r.body).map Label.text).Nodup := by
  decide +kernel

/-- A routine that others depend on depends on none. -/
theorem dependencies_dependencies {r d : Routine} (h : d ∈ r.dependencies) :
    d.dependencies = [] := by
  revert h
  cases r <;> cases d <;> decide

/-- Every built-in function has a routine. -/
theorem ofBuiltin?_name : ∀ b ∈ SymbolTable.builtinList,
    ∃ r, ofBuiltin? b.name = some r ∧ r.name = b.name := by
  decide +kernel

end Routine

theorem labelsOf_flatMap_body (routines : List Routine) :
    labelsOf (routines.flatMap Routine.body) = routines.flatMap fun r => labelsOf r.body := by
  unfold labelsOf
  exact List.filterMap_flatMap

/-- Names of functions, generated labels and labels of routines have different texts. -/
theorem label_texts_nodup {functions : List String} {generated : List Label}
    {routines : List Routine} (hfunctions : functions.Nodup)
    (hspelled : ∀ f ∈ functions, IsName f.toList)
    (hfresh : ∀ b ∈ SymbolTable.builtinList, b.name ∉ functions) (hgenerated : generated.Nodup)
    (hsites : ∀ l ∈ generated, ∃ site n, l = .branch site n) (hroutines : routines.Sublist Routine.all) :
    ((functions.map Label.entry ++ generated ++
      labelsOf (routines.flatMap Routine.body)).map Label.text).Nodup := by
  have hname : ∀ f ∈ functions, ∀ rest, f.toList ≠ '%' :: rest := by
    intro f hf rest heq
    have hspell := hspelled f hf
    rw [heq] at hspell
    exact absurd hspell.1 (by decide)
  have hroutine : ∀ l ∈ labelsOf (routines.flatMap Routine.body), ∃ r : Routine,
      l ∈ labelsOf r.body := by
    intro l hl
    rw [labelsOf_flatMap_body] at hl
    obtain ⟨r, _, hl⟩ := List.mem_flatMap.mp hl
    exact ⟨r, hl⟩
  rw [List.map_append, List.map_append, List.map_map]
  refine List.Nodup.append (List.Nodup.append ?_ ?_ ?_) ?_ ?_
  · exact (List.map_id functions).symm ▸ hfunctions
  · refine List.Nodup.map_on ?_ hgenerated
    intro l hl l' hl' heq
    obtain ⟨site, n, rfl⟩ := hsites l hl
    obtain ⟨site', n', rfl⟩ := hsites l' hl'
    obtain ⟨rfl, rfl⟩ := Site.text_inj heq
    rfl
  · intro text hf hg
    obtain ⟨f, hmem, rfl⟩ := List.mem_map.mp hf
    obtain ⟨l, hl, heq⟩ := List.mem_map.mp hg
    obtain ⟨site, n, rfl⟩ := hsites l hl
    obtain ⟨rest, hrest⟩ := site.text_percent n
    exact hname f hmem rest ((congrArg String.toList heq).symm.trans hrest)
  · rw [labelsOf_flatMap_body]
    exact Routine.label_texts_nodup.sublist ((hroutines.flatMap _).map _)
  · intro text hfg hr
    obtain ⟨l, hl, rfl⟩ := List.mem_map.mp hr
    obtain ⟨r, hl⟩ := hroutine l hl
    obtain ⟨hfirst, hdigits⟩ := r.labelled.label_text l hl
    rcases List.mem_append.mp hfg with hf | hg
    · obtain ⟨f, hf, heq⟩ := List.mem_map.mp hf
      obtain rfl : f = l.text := heq
      rcases hfirst with hbuiltin | hpercent
      · obtain ⟨b, hb, hbname⟩ := List.mem_map.mp hbuiltin
        exact hfresh b hb (hbname ▸ hf)
      · obtain ⟨rest, hrest⟩ := List.head?_eq_some_iff.mp hpercent
        exact hname _ hf rest hrest
    · obtain ⟨l', hl', heq⟩ := List.mem_map.mp hg
      obtain ⟨site, n, rfl⟩ := hsites l' hl'
      obtain ⟨c, hc, hdigit⟩ := site.text_digit n
      rw [show site.text n = l.text from heq] at hc
      rw [hdigits c hc] at hdigit
      cases hdigit

/-! ## The labels of a generated listing -/

namespace Generator

variable {t : SymbolTable} {limit : Nat} {body : List Stmt} {g : Generator}

/-- The instructions of a listing at the end of generation. -/
theorem finish_instructions (g : Generator) : g.finish.listing.instructions =
    g.segment.declarations ++ g.segment.body.toList ++ [.exit (.int 0)] ++
      g.functions.toList.flatten ++ g.finish.routines.flatMap Routine.body := by
  have hbody : (g.segment.body ++ [Instr.exit (.int 0)]).toList =
      g.segment.body.toList ++ [.exit (.int 0)] := by simp
  show g.segment.declarations ++ (g.segment.body ++ [Instr.exit (.int 0)]).toList ++ _ ++ _ = _
  rw [hbody, ← List.append_assoc g.segment.declarations]
  rfl

theorem labelsOf_declarations (segment : Segment) : labelsOf segment.declarations = [] := by
  unfold labelsOf Segment.declarations
  rw [List.filterMap_map]
  exact List.filterMap_eq_nil_iff.mpr fun _ _ => rfl

/-- The labels that the code of a listing sets. -/
def finalLabels (g : Generator) : List Label := labelsOf g.finish.listing.instructions

theorem finalLabels_eq (g : Generator) : g.finalLabels =
    labelsOf (g.segment.body.toList ++ g.functions.toList.flatten) ++
      labelsOf (g.finish.routines.flatMap Routine.body) := by
  have hexit : labelsOf [.exit (.int 0)] = [] := rfl
  simp only [finalLabels, finish_instructions, labelsOf_append, labelsOf_declarations, hexit,
    List.nil_append, List.append_nil]

namespace Generated

variable {r : Routine} {code : List Instr} {l : Label} {i : Instr}

/-- A function of the program stands in it with its head. -/
theorem function_mem (h : name ∈ functionNames body) :
    ∃ params declared b, Stmt.function name params declared b ∈ body := by
  obtain ⟨s, hs, hname⟩ := List.mem_filterMap.mp h
  cases s with
  | function name' params declared b =>
    cases hname
    exact ⟨params, declared, b, hs⟩
  | _ => cases hname

theorem head (h : Generated t limit body g) {declared : Option Ty} {b : List Stmt}
    (hmem : Stmt.function name params declared b ∈ body) :
    (lexicon t limit).head name params declared := (h.ready.overTop _ hmem).head

/-- No two labels of a listing have the same text. -/
theorem texts_nodup (h : Generated t limit body g) :
    (g.finalLabels.map Label.text).Nodup := by
  obtain ⟨generated, hperm, hnodup, hsites⟩ := h.top.numbered
  rw [finalLabels_eq]
  refine ((hperm.append_right _).map _).nodup_iff.mpr ?_
  refine label_texts_nodup h.ready.nodup (fun f hf => ?_) h.ready.fresh hnodup (fun l hl => ?_)
    List.filter_sublist
  · obtain ⟨params, declared, b, hmem⟩ := function_mem hf
    exact (h.head hmem).1
  · obtain ⟨site, n, hl, _⟩ := hsites l hl
    exact ⟨site, n, hl⟩

/-- The routine of a built-in function that the table says is called is in the listing. -/
theorem builtin_mem (h : Generated t limit body g) {s : Symbol (Option LocalTable)}
    (hs : t.find? name = some s) (hbuiltin : s.builtin = true) (hcalled : s.called = true)
    (hr : Routine.ofBuiltin? name = some r) : r ∈ g.finish.routines := by
  have hlisted : (name, true, true) ∈ g.table.symbols.map fun s => (s.name, s.builtin, s.called) := by
    rw [h.top.table.listed]
    refine List.mem_map.mpr ⟨s, List.mem_of_find?_eq_some hs, ?_⟩
    rw [Table.find?_name hs, hbuiltin, hcalled]
  obtain ⟨s', hs', heq⟩ := List.mem_map.mp hlisted
  obtain ⟨hname, hb, hc⟩ : s'.name = name ∧ s'.builtin = true ∧ s'.called = true := by
    simpa using heq
  have hcalls : g.finish.calls r = true := by
    refine Bool.or_eq_true_iff.mpr (.inr (List.any_eq_true.mpr ⟨s', hs', ?_⟩))
    simp [hname, hb, hc, hr]
  exact List.mem_filter.mpr ⟨r.mem_all, by rw [hcalls, Bool.true_or]⟩

theorem helper_mem (hr : r ∈ g.helpers) : r ∈ g.finish.routines := by
  have hcalls : g.finish.calls r = true :=
    Bool.or_eq_true_iff.mpr (.inl (decide_eq_true hr))
  exact List.mem_filter.mpr ⟨r.mem_all, by rw [hcalls, Bool.true_or]⟩

/-- A listing has the routines that its routines depend on. -/
theorem dependency_mem {d : Routine} (hr : r ∈ g.routines) (hd : d ∈ r.dependencies) :
    d ∈ g.routines := by
  refine List.mem_filter.mpr ⟨d.mem_all, Bool.or_eq_true_iff.mpr (.inr ?_)⟩
  rcases Bool.or_eq_true_iff.mp (List.mem_filter.mp hr).2 with hcalls | hany
  · exact List.any_eq_true.mpr ⟨r, r.mem_all, by simp [hcalls, hd]⟩
  · -- what others depend on depends on nothing
    obtain ⟨caller, _, hcaller⟩ := List.any_eq_true.mp hany
    have hmem : r ∈ caller.dependencies := by
      simpa using (Bool.and_eq_true_iff.mp hcaller).2
    rw [Routine.dependencies_dependencies hmem] at hd
    cases hd

/-- What a call leads to: a function of the program that takes that many arguments, or a built-in
function whose routine is in the listing. -/
theorem callee (h : Generated t limit body g) (hc : (names t limit scope).callee name n) :
    (∃ params declared b, Stmt.function name params declared b ∈ body ∧ params.length = n) ∨
      ∃ b ∈ SymbolTable.builtinList, b.name = name ∧ (b.arity = -1 ∨ b.arity = n) ∧
        ∃ r ∈ g.finish.routines, r.name = name := by
  obtain ⟨s, hs, hfun, hcalled, harity⟩ := hc.1.2
  rcases h.ready.functions hs hfun with hmem | ⟨hbuiltin, b, hb, rfl, hsame⟩
  · obtain ⟨params, declared, b, hmem⟩ := function_mem hmem
    obtain ⟨_, ⟨s', hs', _, _, hparams⟩, _⟩ := h.head hmem
    cases hs.symm.trans hs'
    refine .inl ⟨params, declared, b, hmem, ?_⟩
    omega
  · obtain ⟨r, hr, hname⟩ := Routine.ofBuiltin?_name b hb
    exact .inr ⟨b, hb, rfl, hsame ▸ harity, r, h.builtin_mem hs hbuiltin hcalled hr, hname⟩

/-- The code of the functions of a listing. -/
theorem mem_functions (h : Generated t limit body g) (hcode : code ∈ g.functions.toList) :
    ∃ name params declared b g1 g2,
      Stmt.function name params declared b ∈ body ∧ FunctionRun t limit name params b g1 g2 ∧
      (∀ r ∈ g2.helpers, r ∈ g.helpers) ∧ code = functionCode name (pops params) g2.segment := by
  obtain ⟨s, hs, name, params, declared, b, g1, g2, rfl, hrun, hhelpers, rfl⟩ :=
    exists_of_mem_right h.top.functions hcode
  exact ⟨name, params, declared, b, g1, g2, (List.mem_filter.mp hs).1, hrun, hhelpers, rfl⟩

theorem function_code (h : Generated t limit body g) {declared : Option Ty} {b : List Stmt}
    (hmem : Stmt.function name params declared b ∈ body) :
    ∃ g1 g2, FunctionRun t limit name params b g1 g2 ∧ (∀ r ∈ g2.helpers, r ∈ g.helpers) ∧
      functionCode name (pops params) g2.segment ∈ g.functions.toList := by
  obtain ⟨code, hcode, name, params, declared, b, g1, g2, heq, hrun, hhelpers, rfl⟩ :=
    exists_of_mem_right h.top.functions.flip (List.mem_filter.mpr ⟨hmem, rfl⟩)
  obtain ⟨rfl, rfl, rfl, rfl⟩ := Stmt.function.inj heq
  exact ⟨g1, g2, hrun, hhelpers, hcode⟩

/-! ### What a listing sets -/

theorem body_labels (hl : l ∈ labelsOf g.segment.body.toList) : l ∈ g.finalLabels := by
  rw [finalLabels_eq, labelsOf_append]
  exact List.mem_append_left _ (List.mem_append_left _ hl)

theorem function_labels (hcode : code ∈ g.functions.toList) (hl : l ∈ labelsOf code) :
    l ∈ g.finalLabels := by
  rw [finalLabels_eq, labelsOf_append]
  refine List.mem_append_left _ (List.mem_append_right _ ?_)
  rw [mem_labelsOf] at hl ⊢
  exact List.mem_flatten_of_mem hcode hl

theorem routine_labels (hr : r ∈ g.finish.routines) (hl : l ∈ labelsOf r.body) :
    l ∈ g.finalLabels := by
  rw [finalLabels_eq]
  refine List.mem_append_right _ ?_
  rw [mem_labelsOf] at hl ⊢
  exact List.mem_flatMap_of_mem hr hl

/-- A listing sets the entry of every function and routine that it calls. -/
theorem entry_labels (h : Generated t limit body g) (hc : (names t limit scope).callee name n) :
    Label.entry name ∈ g.finalLabels := by
  rcases h.callee hc with ⟨params, declared, b, hmem, _⟩ | ⟨_, _, _, _, r, hr, rfl⟩
  · obtain ⟨_, g2, _, _, hcode⟩ := h.function_code hmem
    refine function_labels hcode ?_
    rw [Top.labelsOf_functionCode]
    exact (.head _)
  · exact routine_labels hr r.labelled.entry_mem

/-- What a piece of code in a listing jumps to or calls. -/
theorem piece_targets (h : Generated t limit body g) {helpers : List Routine} {leaves : Bool}
    (hpiece : Piece (names t limit scope) helpers (.level leaves [] []) code)
    (hhelpers : ∀ r ∈ helpers, r ∈ g.helpers) (hcode : ∀ l ∈ labelsOf code, l ∈ g.finalLabels)
    (hi : i ∈ code) (hl : l ∈ i.targets) : l ∈ g.finalLabels := by
  have hitem := hpiece.item i hi
  rcases List.mem_append.mp hl with hjump | hcallee
  · exact hcode l (hitem.jump_mem (Option.mem_toList.mp hjump))
  · rcases hitem.callee (Option.mem_toList.mp hcallee) with ⟨name, n, rfl, hc⟩ | ⟨r, hr, rfl⟩
    · exact h.entry_labels hc
    · exact routine_labels (helper_mem (hhelpers r hr)) r.labelled.entry_mem

/-- The instructions around the body of a function jump nowhere. -/
theorem mem_functionCode {segment : Segment} (hi : i ∈ functionCode name (pops params) segment) :
    i ∈ segment.body.toList ∨ i.targets = [] := by
  unfold functionCode Segment.declarations pops at hi
  simp only [List.mem_append, List.mem_cons, List.mem_map, List.not_mem_nil, or_false] at hi
  rcases hi with ((((rfl | rfl | rfl | rfl) | ⟨_, _, rfl⟩) | ⟨_, _, rfl⟩) | hbody) | rfl | rfl
  case inl.inr => exact .inl hbody
  all_goals exact .inr rfl

/-- A listing sets every label that it jumps to or calls. -/
theorem targets_labels (h : Generated t limit body g) (hi : i ∈ g.finish.listing.instructions)
    (hl : l ∈ i.targets) : l ∈ g.finalLabels := by
  rw [finish_instructions] at hi
  simp only [List.mem_append] at hi
  rcases hi with (((hdecl | hbody) | hexit) | hfunction) | hroutine
  · obtain ⟨v, _, rfl⟩ := List.mem_map.mp hdecl
    cases hl
  · exact h.piece_targets h.top.piece (fun _ hr => hr) (fun _ hl => body_labels hl) hbody hl
  · obtain rfl := List.mem_singleton.mp hexit
    cases hl
  · obtain ⟨code, hcode, hi⟩ := List.mem_flatten.mp hfunction
    obtain ⟨name, params, _, b, g1, g2, _, hrun, hhelpers, rfl⟩ := h.mem_functions hcode
    rcases mem_functionCode hi with hbody | hnone
    · have hpiece := hrun.step.piece
      rw [hrun.added_eq] at hpiece
      refine h.piece_targets hpiece hhelpers (fun l hl => function_labels hcode ?_) hbody hl
      rw [Top.labelsOf_functionCode]
      exact .tail _ hl
    · rw [hnone] at hl
      cases hl
  · obtain ⟨r, hr, hi⟩ := List.mem_flatMap.mp hroutine
    rcases r.labelled.target_mem i hi l hl with hown | ⟨d, hd, rfl⟩
    · exact routine_labels hr hown
    · exact routine_labels (dependency_mem hr hd) d.labelled.entry_mem

end Generated

end Generator

/-! ## Lines -/

/-- The lines of a listing behind its header, cut into words. -/
def Listing.lines (l : Listing) : List (List String) := l.instructions.map Instr.words

/-- The lines that set a label. -/
theorem words_eq_label {i : Instr} (h : i.words = ["LABEL", text]) :
    ∃ l, i = .label l ∧ l.text = text := by
  cases i with
  | label l => exact ⟨l, rfl, by simpa [Instr.words] using h⟩
  | binary op _ _ _ => cases op <;> simp [Instr.words, Binary.text] at h
  | unary op _ _ => cases op <;> simp [Instr.words, Unary.text] at h
  | _ => simp [Instr.words] at h

theorem label_line_mem {code : List Instr} :
    ["LABEL", text] ∈ code.map Instr.words ↔ text ∈ (labelsOf code).map Label.text := by
  constructor
  · intro h
    obtain ⟨i, hi, hwords⟩ := List.mem_map.mp h
    obtain ⟨l, rfl, rfl⟩ := words_eq_label hwords
    exact List.mem_map_of_mem (mem_labelsOf.mpr hi)
  · intro h
    obtain ⟨l, hl, rfl⟩ := List.mem_map.mp h
    exact List.mem_map_of_mem (f := Instr.words) (mem_labelsOf.mp hl)

/-- A line stands in a text as often as an instruction that it is written for. -/
theorem count_line {β : Type} [BEq β] [LawfulBEq β] {f : Instr → Option β} {line : List String}
    {x : β} (h : ∀ i : Instr, i.words = line ↔ f i = some x) (code : List Instr) :
    (code.map Instr.words).count line = (code.filterMap f).count x := by
  rw [List.count_eq_countP, List.count_eq_countP, List.countP_map, List.countP_filterMap]
  refine List.countP_congr fun i _ => ?_
  rw [Function.comp_apply, beq_iff_eq, h i]
  cases f i <;> simp

theorem count_label_line (text : String) (code : List Instr) :
    (code.map Instr.words).count ["LABEL", text] = ((labelsOf code).map Label.text).count text := by
  rw [labelsOf, List.map_filterMap]
  refine count_line (fun i => ⟨fun h => ?_, fun h => ?_⟩) code
  · obtain ⟨l, rfl, rfl⟩ := words_eq_label h
    rfl
  · cases i with
    | label l => exact congrArg (fun text => ["LABEL", text]) (Option.some.inj h)
    | _ => cases h

/-- The lines that jump or call name a target of their instruction. -/
theorem target_of_words {i : Instr} {op : String} {rest : List String}
    (hop : op ∈ ["JUMP", "JUMPIFEQ", "JUMPIFNEQ", "CALL"]) (h : i.words = op :: text :: rest) :
    ∃ l ∈ i.targets, l.text = text := by
  cases i with
  | jump l | jumpIfEq l _ _ | jumpIfNeq l _ _ | call l =>
    refine ⟨l, by simp [Instr.targets, Instr.jump?, Instr.callee?], ?_⟩
    simp only [Instr.words, List.cons.injEq] at h
    exact h.2.1
  | binary op _ _ _ =>
    obtain ⟨rfl, -⟩ := List.cons.inj h
    cases op <;> simp [Binary.text] at hop
  | unary op _ _ =>
    obtain ⟨rfl, -⟩ := List.cons.inj h
    cases op <;> simp [Unary.text] at hop
  | _ =>
    obtain ⟨rfl, -⟩ := List.cons.inj h
    simp at hop

end Code

/-- Every label of compiled code is set by one line, and every line that jumps or calls names a label
that some line sets. -/
theorem compile_labels {simplify : Bool} {source : String} {listing : Code.Listing}
    (h : compile simplify source = .ok listing) :
    (∀ text, ["LABEL", text] ∈ listing.lines → listing.lines.count ["LABEL", text] = 1) ∧
      ∀ op text rest, op ∈ ["JUMP", "JUMPIFEQ", "JUMPIFNEQ", "CALL"] →
        op :: text :: rest ∈ listing.lines → ["LABEL", text] ∈ listing.lines := by
  obtain ⟨t, body, g, hg, rfl⟩ := generated_of_compile h
  unfold Code.Listing.lines
  constructor
  · intro text htext
    rw [Code.label_line_mem] at htext
    rw [Code.count_label_line]
    exact List.count_eq_one_of_mem hg.texts_nodup htext
  · intro op text rest hop hline
    obtain ⟨i, hi, hwords⟩ := List.mem_map.mp hline
    obtain ⟨l, hl, rfl⟩ := Code.target_of_words hop hwords
    rw [Code.label_line_mem]
    exact List.mem_map_of_mem (hg.targets_labels hi hl)

/-- The function of the sample is called and has its label. -/
theorem compile_labels_sample : ∃ listing, compile true sample = .ok listing ∧
    ["CALL", "f"] ∈ listing.lines ∧ listing.lines.count ["LABEL", "f"] = 1 := by
  obtain ⟨listing, h, hcall⟩ : ∃ listing, compile true sample = .ok listing ∧
      ["CALL", "f"] ∈ listing.lines := by decide +kernel
  obtain ⟨honce, hset⟩ := compile_labels h
  exact ⟨listing, h, hcall, honce _ (hset "CALL" "f" [] (by simp) hcall)⟩

end Ifj22
