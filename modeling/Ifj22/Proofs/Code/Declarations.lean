import Ifj22.Proofs.Code.Labels
set_option autoImplicit false

/-!
# Code: the declarations of a listing

The main segment and the segment of each function declare their variables before they do anything
else; the segment of a function enters its frame first.  Each variable of the segment's own frame is
declared once, and no jump leads back to a declaration.
-/

namespace Ifj22

variable {text : String}

namespace Code

variable {v : Var} {i : Instr} {l : Label}

/-! ## Words -/

theorem Var.text_inj {w : Var} (h : v.text = w.text) : v = w := by
  obtain ⟨f, x⟩ := v
  obtain ⟨f', y⟩ := w
  rw [← String.toList_inj] at h
  cases f <;> cases f' <;>
    simp [Var.text, Frame.text, String.toList_append, String.toList_inj] at h ⊢
  all_goals exact h

/-- The text of a variable starts with the letter of its frame. -/
theorem Var.head_text (v : Var) :
    v.text.toList.head? ∈ [some 'G', some 'L', some 'T'] := by
  obtain ⟨f, x⟩ := v
  cases f <;> simp [Var.text, Frame.text, String.toList_append]

theorem Var.at_mem_text (v : Var) : '@' ∈ v.text.toList := by
  simp [Var.text, String.toList_append]

/-- An operand with the text of a variable is that variable. -/
theorem Operand.text_eq_var {a : Operand} (h : a.text = v.text) : a = .var v := by
  have hhead := v.head_text
  rw [← h] at hhead
  cases a with
  | var w => rw [Var.text_inj h]
  | bool b => cases b <;> simp [Operand.text] at hhead
  | _ => simp [Operand.text, String.toList_append] at hhead

theorem InputKind.text_ne_var (kind : InputKind) (v : Var) : kind.text ≠ v.text := by
  intro h
  have hhead := v.head_text
  rw [← h] at hhead
  cases kind <;> simp [InputKind.text] at hhead

/-- The labels in an instruction. -/
def Instr.labels (i : Instr) : List Label := i.label?.toList ++ i.targets

/-- A word of an instruction with the text of a variable is that variable, unless it is a label. -/
theorem Instr.mem_vars (hlabels : ∀ l ∈ i.labels, v.text ≠ l.text) (h : v.text ∈ i.words.tail) :
    v ∈ i.vars := by
  have hoperand : ∀ {a : Operand}, v.text = a.text → v ∈ a.vars := by
    intro a ha
    rw [Operand.text_eq_var ha.symm]
    exact List.mem_singleton.mpr rfl
  have hvar : ∀ {w : Var}, v.text = w.text → v = w := Var.text_inj
  cases i <;> simp only [Instr.words, List.tail_cons, List.mem_cons, List.not_mem_nil, or_false,
    Instr.vars, List.mem_append, Instr.labels, Instr.targets, Instr.label?, Instr.jump?,
    Instr.callee?] at h hlabels ⊢
  all_goals grind [InputKind.text_ne_var]

/-- The variable that an instruction declares. -/
def Instr.defVar? : Instr → Option Var
  | .defVar v => some v
  | _ => none

/-- The variables that a piece of code declares. -/
def declaredIn (code : List Instr) : List Var := code.filterMap Instr.defVar?

theorem declaredIn_append (c c' : List Instr) :
    declaredIn (c ++ c') = declaredIn c ++ declaredIn c' := List.filterMap_append

theorem mem_declaredIn {code : List Instr} : v ∈ declaredIn code ↔ .defVar v ∈ code := by
  refine ⟨fun h => ?_, fun h => List.mem_filterMap.mpr ⟨_, h, rfl⟩⟩
  obtain ⟨i, hi, hv⟩ := List.mem_filterMap.mp h
  cases i with
  | defVar w =>
    cases hv
    exact hi
  | _ => cases hv

theorem words_eq_defVar (h : i.words = ["DEFVAR", text]) : ∃ v, i = .defVar v ∧ v.text = text := by
  cases i with
  | defVar v => exact ⟨v, rfl, by simpa [Instr.words] using h⟩
  | binary op _ _ _ => cases op <;> simp [Instr.words, Binary.text] at h
  | unary op _ _ => cases op <;> simp [Instr.words, Unary.text] at h
  | _ => simp [Instr.words] at h

theorem count_defVar_line (v : Var) (code : List Instr) :
    (code.map Instr.words).count ["DEFVAR", v.text] = (declaredIn code).count v := by
  refine count_line (fun i => ⟨fun h => ?_, fun h => ?_⟩) code
  · obtain ⟨w, rfl, hw⟩ := words_eq_defVar h
    exact congrArg some (Var.text_inj hw)
  · cases i with
    | defVar w =>
      cases h
      rfl
    | _ => cases h

/-! ## Segments that declare their variables first -/

/-- How a segment of code declares its variables.  The variables of its own frame are declared in
it once each, and those of the other frame do not occur.  Before a declaration stand declarations
and the lines of `head` only, and what the segment jumps to stands behind all declarations.  All
this is said of the words of the text, because the text is what a machine is given. -/
structure DeclaresFirst (own other : Frame) (head lines : List (List String)) : Prop where
  once : ∀ v, lines.count ["DEFVAR", v] ≤ 1
  declared : ∀ op operands, op :: operands ∈ lines → ∀ x, (⟨own, x⟩ : Var).text ∈ operands →
    ["DEFVAR", (⟨own, x⟩ : Var).text] ∈ lines
  foreign : ∀ op operands, op :: operands ∈ lines → ∀ x, (⟨other, x⟩ : Var).text ∉ operands
  first : ∀ before v behind, lines = before ++ ["DEFVAR", v] :: behind →
    ∀ line ∈ before, line ∈ head ∨ ∃ w, line = ["DEFVAR", w]
  jumps : ∀ before v behind, lines = before ++ ["DEFVAR", v] :: behind →
    ∀ op l rest, op ∈ ["JUMP", "JUMPIFEQ", "JUMPIFNEQ"] → op :: l :: rest ∈ lines →
      ["LABEL", l] ∈ behind ∧ ["LABEL", l] ∉ before

/-- Instructions up to the last declaration of a segment, and those behind it. -/
structure Prologue (own : Frame) (head pre rest : List Instr) : Prop where
  opening : ∀ i ∈ pre, i ∈ head ∨ ∃ v, i = .defVar v
  nodup : (declaredIn pre).Nodup
  behind : ∀ i ∈ rest, ∀ v, i ≠ .defVar v
  vars : ∀ i ∈ pre ++ rest, ∀ v ∈ i.vars, v.frame = .tf ∨ v.frame = own ∧ .defVar v ∈ pre
  labels : ∀ i ∈ pre ++ rest, ∀ l ∈ i.labels, '@' ∉ l.text.toList
  jumps : ∀ i ∈ pre ++ rest, ∀ l, i.jump? = some l → .label l ∈ rest
  apart : ∀ l, .label l ∈ rest → ∀ l', .label l' ∈ pre → l.text ≠ l'.text

theorem jump_of_words {op : String} {rest : List String}
    (hop : op ∈ ["JUMP", "JUMPIFEQ", "JUMPIFNEQ"]) (h : i.words = op :: text :: rest) :
    ∃ l, i.jump? = some l ∧ l.text = text := by
  obtain ⟨l, hl, rfl⟩ := target_of_words (List.mem_append_left ["CALL"] hop) h
  rcases List.mem_append.mp hl with hjump | hcall
  · exact ⟨l, Option.mem_toList.mp hjump, rfl⟩
  · obtain rfl : i = .call l := by cases i <;> simp_all [Instr.callee?]
    obtain ⟨rfl, -⟩ := List.cons.inj h
    simp at hop

namespace Prologue

variable {own other : Frame} {head pre rest : List Instr}

/-- A line that declares a variable is a line of the prologue. -/
theorem split (h : Prologue own head pre rest) {before behind : List (List String)}
    (hlines : (pre ++ rest).map Instr.words = before ++ ["DEFVAR", text] :: behind) :
    ∃ p v q, pre = p ++ .defVar v :: q ∧ before = p.map Instr.words ∧
      behind = (q ++ rest).map Instr.words := by
  obtain ⟨p, q, heq, rfl, hq⟩ := List.map_eq_append_iff.mp hlines
  obtain ⟨i, q, rfl, hi, rfl⟩ := List.map_eq_cons_iff.mp hq
  obtain ⟨v, rfl, rfl⟩ := words_eq_defVar hi
  rcases List.append_eq_append_iff.mp heq with ⟨p', rfl, hrest⟩ | ⟨q', rfl, hq'⟩
  · exact absurd rfl (h.behind (.defVar v) (hrest ▸ by simp) v)
  · cases q' with
    | nil => exact absurd rfl (h.behind (.defVar v) (by rw [List.nil_append] at hq'; simp [← hq']) v)
    | cons i q' =>
      obtain ⟨rfl, rfl⟩ := List.cons.inj hq'
      exact ⟨p, v, q', rfl, rfl, rfl⟩

/-- What the instructions respect the lines respect, since no label has the text of a variable. -/
theorem declaresFirst (h : Prologue own head pre rest) (hown : own ≠ .tf) (htf : other ≠ .tf)
    (hother : other ≠ own) :
    DeclaresFirst own other (head.map Instr.words) ((pre ++ rest).map Instr.words) := by
  have hrest : declaredIn rest = [] :=
    List.eq_nil_iff_forall_not_mem.mpr fun v hv => h.behind _ (mem_declaredIn.mp hv) v rfl
  have hoccurs : ∀ op operands, op :: operands ∈ (pre ++ rest).map Instr.words → ∀ v : Var,
      v.text ∈ operands → v.frame = .tf ∨ v.frame = own ∧ .defVar v ∈ pre := by
    intro op operands hline v hv
    obtain ⟨i, hi, hwords⟩ := List.mem_map.mp hline
    refine h.vars i hi v (Instr.mem_vars (fun l hl heq => ?_) (by rw [hwords]; exact hv))
    exact h.labels i hi l hl (heq ▸ v.at_mem_text)
  refine ⟨?_, ?_, ?_, ?_, ?_⟩
  · intro text
    by_cases hline : ["DEFVAR", text] ∈ (pre ++ rest).map Instr.words
    · obtain ⟨i, _, hi⟩ := List.mem_map.mp hline
      obtain ⟨v, rfl, rfl⟩ := words_eq_defVar hi
      rw [count_defVar_line, declaredIn_append, hrest, List.append_nil]
      exact List.nodup_iff_count_le_one.mp h.nodup v
    · rw [List.count_eq_zero_of_not_mem hline]
      exact Nat.zero_le 1
  · intro op operands hline x hx
    rcases hoccurs op operands hline _ hx with hframe | ⟨_, hdecl⟩
    · exact absurd hframe hown
    · exact List.mem_map_of_mem (f := Instr.words) (List.mem_append_left rest hdecl)
  · intro op operands hline x hx
    rcases hoccurs op operands hline _ hx with hframe | ⟨hframe, _⟩
    · exact htf hframe
    · exact hother hframe
  · intro before v behind hlines line hline
    obtain ⟨p, w, q, rfl, rfl, _⟩ := h.split hlines
    obtain ⟨i, hi, rfl⟩ := List.mem_map.mp hline
    rcases h.opening i (List.mem_append_left _ hi) with hhead | ⟨u, rfl⟩
    · exact .inl (List.mem_map_of_mem hhead)
    · exact .inr ⟨u.text, rfl⟩
  · intro before v behind hlines op text operands hop hline
    obtain ⟨p, w, q, rfl, rfl, rfl⟩ := h.split hlines
    obtain ⟨i, hi, hwords⟩ := List.mem_map.mp hline
    obtain ⟨l, hl, rfl⟩ := jump_of_words hop hwords
    have hset := h.jumps i hi l hl
    refine ⟨List.mem_map_of_mem (f := Instr.words) (List.mem_append_right q hset), fun hbefore => ?_⟩
    obtain ⟨j, hj, hjwords⟩ := List.mem_map.mp hbefore
    obtain ⟨l', rfl, htext⟩ := words_eq_label hjwords
    exact h.apart l hset l' (List.mem_append_left _ hj) htext.symm

end Prologue

/-! ## The segments of a listing -/

theorem declaredIn_declarations (segment : Segment) :
    declaredIn segment.declarations = segment.declared.toList := by
  unfold declaredIn Segment.declarations
  rw [List.filterMap_map]
  exact List.filterMap_some

theorem defVar_mem_declarations {segment : Segment} :
    .defVar v ∈ segment.declarations ↔ v ∈ segment.declared := by
  rw [← mem_declaredIn, declaredIn_declarations, Array.mem_toList_iff]

/-- Names and labels have no at sign. -/
theorem at_not_mem_of_isName {name : String} (h : IsName name.toList) : '@' ∉ name.toList := by
  intro hmem
  cases hlist : name.toList with
  | nil =>
    rw [hlist] at hmem
    cases hmem
  | cons c rest =>
    rw [hlist] at h hmem
    rcases List.mem_cons.mp hmem with rfl | hmem
    · exact absurd h.1 (by decide)
    · exact absurd (h.2 _ hmem) (by decide)

theorem Site.at_not_mem (site : Site) (n : Nat) : '@' ∉ (site.text n).toList := by
  intro hmem
  have hrest : '@' ∈ (site.text n).toList.filter (!·.isDigit) :=
    List.mem_filter.mpr ⟨hmem, by decide⟩
  rw [rest_text] at hrest
  revert hrest
  cases site <;> decide

theorem Routine.at_not_mem (r : Routine) : ∀ l ∈ labelsOf r.body, '@' ∉ l.text.toList := by
  cases r <;> decide +kernel

namespace Generator

variable {t : SymbolTable} {limit : Nat} {body : List Stmt} {g : Generator}

namespace Generated

/-- What holds of the names of functions, of generated labels and of the labels of routines holds of
the labels of a listing. -/
theorem forall_labels (h : Generated t limit body g) {P : String → Prop}
    (hname : ∀ name : String, IsName name.toList → P name) (hsite : ∀ (site : Site) n, P (site.text n))
    (hroutine : ∀ (r : Routine), ∀ l ∈ labelsOf r.body, P l.text)
    (hi : i ∈ g.finish.listing.instructions) : ∀ l ∈ i.labels, P l.text := by
  intro l hl
  have hfinal : l ∈ g.finalLabels := by
    rcases List.mem_append.mp hl with hset | htarget
    · exact List.mem_filterMap.mpr ⟨i, hi, Option.mem_toList.mp hset⟩
    · exact h.targets_labels hi htarget
  obtain ⟨generated, hperm, _, hsites⟩ := h.top.numbered
  rw [finalLabels_eq] at hfinal
  rcases List.mem_append.mp hfinal with hl | hl
  · rcases List.mem_append.mp (hperm.mem_iff.mp hl) with hentry | hbranch
    · obtain ⟨name, hmem, rfl⟩ := List.mem_map.mp hentry
      obtain ⟨params, declared, b, hmem⟩ := function_mem hmem
      exact hname name (h.head hmem).1
    · obtain ⟨site, n, rfl, _⟩ := hsites l hbranch
      exact hsite site n
  · rw [labelsOf_flatMap_body] at hl
    obtain ⟨r, _, hl⟩ := List.mem_flatMap.mp hl
    exact hroutine r l hl

theorem labels_at_not_mem (h : Generated t limit body g) (hi : i ∈ g.finish.listing.instructions) :
    ∀ l ∈ i.labels, '@' ∉ l.text.toList :=
  h.forall_labels (fun _ => at_not_mem_of_isName) Site.at_not_mem Routine.at_not_mem hi

/-- The main segment declares its variables first. -/
theorem main_prologue (h : Generated t limit body g) :
    Prologue .gf [] g.segment.declarations (g.segment.body.toList ++ [.exit (.int 0)]) where
  opening i hi := by
    obtain ⟨v, _, rfl⟩ := List.mem_map.mp hi
    exact .inr ⟨v, rfl⟩
  nodup := by
    rw [declaredIn_declarations]
    exact h.top.tidy.nodup
  behind i hi v := by
    rcases List.mem_append.mp hi with hbody | hexit
    · exact (h.top.piece.item i hbody).ne_defVar v
    · obtain rfl := List.mem_singleton.mp hexit
      exact Instr.noConfusion
  vars i hi v hv := by
    have hdeclared : v ∈ g.segment.declared → v.frame = .gf ∧ .defVar v ∈ g.segment.declarations :=
      fun hv => ⟨(h.top.tidy.frame v hv).trans h.top.frame, defVar_mem_declarations.mpr hv⟩
    simp only [List.mem_append, List.mem_singleton] at hi
    rcases hi with hdecl | hbody | rfl
    · obtain ⟨w, hw, rfl⟩ := List.mem_map.mp hdecl
      obtain rfl := List.mem_singleton.mp hv
      exact .inr (hdeclared (Array.mem_toList_iff.mp hw))
    · rcases h.top.uses i hbody v hv with hv | rfl | ⟨_, hf⟩
      · exact .inr (hdeclared hv)
      · exact .inl rfl
      · rw [h.top.function] at hf
        cases hf
    · cases hv
  labels i hi l hl := by
    refine h.labels_at_not_mem ?_ l hl
    rw [finish_instructions]
    simp only [List.mem_append] at hi ⊢
    grind
  jumps i hi l hl := by
    simp only [List.mem_append, List.mem_singleton] at hi
    rcases hi with hdecl | hbody | rfl
    · obtain ⟨w, _, rfl⟩ := List.mem_map.mp hdecl
      cases hl
    · exact List.mem_append_left _ (mem_labelsOf.mp ((h.top.piece.item i hbody).jump_mem hl))
    · cases hl
  apart _ _ l' hl' := by
    rw [← mem_labelsOf, labelsOf_declarations] at hl'
    cases hl'

theorem result_not_mem (h : g.Tidy) : Var.result ∉ g.segment.declared := by
  intro hmem
  rcases h.named _ hmem with ⟨stem, hstem, m, _, _, heq⟩ | ⟨x, hx, heq, _⟩
  · rw [← String.toList_inj, String.toList_append] at heq
    rcases hstem with rfl | rfl <;> simp [Var.result] at heq
  · have hname := (bareName_eq hx).2
    rw [← heq] at hname
    exact absurd hname.1 (by decide)

/-- The start of a function, where its frame is entered. -/
def entering (name : String) : List Instr :=
  [.label (.entry name), .pushFrame, .defVar Var.result, .move Var.result .nil]

/-- The end of a function, with its parameters before its body. -/
def inner (params : List Param) (segment : Segment) : List Instr :=
  pops params ++ segment.body.toList ++ [.popFrame, .ret]

theorem functionCode_eq (name : String) (params : List Param) (segment : Segment) :
    functionCode name (pops params) segment =
      entering name ++ segment.declarations ++ inner params segment := by
  unfold functionCode entering inner
  simp only [List.append_assoc]

theorem mem_inner {params : List Param} {segment : Segment} :
    i ∈ inner params segment ↔ (∃ p ∈ params, i = .pop ⟨.lf, bareName p.name⟩) ∨
      i ∈ segment.body.toList ∨ i = .popFrame ∨ i = .ret := by
  unfold inner pops popOf
  simp only [List.mem_append, List.mem_map, List.mem_reverse, List.mem_cons, List.not_mem_nil,
    or_false, or_assoc, @eq_comm _ _ i]

/-- The code of a function uses its result and the variables that its segment has. -/
theorem function_has {name : String} {params : List Param} {b : List Stmt} {g1 g2 : Generator}
    (hrun : FunctionRun t limit name params b g1 g2)
    (hi : i ∈ entering name ++ g2.segment.declarations ++ inner params g2.segment)
    (hv : v ∈ i.vars) : v = Var.result ∨ g2.Has v := by
  have huses := hrun.step.uses
  rw [hrun.added_eq] at huses
  simp only [entering, List.mem_append, List.mem_cons, List.not_mem_nil, or_false, mem_inner] at hi
  rcases hi with ((rfl | rfl | rfl | rfl) | hdecl) | ⟨p, hp, rfl⟩ | hbody | rfl | rfl
  · cases hv
  · cases hv
  · exact .inl (List.mem_singleton.mp hv)
  · exact .inl (List.mem_singleton.mp hv)
  · obtain ⟨w, hw, rfl⟩ := List.mem_map.mp hdecl
    obtain rfl := List.mem_singleton.mp hv
    exact .inr (.inl (Array.mem_toList_iff.mp hw))
  · obtain rfl := List.mem_singleton.mp hv
    exact .inr (.inl (hrun.step.declared _ (hrun.params p hp)))
  · exact .inr (huses i hbody v hv)
  · cases hv
  · cases hv

/-- The segment of a function declares its variables first. -/
theorem function_prologue (h : Generated t limit body g) {name : String} {params : List Param}
    {b : List Stmt} {g1 g2 : Generator} (hrun : FunctionRun t limit name params b g1 g2)
    (hcode : functionCode name (pops params) g2.segment ∈ g.functions.toList) :
    Prologue .lf [.label (.entry name), .pushFrame, .move Var.result .nil]
      (entering name ++ g2.segment.declarations) (inner params g2.segment) := by
  have htidy : g2.Tidy := hrun.step.tidy hrun.knows.inScope hrun.knows.tidy
  have hpiece := hrun.step.piece
  rw [hrun.added_eq] at hpiece
  have hdeclared : ∀ v ∈ g2.segment.declared, v.frame = .lf ∧
      .defVar v ∈ entering name ++ g2.segment.declarations := fun v hv =>
    ⟨(htidy.frame v hv).trans (hrun.step.frame.trans hrun.frame),
      List.mem_append_right _ (defVar_mem_declarations.mpr hv)⟩
  have hresult : Var.result.frame = .lf ∧
      .defVar Var.result ∈ entering name ++ g2.segment.declarations :=
    ⟨rfl, List.mem_append_left _ (by simp [entering])⟩
  refine ⟨fun i hi => ?_, ?_, fun i hi v => ?_, fun i hi v hv => ?_, fun i hi l hl => ?_,
    fun i hi l hl => ?_, fun l hl l' hl' => ?_⟩
  · simp only [entering, List.mem_append, List.mem_cons, List.not_mem_nil, or_false] at hi
    rcases hi with (rfl | rfl | rfl | rfl) | hdecl
    · simp
    · simp
    · exact .inr ⟨_, rfl⟩
    · simp
    · obtain ⟨v, _, rfl⟩ := List.mem_map.mp hdecl
      exact .inr ⟨v, rfl⟩
  · rw [declaredIn_append, declaredIn_declarations]
    refine List.nodup_cons.mpr ⟨?_, htidy.nodup⟩
    exact fun hmem => result_not_mem htidy (Array.mem_toList_iff.mp hmem)
  · rcases mem_inner.mp hi with ⟨p, _, rfl⟩ | hbody | rfl | rfl
    · exact Instr.noConfusion
    · exact (hpiece.item i hbody).ne_defVar v
    · exact Instr.noConfusion
    · exact Instr.noConfusion
  · rcases function_has hrun hi hv with rfl | hv | rfl | ⟨rfl, _⟩
    · exact .inr hresult
    · exact .inr (hdeclared v hv)
    · exact .inl rfl
    · exact .inr hresult
  · refine h.labels_at_not_mem ?_ l hl
    rw [← functionCode_eq] at hi
    rw [finish_instructions]
    exact List.mem_append_left _ (List.mem_append_right _ (List.mem_flatten_of_mem hcode hi))
  · rw [← functionCode_eq] at hi
    rcases mem_functionCode hi with hbody | hnone
    · exact mem_inner.mpr (.inr (.inl (mem_labelsOf.mp ((hpiece.item i hbody).jump_mem hl))))
    · rw [Instr.targets, hl] at hnone
      cases hnone
  · -- the name of the function is the first label of its code, and the texts of labels differ
    have hsub : (labelsOf (functionCode name (pops params) g2.segment)).Sublist g.finalLabels := by
      rw [finalLabels_eq, labelsOf_append]
      refine List.Sublist.trans ?_ ((List.sublist_append_right _ _).trans
        (List.sublist_append_left _ _))
      exact (List.sublist_flatten_of_mem hcode).filterMap _
    have hnodup := h.texts_nodup.sublist (hsub.map _)
    rw [Top.labelsOf_functionCode] at hnodup
    have hentry : l' = .entry name := by
      rcases List.mem_append.mp hl' with hl' | hl'
      · simpa [entering] using hl'
      · rw [← mem_labelsOf, labelsOf_declarations] at hl'
        cases hl'
    have hbody : l ∈ labelsOf g2.segment.body.toList := by
      rcases mem_inner.mp hl with ⟨p, _, hl⟩ | hl | hl | hl
      · cases hl
      · exact mem_labelsOf.mpr hl
      · cases hl
      · cases hl
    subst hentry
    intro htext
    exact (List.nodup_cons.mp hnodup).1 (List.mem_map.mpr ⟨l, hbody, htext⟩)

end Generated

end Generator

end Code

/-- The main segment of compiled code and the segments of its functions declare their variables
before anything else is done, each once, and no jump leads back to a declaration.  A function sets
its label, enters its frame and clears its result before. -/
theorem compile_declarations {simplify : Bool} {source : String} {listing : Code.Listing}
    (h : compile simplify source = .ok listing) :
    Code.DeclaresFirst .gf .lf [] (listing.main.map Code.Instr.words) ∧
      ∀ code ∈ listing.functions, ∃ name rest,
        code.map Code.Instr.words = ["LABEL", name] :: ["PUSHFRAME"] :: ["DEFVAR", "LF@%retval"] ::
          ["MOVE", "LF@%retval", "nil@nil"] :: rest ∧
        Code.DeclaresFirst .lf .gf
          [["LABEL", name], ["PUSHFRAME"], ["MOVE", "LF@%retval", "nil@nil"]]
          (code.map Code.Instr.words) := by
  obtain ⟨t, body, g, hg, rfl⟩ := generated_of_compile h
  constructor
  · have hmain : g.finish.listing.main =
        g.segment.declarations ++ (g.segment.body.toList ++ [.exit (.int 0)]) := by
      show g.segment.declarations ++ (g.segment.body ++ [Code.Instr.exit (.int 0)]).toList = _
      rw [Array.toList_appendList]
    rw [hmain]
    exact hg.main_prologue.declaresFirst (by decide) (by decide) (by decide)
  · intro code hcode
    obtain ⟨name, params, declared, b, g₁, g₂, _, hrun, _, rfl⟩ := hg.mem_functions hcode
    refine ⟨name, _, rfl, ?_⟩
    rw [Code.Generator.Generated.functionCode_eq]
    exact (hg.function_prologue hrun hcode).declaresFirst (by decide) (by decide) (by decide)

/-- The function of the sample uses its variable in a loop, and declares it once. -/
theorem compile_declarations_sample : ∃ listing code, compile false sample = .ok listing ∧
    code ∈ listing.functions ∧ ["MOVE", "LF@k", "int@1"] ∈ code.map Code.Instr.words ∧
      (code.map Code.Instr.words).count ["DEFVAR", "LF@k"] = 1 := by
  obtain ⟨listing, h, code, hcode, hline⟩ : ∃ listing, compile false sample = .ok listing ∧
      ∃ code ∈ listing.functions, ["MOVE", "LF@k", "int@1"] ∈ code.map Code.Instr.words := by
    decide +kernel
  obtain ⟨_, hfunctions⟩ := compile_declarations h
  obtain ⟨_, _, _, hfirst⟩ := hfunctions code hcode
  have hdeclared : ["DEFVAR", "LF@k"] ∈ code.map Code.Instr.words :=
    hfirst.declared "MOVE" _ hline "k" (by decide +kernel)
  refine ⟨listing, code, h, hcode, hline, ?_⟩
  exact Nat.le_antisymm (hfirst.once "LF@k") (List.one_le_count_iff.mpr hdeclared)

end Ifj22
