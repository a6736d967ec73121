import Ifj22.Proofs.Code.Marks
import Ifj22.Proofs.Code.Piece
import Mathlib.Data.List.Nodup
set_option autoImplicit false

/-!
# Code: what a step of the generator adds

A step adds a piece of code to the end of the segment and declares the variables that it uses.  The
labels that it sets are numbered within the range of numbers that it takes, but for those that it was
asked to set; each is set once.  A name that the table knows always has a variable, so a step over
known names never fails.
-/

namespace Ifj22.Code

variable {hi : Nat} {r : List Label} {c : List Instr} {l : Label} {stem x : String} {i : Instr}
  {v : Var} {value : Operand} {lo : Nat} {c' : List Instr} {V : Vocabulary}

/-! ## Instructions -/

/-- The variables of an operand. -/
def Operand.vars : Operand → List Var
  | .var v => [v]
  | _ => []

/-- The variables of an instruction. -/
def Instr.vars : Instr → List Var
  | .move dest src => dest :: src.vars
  | .defVar v => [v]
  | .push src => src.vars
  | .pop dest => [dest]
  | .binary _ dest a b => dest :: (a.vars ++ b.vars)
  | .unary _ dest a => dest :: a.vars
  | .read dest _ => [dest]
  | .write src => src.vars
  | .jumpIfEq _ a b => a.vars ++ b.vars
  | .jumpIfNeq _ a b => a.vars ++ b.vars
  | .exit code => code.vars
  | _ => []

/-- The labels set in the code are the reserved ones and others with numbers in a range. -/
def Numbered (reserved : List Label) (lo hi : Nat) (code : List Instr) : Prop :=
  ∃ fresh : List Label, (labelsOf code).Perm (reserved ++ fresh) ∧ fresh.Nodup ∧
    ∀ l ∈ fresh, ∃ site n, l = .branch site n ∧ lo < n ∧ n ≤ hi

namespace Numbered

theorem append {r1 r2 : List Label} {mid : Nat} {c1 c2 : List Instr} (h1 : Numbered r1 lo mid c1)
    (h2 : Numbered r2 mid hi c2) (hlo : lo ≤ mid) (hhi : mid ≤ hi) :
    Numbered (r1 ++ r2) lo hi (c1 ++ c2) := by
  obtain ⟨f1, hp1, hn1, hf1⟩ := h1
  obtain ⟨f2, hp2, hn2, hf2⟩ := h2
  refine ⟨f1 ++ f2, ?_, ?_, ?_⟩
  · rw [labelsOf_append]
    refine (hp1.append hp2).trans ?_
    rw [List.append_assoc, List.append_assoc]
    exact (List.perm_append_comm_assoc f1 r2 f2).append_left r1
  · refine hn1.append hn2 fun l hl1 hl2 => ?_
    obtain ⟨_, n, rfl, _, hn⟩ := hf1 l hl1
    obtain ⟨_, m, heq, hm, _⟩ := hf2 _ hl2
    injection heq with _ hnm
    omega
  · intro l hl
    rcases List.mem_append.mp hl with hl | hl
    · obtain ⟨site, n, rfl, hlo', hn⟩ := hf1 l hl
      exact ⟨site, n, rfl, hlo', Nat.le_trans hn hhi⟩
    · obtain ⟨site, n, rfl, hmid, hn⟩ := hf2 l hl
      exact ⟨site, n, rfl, Nat.lt_of_le_of_lt hlo hmid, hn⟩

/-- Labels that were reserved with a number of their own. -/
theorem release {n : Nat} {code : List Instr} (h : Numbered r (n + 1) hi code) (hr : r.Nodup)
    (hhi : n + 1 ≤ hi) (hsites : ∀ l ∈ r, ∃ site, l = .branch site (n + 1)) :
    Numbered [] n hi code := by
  obtain ⟨fresh, hp, hn, hf⟩ := h
  refine ⟨r ++ fresh, hp, ?_, ?_⟩
  · refine hr.append hn fun l hl hl' => ?_
    obtain ⟨_, rfl⟩ := hsites l hl
    obtain ⟨_, m, heq, hm, _⟩ := hf _ hl'
    injection heq with _ hnm
    omega
  · intro l hl
    rcases List.mem_append.mp hl with hl | hl
    · obtain ⟨site, rfl⟩ := hsites l hl
      exact ⟨site, n + 1, rfl, Nat.lt_succ_self n, hhi⟩
    · obtain ⟨site, m, rfl, hm, hm'⟩ := hf l hl
      exact ⟨site, m, rfl, by omega, hm'⟩

theorem perm (hp : c.Perm c') (h : Numbered r lo hi c) : Numbered r lo hi c' := by
  obtain ⟨fresh, hperm, hn, hf⟩ := h
  exact ⟨fresh, (hp.filterMap _).symm.trans hperm, hn, hf⟩

theorem mono_left {lo' : Nat} (h : Numbered r lo hi c) (hle : lo' ≤ lo) : Numbered r lo' hi c := by
  obtain ⟨fresh, hperm, hn, hf⟩ := h
  refine ⟨fresh, hperm, hn, fun l hl => ?_⟩
  obtain ⟨site, n, rfl, hlo, hhi⟩ := hf l hl
  exact ⟨site, n, rfl, Nat.lt_of_le_of_lt hle hlo, hhi⟩

/-- Code with one label more. -/
theorem entry (h : Numbered [] lo hi c) (hl : labelsOf c' = l :: labelsOf c) :
    Numbered [l] lo hi c' := by
  obtain ⟨fresh, hperm, hn, hf⟩ := h
  exact ⟨fresh, hl ▸ hperm.cons l, hn, hf⟩

theorem nil (n : Nat) : Numbered [] n n [] := ⟨[], .refl _, .nil, by simp⟩

end Numbered

/-! ## Names of variables -/

namespace Generator

/-- The name is one of a numbered variable with a number up to `n`. -/
def IsNumbered (n : Nat) (name : String) : Prop :=
  ∃ stem, (stem = "%t" ∨ stem = "%s") ∧ ∃ m, 0 < m ∧ m ≤ n ∧ name = stem ++ toString m

theorem bareName_eq (h : IsVarName x.toList) :
    x.toList = '$' :: (bareName x).toList ∧ IsName (bareName x).toList := by
  unfold bareName
  rw [String.toList_ofList]
  match hx : x.toList with
  | [] => rw [hx] at h; exact h.elim
  | c :: rest =>
    rw [hx] at h
    obtain ⟨rfl, hname⟩ := h
    match rest with
    | [] => exact hname.elim
    | d :: rest =>
      have hd : (d == '$') = false := by
        rw [beq_eq_false_iff_ne]
        rintro rfl
        exact absurd hname.1 (by decide)
      rw [List.dropWhile_cons_of_pos (by decide), List.dropWhile_cons_of_neg (by simp [hd])]
      exact ⟨rfl, hname⟩

theorem bareName_inj {y : String} (hx : IsVarName x.toList) (hy : IsVarName y.toList)
    (h : bareName x = bareName y) : x = y := by
  rw [← String.toList_inj, (bareName_eq hx).1, (bareName_eq hy).1, h]

theorem not_isNumbered_bareName (hx : IsVarName x.toList) (n : Nat) :
    ¬ IsNumbered n (bareName x) := by
  rintro ⟨stem, hstem, m, _, _, heq⟩
  have hname := (bareName_eq hx).2
  rw [heq, String.toList_append] at hname
  rcases hstem with rfl | rfl
  · exact absurd hname.1 (by decide)
  · exact absurd hname.1 (by decide)

theorem numbered_inj {stem' : String} (h : stem = "%t" ∨ stem = "%s")
    (h' : stem' = "%t" ∨ stem' = "%s") {m n : Nat}
    (heq : stem ++ toString m = stem' ++ toString n) : m = n := by
  have hlist := congrArg String.toList heq
  have hrest : (toString m).toList = (toString n).toList := by
    rcases h with rfl | rfl <;> rcases h' with rfl | rfl
    · exact (List.append_cancel_left (by simpa only [String.toList_append] using hlist))
    · exact absurd hlist (by simp)
    · exact absurd hlist (by simp)
    · exact (List.append_cancel_left (by simpa only [String.toList_append] using hlist))
  rw [Nat.toString_eq_ofList_toDigits, Nat.toString_eq_ofList_toDigits, String.toList_ofList,
    String.toList_ofList] at hrest
  rw [← Nat.ofDigitChars_ten_toDigits (n := m), hrest, Nat.ofDigitChars_ten_toDigits]

theorem IsNumbered.mono {m n : Nat} {name : String} (h : IsNumbered m name) (hle : m ≤ n) :
    IsNumbered n name := by
  obtain ⟨stem, hstem, k, hpos, hk, heq⟩ := h
  exact ⟨stem, hstem, k, hpos, Nat.le_trans hk hle, heq⟩

/-! ## Segments -/

/-- The variables of the segment are declared once each, and they are numbered ones and those of the
marked names. -/
structure Tidy (g : Generator) : Prop where
  nodup : g.segment.declared.toList.Nodup
  frame : ∀ v ∈ g.segment.declared, v.frame = g.segment.frame
  named : ∀ v ∈ g.segment.declared, IsNumbered g.temps v.name ∨
    ∃ x, IsVarName x.toList ∧ v.name = bareName x ∧ g.emitted? x = some true
  marked : ∀ x, IsVarName x.toList → g.emitted? x = some true →
    ⟨g.segment.frame, bareName x⟩ ∈ g.segment.declared

/-- The variable can be used in the segment: it is declared there, or holds a result. -/
def Has (g : Generator) (v : Var) : Prop :=
  v ∈ g.segment.declared ∨ v = Var.returned ∨ (v = Var.result ∧ g.function.isSome = true)

/-- The operand can be used in the segment. -/
def Holds (g : Generator) (a : Operand) : Prop := ∀ v ∈ a.vars, g.Has v

/-- The instruction can stand in the segment. -/
def Uses (g : Generator) (i : Instr) : Prop := ∀ v ∈ i.vars, g.Has v

section

variable {g : Generator} {v : Var} {a b : Operand}

@[simp] theorem holds_var : g.Holds (.var v) ↔ g.Has v := by simp [Holds, Operand.vars]

theorem holds_immediate (h : a.vars = []) : g.Holds a := by
  intro v hv
  rw [h] at hv
  cases hv

theorem uses_move : g.Uses (.move v a) ↔ g.Has v ∧ g.Holds a := by
  simp [Uses, Instr.vars, Holds]

theorem uses_binary {op : Binary} :
    g.Uses (.binary op v a b) ↔ g.Has v ∧ g.Holds a ∧ g.Holds b := by
  simp [Uses, Instr.vars, Holds, or_imp, forall_and]

theorem uses_unary {op : Unary} : g.Uses (.unary op v a) ↔ g.Has v ∧ g.Holds a := by
  simp [Uses, Instr.vars, Holds]

theorem uses_jumpIfEq : g.Uses (.jumpIfEq l a b) ↔ g.Holds a ∧ g.Holds b := by
  simp [Uses, Instr.vars, Holds, or_imp, forall_and]

theorem uses_jumpIfNeq : g.Uses (.jumpIfNeq l a b) ↔ g.Holds a ∧ g.Holds b := by
  simp [Uses, Instr.vars, Holds, or_imp, forall_and]

theorem uses_none (h : i.vars = []) : g.Uses i := by
  intro v hv
  rw [h] at hv
  cases hv

end

/-- The instructions that have been added to the segment. -/
def added (g g' : Generator) : List Instr := g'.segment.body.toList.drop g.segment.body.size

theorem added_eq {g g' : Generator} {code : List Instr}
    (h : g'.segment.body.toList = g.segment.body.toList ++ code) : added g g' = code := by
  unfold added
  rw [h, ← Array.length_toList, List.drop_left]

@[simp] theorem added_self (g : Generator) : added g g = [] := added_eq (List.append_nil _).symm

/-- How a generator grows that sets the reserved labels and others of its own.  It is transitive,
so what each step of the generator respects all the code of a segment respects. -/
structure Growth (reserved : List Label) (g g' : Generator) : Prop where
  table : g.table.Alike g'.table
  others : ∀ scope x, scope ≠ g.function → g'.table.emitted? scope x = g.table.emitted? scope x
  function : g'.function = g.function
  functions : g'.functions = g.functions
  frame : g'.segment.frame = g.segment.frame
  labels : g.labels ≤ g'.labels
  temps : g.temps ≤ g'.temps
  helpers : ∀ r ∈ g.helpers, r ∈ g'.helpers
  declared : ∀ v ∈ g.segment.declared, v ∈ g'.segment.declared
  tidy : g.InScope → g.Tidy → g'.Tidy
  body : g'.segment.body.toList = g.segment.body.toList ++ added g g'
  numbered : Numbered reserved g.labels g'.labels (added g g')
  uses : ∀ i ∈ added g g', g'.Uses i

namespace Growth

variable {r r' : List Label} {g g' g'' : Generator}

theorem has (h : Growth r g g') (hv : g.Has v) : g'.Has v := by
  rcases hv with hv | hv | ⟨hv, hf⟩
  · exact .inl (h.declared v hv)
  · exact .inr (.inl hv)
  · exact .inr (.inr ⟨hv, by rwa [h.function]⟩)

theorem holds (h : Growth r g g') {a : Operand} (ha : g.Holds a) : g'.Holds a :=
  fun v hv => h.has (ha v hv)

theorem inScope (h : Growth r g g') (hg : g.InScope) : g'.InScope := by
  intro f hf
  rw [h.function] at hf
  rw [h.table.isFunction_eq]
  exact hg f hf

theorem added_trans (h1 : Growth r g g') (h2 : Growth r' g' g'') :
    added g g'' = added g g' ++ added g' g'' :=
  added_eq (by rw [h2.body, h1.body, List.append_assoc])

/-- A change that adds no instructions. -/
theorem of_body (htable : g.table.Alike g'.table)
    (hothers : ∀ scope x, scope ≠ g.function → g'.table.emitted? scope x = g.table.emitted? scope x)
    (hfunction : g'.function = g.function) (hfunctions : g'.functions = g.functions)
    (hframe : g'.segment.frame = g.segment.frame) (hlabels : g'.labels = g.labels)
    (htemps : g.temps ≤ g'.temps) (hhelpers : g'.helpers = g.helpers)
    (hdeclared : ∀ v ∈ g.segment.declared, v ∈ g'.segment.declared)
    (htidy : g.InScope → g.Tidy → g'.Tidy) (hbody : g'.segment.body = g.segment.body) :
    Growth [] g g' ∧ added g g' = [] := by
  have hadded : added g g' = [] := added_eq (by rw [hbody, List.append_nil])
  refine ⟨⟨htable, hothers, hfunction, hfunctions, hframe, Nat.le_of_eq hlabels.symm, htemps, ?_,
    hdeclared, htidy, ?_, ?_, ?_⟩, hadded⟩
  · exact fun r hr => by rwa [hhelpers]
  · rw [hadded, hbody, List.append_nil]
  · rw [hadded, hlabels]
    exact .nil _
  · rw [hadded]
    exact List.forall_mem_nil _

theorem refl (g : Generator) : Growth [] g g :=
  (of_body (.refl _) (fun _ _ _ => rfl) rfl rfl rfl rfl (Nat.le_refl _) rfl (fun _ h => h)
    (fun _ h => h) rfl).1

theorem trans (h1 : Growth r g g') (h2 : Growth r' g' g'') : Growth (r ++ r') g g'' where
  table := h1.table.trans h2.table
  others scope x hne := (h2.others scope x (by rwa [h1.function])).trans (h1.others scope x hne)
  function := h2.function.trans h1.function
  functions := h2.functions.trans h1.functions
  frame := h2.frame.trans h1.frame
  labels := Nat.le_trans h1.labels h2.labels
  temps := Nat.le_trans h1.temps h2.temps
  helpers r hr := h2.helpers r (h1.helpers r hr)
  declared v hv := h2.declared v (h1.declared v hv)
  tidy hscope hg := h2.tidy (h1.inScope hscope) (h1.tidy hscope hg)
  body := by rw [h1.added_trans h2, h2.body, h1.body, List.append_assoc]
  numbered := by
    rw [h1.added_trans h2]
    exact h1.numbered.append h2.numbered h1.labels h2.labels
  uses i hi := by
    rw [h1.added_trans h2] at hi
    rcases List.mem_append.mp hi with hi | hi
    · exact fun v hv => h2.has (h1.uses i hi v hv)
    · exact h2.uses i hi

/-- Labels with a number of their own that were to be set count as labels of the step. -/
theorem release (h : Growth r { g with labels := g.labels + 1 } g') (hr : r.Nodup)
    (hsites : ∀ l ∈ r, ∃ site, l = .branch site (g.labels + 1)) : Growth [] g g' where
  table := h.table
  others := h.others
  function := h.function
  functions := h.functions
  frame := h.frame
  labels := Nat.le_of_succ_le h.labels
  temps := h.temps
  helpers := h.helpers
  declared := h.declared
  tidy hscope hg := h.tidy hscope ⟨hg.nodup, hg.frame, hg.named, hg.marked⟩
  body := h.body
  numbered := h.numbered.release hr h.labels hsites
  uses := h.uses

end Growth

/-- Where a step stands: the calls that it may make, whether it may leave the function, and the labels
that it may jump to. -/
structure Context where
  vocabulary : Vocabulary
  leaves : Bool
  targets : List Label

/-- What a step does that sets the reserved labels and others of its own. -/
structure Step (K : Context) (reserved : List Label) (g g' : Generator) : Prop
    extends Growth reserved g g' where
  piece : Piece K.vocabulary g'.helpers (.level K.leaves K.targets reserved) (added g g')

/-- What a step does that pushes the arguments of a call. -/
structure Pushed (V : Vocabulary) (args : List Expr) (g g' : Generator) : Prop
    extends Growth [] g g' where
  piece : Piece V g'.helpers (.args args) (added g g')

namespace Step

variable {K : Context} {r r' : List Label} {g g' g'' : Generator}

/-- A change that adds no instructions is a step. -/
theorem of_growth (h : Growth [] g g' ∧ added g g' = []) : Step K [] g g' :=
  ⟨h.1, by rw [h.2]; exact .nil⟩

theorem refl (g : Generator) : Step K [] g g := of_growth ⟨.refl g, added_self g⟩

theorem trans (h1 : Step K r g g') (h2 : Step K r' g' g'') : Step K (r ++ r') g g'' :=
  ⟨h1.toGrowth.trans h2.toGrowth, by
    rw [h1.added_trans h2.toGrowth]
    exact (h1.piece.mono h2.helpers).append h2.piece⟩

/-- The labels that a step was to set may count as its own. -/
theorem release (h : Step { K with targets := r } r { g with labels := g.labels + 1 } g')
    (hr : r.Nodup) (hsites : ∀ l ∈ r, ∃ site, l = .branch site (g.labels + 1)) : Step K [] g g' :=
  ⟨h.toGrowth.release hr hsites, .closed h.piece⟩

end Step

/-! ## The parts of steps -/

variable {K : Context} {g g' : Generator} {α β : Type}

/-- The generator with more instructions in its segment, and the given conversions. -/
def withCode (g : Generator) (code : List Instr) (helpers : List Routine) : Generator :=
  { g with segment := { g.segment with body := g.segment.body ++ code }, helpers := helpers }

theorem growth_withCode (code : List Instr) {helpers : List Routine}
    (hhelpers : ∀ r ∈ g.helpers, r ∈ helpers) (hlabels : (labelsOf code).Perm r)
    (huses : ∀ i ∈ code, g.Uses i) :
    Growth r g (g.withCode code helpers) ∧ added g (g.withCode code helpers) = code := by
  have hbody : (g.segment.body ++ code).toList = g.segment.body.toList ++ code := by simp
  have hadded : added g (g.withCode code helpers) = code := added_eq hbody
  refine ⟨⟨.refl _, fun _ _ _ => rfl, rfl, rfl, rfl, Nat.le_refl _, Nat.le_refl _, hhelpers,
    fun _ h => h, fun _ h => ⟨h.nodup, h.frame, h.named, h.marked⟩, ?_, ?_, ?_⟩, hadded⟩
  · rw [hadded]
    exact hbody
  · rw [hadded]
    exact ⟨[], by simpa using hlabels, .nil, by simp⟩
  · rw [hadded]
    exact huses

theorem step_emit (hv : g.Uses i) (hr : i.label?.toList = r)
    (hpiece : Piece K.vocabulary g.helpers (.level K.leaves K.targets r) [i]) :
    Step K r g (g.withCode [i] g.helpers) := by
  have hlabels : (labelsOf [i]).Perm r := by
    rw [← hr]
    cases h : i.label? <;> simp [labelsOf, h]
  obtain ⟨hg, hadded⟩ := growth_withCode _ (fun _ h => h) hlabels
    (List.forall_mem_singleton.mpr hv)
  exact ⟨hg, by rw [hadded]; exact hpiece⟩

/-- The generator with one more variable in its segment. -/
def withVar (g : Generator) (v : Var) : Generator :=
  { g with segment := { g.segment with declared := g.segment.declared.push v } }

theorem mem_withVar {w : Var} :
    w ∈ (g.withVar v).segment.declared ↔ w ∈ g.segment.declared ∨ w = v := Array.mem_push

theorem nodup_withVar (hg : g.segment.declared.toList.Nodup) (hv : v ∉ g.segment.declared) :
    (g.withVar v).segment.declared.toList.Nodup := by
  show (g.segment.declared.push v).toList.Nodup
  rw [Array.toList_push]
  refine hg.append (List.nodup_singleton v) fun w hw hw' => hv ?_
  rw [← List.mem_singleton.mp hw']
  exact Array.mem_toList_iff.mp hw

/-- A variable with a new number. -/
def numbered (g : Generator) (stem : String) : Var :=
  ⟨g.segment.frame, stem ++ toString (g.temps + 1)⟩

theorem step_numbered (hstem : stem = "%t" ∨ stem = "%s") :
    Step K [] g ({ g with temps := g.temps + 1 }.withVar (g.numbered stem)) := by
  refine .of_growth (Growth.of_body (.refl _) (fun _ _ _ => rfl) rfl rfl rfl rfl (Nat.le_succ _) rfl
    (fun v h => mem_withVar.mpr (.inl h)) (fun _ hg => ?_) rfl)
  refine ⟨nodup_withVar hg.nodup fun hmem => ?_, fun v hv => ?_, fun v hv => ?_,
    fun x hx hm => mem_withVar.mpr (.inl (hg.marked x hx hm))⟩
  · rcases hg.named _ hmem with ⟨stem', hstem', m, _, hm, heq⟩ | ⟨x, hx, hname, _⟩
    · have := numbered_inj hstem hstem' heq
      omega
    · exact not_isNumbered_bareName hx (g.temps + 1)
        ⟨stem, hstem, g.temps + 1, Nat.succ_pos _, Nat.le_refl _, hname.symm⟩
  · rcases mem_withVar.mp hv with hv | rfl
    · exact hg.frame v hv
    · rfl
  · rcases mem_withVar.mp hv with hv | rfl
    · exact (hg.named v hv).imp_left fun h => h.mono (Nat.le_succ _)
    · exact .inl ⟨stem, hstem, g.temps + 1, Nat.succ_pos _, Nat.le_refl _, rfl⟩

theorem markEmitted_eq (g : Generator) (x : String) :
    g.markEmitted x = { g with table := (g.markEmitted x).table } := by
  unfold markEmitted
  cases g.function <;> rfl

/-- The first use of a variable of the program, given what marking it does to the table. -/
theorem step_marked {t : SymbolTable} (hx : IsVarName x.toList) (hfirst : g.emitted? x = some false)
    (halike : g.table.Alike t) (hmarks : ∀ scope y, t.emitted? scope y =
      if scope = g.function ∧ y = x then some true else g.table.emitted? scope y) :
    Step K [] g ({ g with table := t }.withVar ⟨g.segment.frame, bareName x⟩) := by
  have hothers : ∀ scope y, scope ≠ g.function → t.emitted? scope y = g.table.emitted? scope y := by
    intro scope y hne
    rw [hmarks, if_neg fun h => hne h.1]
  refine .of_growth (Growth.of_body halike hothers rfl rfl rfl rfl (Nat.le_refl _) rfl
    (fun v h => mem_withVar.mpr (.inl h)) (fun _ hg => ?_) rfl)
  have hnow : ∀ y, ({ g with table := t }.withVar ⟨g.segment.frame, bareName x⟩).emitted? y =
      if y = x then some true else g.emitted? y := by
    intro y
    rw [emitted?_eq, emitted?_eq]
    show t.emitted? g.function y = _
    simp [hmarks]
  refine ⟨nodup_withVar hg.nodup fun hin => ?_, fun v hv => ?_, fun v hv => ?_, fun y hy hm => ?_⟩
  · rcases hg.named _ hin with h | ⟨y, hy, hname, hm⟩
    · exact not_isNumbered_bareName hx _ h
    · obtain rfl := bareName_inj hx hy hname
      rw [hfirst] at hm
      cases hm
  · rcases mem_withVar.mp hv with hv | rfl
    · exact hg.frame v hv
    · rfl
  · rcases mem_withVar.mp hv with hv | rfl
    · refine (hg.named v hv).imp_right fun ⟨y, hy, hname, hm⟩ => ⟨y, hy, hname, ?_⟩
      rw [hnow, hm, ite_self]
    · exact .inr ⟨x, hx, rfl, by rw [hnow, if_pos rfl]⟩
  · rw [hnow] at hm
    refine mem_withVar.mpr ?_
    split at hm
    · rename_i hyx
      exact .inr (by rw [hyx]; rfl)
    · exact .inl (hg.marked y hy hm)

theorem step_variable (hscope : g.InScope) (hx : IsVarName x.toList)
    (hfirst : g.emitted? x = some false) :
    Step K [] g ((g.markEmitted x).withVar ⟨g.segment.frame, bareName x⟩) := by
  rw [markEmitted_eq]
  refine step_marked hx hfirst (alike_markEmitted hscope x) fun scope y => ?_
  rw [emitted?_markEmitted hscope]
  split
  · rename_i h
    rw [emitted?_eq] at hfirst
    rw [h.1, h.2, hfirst, Option.map_some]
  · rfl

/-! ## Steps that succeed -/

/-- The step succeeds, sets the reserved labels and others of its own, and its result has `Q`.  No
error is admitted: what analysis has accepted has code. -/
def Emits (g : Generator) (K : Context) (m : Generate α) (reserved : List Label)
    (Q : α → Generator → Prop) : Prop :=
  Meets m g (fun _ _ => False) fun a g' => Step K reserved g g' ∧ Q a g'

namespace Emits

variable {m : Generate α} {f : α → Generate β} {r : List Label} {Q : α → Generator → Prop}
  {R : β → Generator → Prop}

theorem pure {a : α} (h : Q a g) : g.Emits K (Pure.pure a) [] Q :=
  (meets_pure ..).mpr ⟨.refl g, h⟩

theorem bind (h : g.Emits K m [] Q)
    (hf : ∀ a g', Step K [] g g' → Q a g' → g'.Emits K (f a) r R) : g.Emits K (m >>= f) r R := by
  refine (meets_bind ..).mpr (Meets.imp h fun a g' ⟨hs, hq⟩ => ?_)
  exact Meets.imp (hf a g' hs hq) fun b g'' ⟨hs', hr⟩ => ⟨hs.trans hs', hr⟩

theorem get {f : Generator → Generate β} (h : g.Emits K (f g) r R) :
    g.Emits K (MonadState.get >>= f) r R := (meets_bind ..).mpr h

theorem ite {p : Prop} [Decidable p] {m' : Generate α} (ht : p → g.Emits K m r Q)
    (hf : ¬ p → g.Emits K m' r Q) : g.Emits K (if p then m else m') r Q := meets_ite ht hf

theorem of_run {a : α} {r' : List Label} (hrun : m g = .ok a g') (hs : Step K r g g')
    (hf : g'.Emits K (f a) r' R) : g.Emits K (m >>= f) (r ++ r') R := by
  refine (meets_bind ..).mpr ?_
  unfold Meets
  rw [hrun]
  exact Meets.imp hf fun b g'' ⟨hs', hr⟩ => ⟨hs.trans hs', hr⟩

theorem emit_item {f : Unit → Generate β} (hi : i.label? = none)
    (hpiece : Piece K.vocabulary g.helpers (.level K.leaves K.targets []) [i]) (hv : g.Uses i)
    (hf : ∀ g', Step K [] g g' → g'.Emits K (f ()) r R) :
    g.Emits K (Generator.emit i >>= f) r R := by
  have hs : Step K [] g (g.withCode [i] g.helpers) := step_emit hv (by rw [hi]; rfl) hpiece
  show g.Emits K (Generator.emit i >>= f) ([] ++ r) R
  exact of_run rfl hs (hf _ hs)

/-- An instruction on variables and output. -/
theorem emit {f : Unit → Generate β} (hi : i.isPlain = true) (hv : g.Uses i)
    (hf : ∀ g', Step K [] g g' → g'.Emits K (f ()) r R) : g.Emits K (Generator.emit i >>= f) r R :=
  emit_item (by cases i <;> first | rfl | cases hi) (.plain hi) hv hf

/-- A jump to one of the targets. -/
theorem jump {f : Unit → Generate β} (hi : i.jump? = some l) (hl : l ∈ K.targets) (hv : g.Uses i)
    (hf : ∀ g', Step K [] g g' → g'.Emits K (f ()) r R) : g.Emits K (Generator.emit i >>= f) r R :=
  emit_item (by cases i <;> first | rfl | cases hi) (.jump hi hl) hv hf

theorem of_step {a : α} (hrun : m g = .ok a g') (hs : Step K r g g') (hq : Q a g') :
    g.Emits K m r Q := by
  unfold Emits Meets
  rw [hrun]
  exact ⟨hs, hq⟩

theorem emit_last (hi : i.isPlain = true) (hv : g.Uses i) :
    g.Emits K (Generator.emit i) [] fun _ _ => True := by
  have hs : Step K [] g (g.withCode [i] g.helpers) :=
    step_emit hv (by cases i <;> first | rfl | cases hi) (.plain hi)
  exact of_step rfl hs trivial

theorem jump_last (hi : i.jump? = some l) (hl : l ∈ K.targets) (hv : g.Uses i) :
    g.Emits K (Generator.emit i) [] fun _ _ => True := by
  have hs : Step K [] g (g.withCode [i] g.helpers) :=
    step_emit hv (by cases i <;> first | rfl | cases hi) (.jump hi hl)
  exact of_step rfl hs trivial

theorem label_last (l : Label) : g.Emits K (Generator.emit (.label l)) [l] fun _ _ => True := by
  have hs : Step K [l] g (g.withCode [.label l] g.helpers) := step_emit (uses_none rfl) rfl .label
  exact of_step rfl hs trivial

/-- A label that was to be set. -/
theorem label {f : Unit → Generate β} (hf : ∀ g', Step K [l] g g' → g'.Emits K (f ()) r R) :
    g.Emits K (Generator.emit (.label l) >>= f) (l :: r) R := by
  have hs : Step K [l] g (g.withCode [.label l] g.helpers) := step_emit (uses_none rfl) rfl .label
  show g.Emits K (Generator.emit (.label l) >>= f) ([l] ++ r) R
  exact of_run rfl hs (hf _ hs)

/-- A number for labels that are set later in the step. -/
theorem reserve {f : Nat → Generate β}
    (hf : { g with labels := g.labels + 1 }.Emits { K with targets := r } (f (g.labels + 1)) r R)
    (hr : r.Nodup) (hsites : ∀ l ∈ r, ∃ site, l = .branch site (g.labels + 1)) :
    g.Emits K (newLabel >>= f) [] R := by
  have h : Meets (f (g.labels + 1)) { g with labels := g.labels + 1 } (fun _ _ => False)
      fun b g' => Step K [] g g' ∧ R b g' :=
    Meets.imp hf fun _ _ ⟨hs, hq⟩ => ⟨hs.release hr hsites, hq⟩
  exact (meets_bind ..).mpr h

theorem newNumbered {f : Var → Generate β} (hstem : stem = "%t" ∨ stem = "%s")
    (hf : ∀ v g', Step K [] g g' → v ∈ g'.segment.declared → g'.Emits K (f v) r R) :
    g.Emits K (Generator.newNumbered stem >>= f) r R := by
  have hs := step_numbered (K := K) (g := g) hstem
  show g.Emits K (Generator.newNumbered stem >>= f) ([] ++ r) R
  exact of_run rfl hs (hf _ _ hs (mem_withVar.mpr (.inr rfl)))

theorem newTemp {f : Var → Generate β}
    (hf : ∀ v g', Step K [] g g' → v ∈ g'.segment.declared → g'.Emits K (f v) r R) :
    g.Emits K (Generator.newTemp >>= f) r R := newNumbered (.inl rfl) hf

theorem newShadow {f : Var → Generate β}
    (hf : ∀ v g', Step K [] g g' → v ∈ g'.segment.declared → g'.Emits K (f v) r R) :
    g.Emits K (Generator.newShadow >>= f) r R := newNumbered (.inr rfl) hf

end Emits

/-- The names of a vocabulary have variables in the scope of the generator.  Analysis has put them
into the table, and the generator declares each one where it is used first. -/
structure Knows (g : Generator) (V : Vocabulary) : Prop where
  inScope : g.InScope
  tidy : g.Tidy
  var : ∀ x, V.var x → IsVarName x.toList ∧ (g.emitted? x).isSome = true

theorem Growth.knows (h : Growth r g g') (hg : g.Knows V) : g'.Knows V := by
  refine ⟨h.inScope hg.inScope, h.tidy hg.inScope hg.tidy, fun x hx => ⟨(hg.var x hx).1, ?_⟩⟩
  rw [emitted?_eq, h.function, h.table.emitted?_isSome, ← emitted?_eq]
  exact (hg.var x hx).2

/-- A variable of the program is declared by its first use at the latest. -/
theorem emits_variableOf (hg : g.Knows V) (hx : V.var x) :
    g.Emits K (variableOf x) [] fun v g' => added g g' = [] ∧
      v = ⟨g.segment.frame, bareName x⟩ ∧ v ∈ g'.segment.declared := by
  obtain ⟨hspelled, hknown⟩ := hg.var x hx
  unfold variableOf
  refine Emits.get ?_
  dsimp only
  cases hmark : g.emitted? x with
  | none => rw [hmark] at hknown; cases hknown
  | some b =>
    cases b with
    | true => exact .pure ⟨added_self g, rfl, hg.tidy.marked x hspelled hmark⟩
    | false =>
      have hs := step_variable (K := K) hg.inScope hspelled hmark
      have hbody : ((g.markEmitted x).withVar ⟨g.segment.frame, bareName x⟩).segment.body =
          g.segment.body := by
        rw [markEmitted_eq]
        rfl
      have hadded : added g ((g.markEmitted x).withVar ⟨g.segment.frame, bareName x⟩) = [] :=
        added_eq (by rw [hbody, List.append_nil])
      exact (meets_bind ..).mpr ⟨hs, hadded, rfl, mem_withVar.mpr (.inr rfl)⟩

/-! ## Conversions -/

/-- A conversion moves its result to a declared variable. -/
theorem emits_convert {routine : Routine} (hroutine : routine.isConversion = true) {dest : Var}
    (hvalue : g.Holds value) (hdest : dest ∈ g.segment.declared) :
    g.Emits K (convert routine value dest) [] fun _ _ => True := by
  have hmem : ∀ helpers : List Routine,
      (∀ r ∈ helpers, r ∈ if routine ∈ helpers then helpers else routine :: helpers) ∧
        routine ∈ if routine ∈ helpers then helpers else routine :: helpers := by
    intro helpers
    split <;> simp_all
  obtain ⟨hgrowth, hadded⟩ := growth_withCode (g := g) (r := [])
    [.push value, .createFrame, .call routine.entry] (hmem g.helpers).1 (.refl _) (by
      simp only [List.forall_mem_cons]
      exact ⟨hvalue, uses_none rfl, uses_none rfl, List.forall_mem_nil _⟩)
  have hs : Step K [] g _ := ⟨hgrowth, by rw [hadded]; exact .convert (hmem g.helpers).2 hroutine⟩
  show g.Emits K ((do
    modify fun g => { g with
      helpers := if routine ∈ g.helpers then g.helpers else routine :: g.helpers }
    emit (.push value)
    emit .createFrame
    emit (.call routine.entry)) >>= fun _ => emit (.move dest Var.returned)) ([] ++ []) _
  refine .of_run rfl hs ?_
  refine .emit_last rfl (uses_move.mpr ⟨.inl (hs.declared _ hdest), ?_⟩)
  exact holds_var.mpr (.inr (.inl rfl))

/-- A variable that is declared stays a result that can be used. -/
theorem emits_pure_var (hv : v ∈ g.segment.declared) (h : Step K [] g g') :
    g'.Emits K (Pure.pure (Operand.var v)) [] fun a g'' => g''.Holds a :=
  .pure (holds_var.mpr (.inl (h.declared v hv)))

theorem emits_normalize (hvalue : g.Holds value) (ty target : Ty) :
    g.Emits K (normalize value ty target) [] fun a g' => g'.Holds a := by
  unfold normalize
  cases value with
  | var v =>
    refine .ite (fun _ => .pure hvalue) fun _ => ?_
    refine .newShadow fun shadow g1 h1 hdecl => ?_
    have hv : g1.Holds (.var v) := h1.holds hvalue
    refine .ite (fun _ => ?_) fun _ => ?_
    · exact .emit rfl (uses_unary.mpr ⟨.inl hdecl, hv⟩) fun g2 h2 => emits_pure_var hdecl h2
    · exact .bind (emits_convert (by split <;> rfl) hv hdecl) fun _ g2 h2 _ =>
        emits_pure_var hdecl h2
  | str s => exact .pure hvalue
  | _ => exact .pure (by split <;> exact holds_immediate rfl)

theorem emits_asNumber (hvalue : g.Holds value) (ty : Ty) :
    g.Emits K (asNumber value ty) [] fun a g' => g'.Holds a := by
  unfold asNumber
  cases value with
  | var v =>
    refine .ite (fun _ => .pure hvalue) fun _ => ?_
    refine .newShadow fun shadow g1 h1 hdecl => ?_
    exact .bind (emits_convert rfl (h1.holds hvalue) hdecl) fun _ g2 h2 _ => emits_pure_var hdecl h2
  | _ => exact .pure (holds_immediate rfl)

theorem emits_asText (hvalue : g.Holds value) (ty : Ty) :
    g.Emits K (asText value ty) [] fun a g' => g'.Holds a := by
  unfold asText
  cases value with
  | var v =>
    refine .ite (fun _ => .pure hvalue) fun _ => ?_
    refine .newShadow fun shadow g1 h1 hdecl => ?_
    exact .bind (emits_convert rfl (h1.holds hvalue) hdecl) fun _ g2 h2 _ => emits_pure_var hdecl h2
  | _ => exact .pure (holds_immediate rfl)

theorem emits_asTruth (hvalue : g.Holds value) (ty : Ty) :
    g.Emits K (asTruth value ty) [] fun a g' => g'.Holds a := by
  unfold asTruth
  cases immediateTruth? value with
  | some b => exact .pure (holds_immediate rfl)
  | none =>
    refine .newTemp fun t g1 h1 hdecl => ?_
    refine .ite (fun _ => ?_) fun _ => ?_
    · refine .emit rfl (uses_binary.mpr ⟨.inl hdecl, h1.holds hvalue, holds_immediate rfl⟩)
        fun g2 h2 => ?_
      have ht : g2.Has t := .inl (h2.declared _ hdecl)
      exact .emit rfl (uses_unary.mpr ⟨ht, holds_var.mpr ht⟩) fun g3 h3 =>
        emits_pure_var hdecl (h2.trans h3)
    · exact .bind (emits_convert rfl (h1.holds hvalue) hdecl) fun _ g2 h2 _ =>
        emits_pure_var hdecl h2

theorem emits_truthAsInt {cond : Operand} (hcond : g.Holds cond) :
    g.Emits K (truthAsInt cond) [] fun a g' => g'.Holds a := by
  unfold truthAsInt
  have hlong : g.Emits K (do
      let n ← newLabel
      let t ← newTemp
      emit (.move t (.int 0))
      emit (.jumpIfEq (.branch .bool n) cond (.bool false))
      emit (.move t (.int 1))
      emit (.label (.branch .bool n))
      pure (Operand.var t)) [] fun a g' => g'.Holds a := by
    refine .reserve (r := [.branch .bool (g.labels + 1)]) ?_ (by simp) (by simp)
    refine .newTemp fun t g1 h1 hdecl => ?_
    have hcond1 : g1.Holds cond := h1.holds hcond
    refine .emit rfl (uses_move.mpr ⟨.inl hdecl, holds_immediate rfl⟩) fun g2 h2 => ?_
    refine .jump rfl (by simp) (uses_jumpIfEq.mpr ⟨h2.holds hcond1, holds_immediate rfl⟩)
      fun g3 h3 => ?_
    have ht : t ∈ g3.segment.declared := h3.declared _ (h2.declared _ hdecl)
    refine .emit rfl (uses_move.mpr ⟨.inl ht, holds_immediate rfl⟩) fun g4 h4 => ?_
    exact .label fun g5 h5 => .pure (holds_var.mpr (.inl (h5.declared _ (h4.declared _ ht))))
  cases cond with
  | bool b => exact .pure (holds_immediate rfl)
  | _ => exact hlong

end Generator

end Ifj22.Code
