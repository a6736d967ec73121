import Ifj22.Proofs.Analysis
import Ifj22.Proofs.Code.Generated
import Ifj22.Proofs.Tree.Limit
set_option autoImplicit false

/-!
# Code: the listing of a program

The statements of a program are generated one after the other.  A function is generated into a
segment of its own, with its parameters first; it adds nothing to the main segment.
-/

namespace Ifj22

variable {t : SymbolTable} {name : String} {params : List Param} {body : List Stmt}
  {declared : Option Ty}

namespace Code.Generator

variable {limit : Nat} {g g' : Generator}

/-- The names of a scope that the table knows, as they are spelled, with no more arguments than the
limit. -/
def names (t : SymbolTable) (limit : Nat) (scope : Option String) : Vocabulary :=
  (Vocabulary.spelled.inter (t.vocabulary scope)).inter (.upTo limit)

/-! ## Functions -/

/-- The instruction that takes a parameter of a function from the stack. -/
def popOf (p : Param) : Instr := .pop ⟨.lf, bareName p.name⟩

/-- The instructions that take the parameters of a function from the stack. -/
def pops (params : List Param) : List Instr := params.reverse.map popOf

/-- The generator at the start of a function. -/
def enter (g : Generator) (name : String) : Generator :=
  { g with segment := .empty .lf, function := some name }

/-- The generator behind a function, given the one at the end of its body. -/
def leave (g : Generator) (name : String) (params : List Param) (g' : Generator) : Generator :=
  { g' with
    function := none
    segment := g.segment
    functions := g'.functions.push (functionCode name (pops params) g'.segment) }

theorem emits_pops {V : Vocabulary} {K : Context} : ∀ (params : List Param) (g : Generator),
    g.Knows V → (∀ p ∈ params, V.var p.name) →
    g.Emits K (params.mapM fun p => do
      let v ← variableOf p.name
      pure (Instr.pop v)) [] fun pops g' => added g g' = [] ∧
        pops = params.map (fun p => .pop ⟨g.segment.frame, bareName p.name⟩) ∧
          ∀ p ∈ params, (⟨g.segment.frame, bareName p.name⟩ : Var) ∈ g'.segment.declared
  | [], g, _, _ => .pure ⟨added_self g, rfl, by simp⟩
  | p :: params, g, hg, hp => by
    rw [List.mapM_cons]
    refine .bind (Q := fun i g' => added g g' = [] ∧ i = .pop ⟨g.segment.frame, bareName p.name⟩ ∧
      (⟨g.segment.frame, bareName p.name⟩ : Var) ∈ g'.segment.declared) ?_ fun i g1 h1 hi => ?_
    · refine .bind (emits_variableOf hg (hp p (.head _))) fun v g1 _ hv => .pure ?_
      exact ⟨hv.1, congrArg Instr.pop hv.2.1, hv.2.1 ▸ hv.2.2⟩
    · have hrest := emits_pops (K := K) params g1 (h1.knows hg) fun q hq => hp q (.tail p hq)
      refine .bind hrest fun pops g2 h2 hpops => .pure ⟨?_, ?_, fun q hq => ?_⟩
      · rw [h1.added_trans h2.toGrowth, hi.1, hpops.1, List.append_nil]
      · rw [hi.2.1, hpops.2.1, h1.frame, List.map_cons]
      · rcases List.mem_cons.mp hq with rfl | hq
        · exact h2.declared _ hi.2.2
        · rw [← h1.frame]
          exact hpops.2.2 q hq

/-- How the body of a function is generated: from a generator that has declared its parameters. -/
structure FunctionRun (t : SymbolTable) (limit : Nat) (name : String) (params : List Param)
    (body : List Stmt) (g g' : Generator) : Prop where
  run : Stmt.codes body g = .ok () g'
  step : Step ⟨names t limit (some name), true, []⟩ [] g g'
  knows : g.Knows (names t limit (some name))
  function : g.function = some name
  frame : g.segment.frame = .lf
  empty : g.segment.body = #[]
  table : t.Alike g.table
  params : ∀ p ∈ params, (⟨.lf, bareName p.name⟩ : Var) ∈ g.segment.declared

theorem FunctionRun.added_eq (h : FunctionRun t limit name params body g g') :
    added g g' = g'.segment.body.toList := by
  rw [h.step.body, h.empty]
  rfl

/-- A function between the statements of a program. -/
theorem meets_functionWith (htable : t.Alike g.table)
    (hg : (g.enter name).Knows (names t limit (some name)))
    (hp : ∀ p ∈ params, (names t limit (some name)).var p.name)
    (hbody : ∀ s ∈ body, s.Over (names t limit (some name))) :
    Meets (functionWith (fun _ => Stmt.codes body) name params 0) g (fun _ _ => False)
      fun _ g' => ∃ g1 g2, Step ⟨names t limit (some name), true, []⟩ [] (g.enter name) g1 ∧
        FunctionRun t limit name params body g1 g2 ∧ g' = g.leave name params g2 := by
  have hpops := emits_pops (K := ⟨names t limit (some name), true, []⟩) params.reverse
    (g.enter name) hg fun p h => hp p (List.mem_reverse.mp h)
  unfold functionWith
  rw [meets_bind, meets_get, meets_bind, meets_modify, meets_bind]
  refine Meets.imp hpops ?_
  rintro instrs g1 ⟨hs1, hadded, hinstrs, hdecl⟩
  rw [meets_bind]
  have hcodes : g1.Emits ⟨names t limit (some name), true, []⟩ (Stmt.codes body) [] fun _ _ => True :=
    emits_codes (fun s hs => emits_stmt (hbody s hs)) g1 (hs1.knows hg)
  refine Meets.intro (fun _ g2 hrun => ?_) fun e g2 hrun => hcodes.of_error hrun
  have hempty : g1.segment.body = #[] := by
    have := hs1.body
    rw [hadded] at this
    simpa [Generator.enter, Segment.empty] using this
  refine ⟨g1, g2, hs1, ⟨hrun, (hcodes.of_ok hrun).1, hs1.knows hg, hs1.function, hs1.frame, hempty,
    htable.trans hs1.table, fun p h => hdecl p (List.mem_reverse.mpr h)⟩, ?_⟩
  rw [hinstrs]
  rfl

/-! ## Between the statements of a program -/

/-- The functions that are defined in a list of statements. -/
def functionNames (body : List Stmt) : List String := body.filterMap Stmt.functionName?

/-- The code of a function that is done. -/
def Codes (t : SymbolTable) (limit : Nat) (helpers : List Routine) (s : Stmt)
    (code : List Instr) : Prop :=
  ∃ name params declared body g1 g2, s = .function name params declared body ∧
    FunctionRun t limit name params body g1 g2 ∧ (∀ r ∈ g2.helpers, r ∈ helpers) ∧
    code = functionCode name (pops params) g2.segment

/-- Where the generator stands between the statements of a program: the functions behind it are
generated, and of the functions that are still to come nothing is marked. -/
structure Top (t : SymbolTable) (limit : Nat) (done : List Stmt) (coming : List String)
    (g : Generator) : Prop where
  function : g.function = none
  frame : g.segment.frame = .gf
  table : t.Alike g.table
  tidy : g.Tidy
  coming : ∀ f ∈ coming, ∀ x, g.table.emitted? (some f) x ≠ some true
  piece : Piece (names t limit none) g.helpers (.level true [] []) g.segment.body.toList
  uses : ∀ i ∈ g.segment.body.toList, g.Uses i
  numbered : Numbered ((functionNames done).map .entry) 0 g.labels
    (g.segment.body.toList ++ g.functions.toList.flatten)
  functions : List.Forall₂ (Codes t limit g.helpers) (done.filter (·.functionName?.isSome))
    g.functions.toList

/-- The table holds a function of the program under the name, with so many parameters. -/
def Declares (t : SymbolTable) (name : String) (arity : Nat) : Prop :=
  ∃ s, t.find? name = some s ∧ s.isFunction = true ∧ s.builtin = false ∧ s.arity = arity

/-- What the generator asks of a program: every name is known in its scope. -/
def lexicon (t : SymbolTable) (limit : Nat) : Lexicon where
  toplevel := names t limit none
  head name params _ := IsName name.toList ∧ Declares t name params.length ∧
    (params.map (·.name)).Nodup ∧ ∀ p ∈ params, (names t limit (some name)).var p.name
  inside function := names t limit (some function)

namespace Top

variable {t : SymbolTable} {done : List Stmt} {coming : List String} {name : String}

theorem knows (h : Top t limit done coming g) : g.Knows (names t limit none) := by
  refine ⟨fun f hf => ?_, h.tidy, fun x hx => ⟨hx.1.1, ?_⟩⟩
  · rw [h.function] at hf
    cases hf
  · rw [emitted?_eq, h.function, h.table.emitted?_isSome, SymbolTable.emitted?_isSome_iff]
    exact hx.1.2

/-- A statement that is no function. -/
theorem step {s : Stmt} (hs : Step ⟨names t limit none, true, []⟩ [] g g')
    (h : Top t limit done coming g) (hname : s.functionName? = none) :
    Top t limit (done ++ [s]) coming g' where
  function := hs.function.trans h.function
  frame := hs.frame.trans h.frame
  table := h.table.trans hs.table
  tidy := (hs.knows h.knows).tidy
  coming f hf x := by
    rw [hs.others (some f) x (by rw [h.function]; exact Option.some_ne_none f)]
    exact h.coming f hf x
  piece := by
    rw [hs.body]
    exact .append (h.piece.mono hs.helpers) hs.piece
  uses i hi := by
    rw [hs.body] at hi
    rcases List.mem_append.mp hi with hi | hi
    · exact fun v hv => hs.has (h.uses i hi v hv)
    · exact hs.uses i hi
  numbered := by
    have hboth := h.numbered.append hs.numbered (Nat.zero_le _) hs.labels
    have hnames : functionNames (done ++ [s]) = functionNames done := by
      simp [functionNames, hname]
    rw [hnames, hs.body, hs.functions]
    refine Numbered.perm ?_ (List.append_nil (List.map Label.entry (functionNames done)) ▸ hboth)
    rw [List.append_assoc, List.append_assoc]
    exact List.perm_append_comm.append_left _
  functions := by
    rw [hs.functions, List.filter_append, List.filter_cons_of_neg (by simp [hname]),
      List.filter_nil, List.append_nil]
    refine h.functions.imp ?_
    rintro _ _ ⟨name, params, declared, body, g1, g2, rfl, hrun, hhelpers, hcode⟩
    exact ⟨name, params, declared, body, g1, g2, rfl, hrun, fun r hr => hs.helpers r (hhelpers r hr),
      hcode⟩

/-- At the start of a function that is still to come, its names are known. -/
theorem enter (h : Top t limit done coming g) (hname : name ∈ coming)
    {arity : Nat} (hfun : Declares t name arity) :
    (g.enter name).Knows (names t limit (some name)) := by
  refine ⟨fun f hf => ?_, ⟨.nil, by simp [Generator.enter, Segment.empty],
    by simp [Generator.enter, Segment.empty], fun x _ hmark => ?_⟩, fun x hx => ⟨hx.1.1, ?_⟩⟩
  · obtain rfl : name = f := Option.some.inj hf
    obtain ⟨s, hs, hsfun, _⟩ := hfun
    show (g.table.find? name).map (·.isFunction) = some true
    rw [h.table.isFunction_eq, hs, Option.map_some, hsfun]
  · rw [emitted?_eq] at hmark
    exact absurd hmark (h.coming name hname x)
  · rw [emitted?_eq]
    show (g.table.emitted? (some name) x).isSome = true
    rw [h.table.emitted?_isSome, SymbolTable.emitted?_isSome_iff]
    exact hx.1.2

/-- The labels of a function are its name and those of its body. -/
theorem labelsOf_functionCode (name : String) (params : List Param) (segment : Segment) :
    labelsOf (functionCode name (pops params) segment) =
      .entry name :: labelsOf segment.body.toList := by
  have hdecls : labelsOf segment.declarations = [] := by
    unfold labelsOf Segment.declarations
    rw [List.filterMap_map]
    exact List.filterMap_eq_nil_iff.mpr fun _ _ => rfl
  have hpops : labelsOf (pops params) = [] := by
    unfold labelsOf pops
    rw [List.filterMap_map]
    exact List.filterMap_eq_nil_iff.mpr fun _ _ => rfl
  have hhead : labelsOf [.label (.entry name), .pushFrame, .defVar Var.result,
      .move Var.result .nil] = [.entry name] := rfl
  have hlast : labelsOf [.popFrame, .ret] = [] := rfl
  unfold functionCode
  simp only [labelsOf_append, hhead, hdecls, hpops, hlast, List.append_nil, List.singleton_append]

/-- A function that is done joins the others; the main body goes on as it was. -/
theorem leave {g1 g2 : Generator} (h : Top t limit done (name :: coming) g) (hnew : name ∉ coming)
    (hs : Step ⟨names t limit (some name), true, []⟩ [] (g.enter name) g1)
    (hrun : FunctionRun t limit name params body g1 g2) :
    Top t limit (done ++ [.function name params declared body]) coming (g.leave name params g2) := by
  have hgrow := hs.toGrowth.trans hrun.step.toGrowth
  have hmarks : ∀ x, (g.leave name params g2).emitted? x = g.emitted? x := by
    intro x
    rw [emitted?_eq, emitted?_eq, h.function]
    exact hgrow.others none x (Option.some_ne_none name).symm
  have hfunctions : g2.functions = g.functions := hgrow.functions
  refine ⟨rfl, h.frame, h.table.trans hgrow.table, ⟨h.tidy.nodup, h.tidy.frame, fun v hv => ?_,
    fun x hx hmark => ?_⟩, fun f hf x => ?_, h.piece.mono hgrow.helpers, fun i hi v hv => ?_, ?_, ?_⟩
  · refine (h.tidy.named v hv).imp (fun hn => hn.mono hgrow.temps) ?_
    rintro ⟨x, hx, hname, hmark⟩
    exact ⟨x, hx, hname, by rw [hmarks, hmark]⟩
  · rw [hmarks] at hmark
    exact h.tidy.marked x hx hmark
  · show g2.table.emitted? (some f) x ≠ some true
    rw [hgrow.others (some f) x fun heq => hnew (Option.some.inj heq ▸ hf)]
    exact h.coming f (.tail name hf) x
  · rcases h.uses i hi v hv with hv | hv | ⟨_, hf⟩
    · exact .inl hv
    · exact .inr (.inl hv)
    · rw [h.function] at hf
      cases hf
  · show Numbered _ 0 g2.labels (g.segment.body.toList ++ (g2.functions.push _).toList.flatten)
    have hbody : Numbered [] g.labels g2.labels g2.segment.body.toList := by
      have hn := hrun.step.numbered
      rw [hrun.added_eq] at hn
      exact hn.mono_left hs.labels
    have hcode : Numbered [.entry name] g.labels g2.labels
        (functionCode name (pops params) g2.segment) :=
      hbody.entry (labelsOf_functionCode name params g2.segment)
    -- its labels are numbered on from those of the code before it
    have hboth := h.numbered.append hcode (Nat.zero_le _) hgrow.labels
    have hnames : functionNames (done ++ [.function name params declared body]) =
        functionNames done ++ [name] := by
      simp [functionNames, Stmt.functionName?]
    rw [hnames, hfunctions, Array.toList_push, List.flatten_append, List.flatten_singleton,
      List.map_append, ← List.append_assoc]
    exact hboth
  · show List.Forall₂ (Codes t limit g2.helpers) _ (g2.functions.push _).toList
    rw [hfunctions, Array.toList_push, List.filter_append]
    refine List.rel_append (h.functions.imp ?_) (.cons ?_ .nil)
    · rintro _ _ ⟨name, params, declared, body, g₁', g₂', rfl, hrun', hhelpers, hcode⟩
      exact ⟨name, params, declared, body, g₁', g₂', rfl, hrun',
        fun r hr => hgrow.helpers r (hhelpers r hr), hcode⟩
    · exact ⟨name, params, declared, body, g1, g2, rfl, hrun, fun _ h => h, rfl⟩

/-- The generator before the first instruction, for a table without marks. -/
theorem start (ht : t.Unmarked) (coming : List String) : Top t limit [] coming (start t) where
  function := rfl
  frame := rfl
  table := .refl t
  tidy := by
    refine ⟨.nil, by simp [Generator.start, Segment.empty], by simp [Generator.start, Segment.empty],
      ?_⟩
    intro x _ hmark
    rw [emitted?_eq] at hmark
    exact absurd hmark (ht _ x)
  coming f _ x := ht (some f) x
  piece := .nil
  uses := List.forall_mem_nil _
  numbered := .nil 0
  functions := .nil

end Top

section

variable {t : SymbolTable} {done : List Stmt}

/-- What becomes of the generator over a statement of a program. -/
inductive Passes (t : SymbolTable) (limit : Nat) (g : Generator) : Stmt → Generator → Prop
  | stmt {s : Stmt} {g' : Generator} (h : s.Over (names t limit none)) (hrun : s.code g = .ok () g')
    (hs : Step ⟨names t limit none, true, []⟩ [] g g') : Passes t limit g s g'
  | function {name : String} {params : List Param} {declared : Option Ty} {body : List Stmt}
    {g1 g2 : Generator} (hs : Step ⟨names t limit (some name), true, []⟩ [] (g.enter name) g1)
    (hrun : FunctionRun t limit name params body g1 g2) :
    Passes t limit g (.function name params declared body) (g.leave name params g2)

/-- A statement of a program never fails. -/
theorem meets_stmt {s : Stmt} {rest : List Stmt} (hover : s.OverTop (lexicon t limit))
    (hnodup : (functionNames (s :: rest)).Nodup)
    (hg : Top t limit done (functionNames (s :: rest)) g) :
    Meets s.code g (fun _ _ => False) fun _ g' =>
      Passes t limit g s g' ∧ Top t limit (done ++ [s]) (functionNames rest) g' := by
  cases hover with
  | stmt hs =>
    have hname : s.functionName? = none := by cases hs <;> rfl
    have hnames : functionNames (s :: rest) = functionNames rest :=
      List.filterMap_cons_none hname
    rw [hnames] at hg
    have hemits : g.Emits ⟨names t limit none, true, []⟩ s.code [] fun _ _ => True :=
      emits_stmt hs g hg.knows
    refine Meets.intro (fun _ g' hrun => ?_) fun e g' hrun => hemits.of_error hrun
    have hstep := (hemits.of_ok hrun).1
    exact ⟨.stmt hs hrun hstep, hg.step hstep hname⟩
  | @function name params declared body hh hb =>
    have hnames : functionNames (Stmt.function name params declared body :: rest) =
        name :: functionNames rest := rfl
    rw [hnames] at hnodup hg
    obtain ⟨hnew, _⟩ := List.nodup_cons.mp hnodup
    rw [Stmt.code]
    refine Meets.imp
      (meets_functionWith hg.table (hg.enter (.head _) hh.2.1) hh.2.2.2 hb) ?_
    rintro _ g' ⟨g1, g2, hs, hrun, rfl⟩
    exact ⟨.function hs hrun, hg.leave hnew hs hrun⟩

/-- Between the statements of a program the generator always stands at the top level, and no
statement fails. -/
theorem meets_codes : ∀ (body done : List Stmt) (g : Generator),
    (∀ s ∈ body, s.OverTop (lexicon t limit)) → (functionNames body).Nodup →
    Top t limit done (functionNames body) g →
    Meets (Stmt.codes body) g (fun _ _ => False) fun _ g' => Top t limit (done ++ body) [] g'
  | [], done, g, _, _, hg => by
    rw [Stmt.codes, List.append_nil]
    exact hg
  | s :: rest, done, g, hover, hnodup, hg => by
    rw [Stmt.codes, meets_bind]
    refine Meets.imp (meets_stmt (hover s (.head _)) hnodup hg) ?_
    rintro _ g1 ⟨_, hg1⟩
    have hrest : (functionNames rest).Nodup := by
      unfold functionNames at hnodup ⊢
      exact hnodup.sublist ((List.sublist_cons_self s rest).filterMap _)
    rw [← List.singleton_append, ← List.append_assoc]
    exact meets_codes rest _ g1 (fun u hu => hover u (.tail s hu)) hrest hg1

end

/-- What code generation starts from: statements over the names of a table in which nothing is marked
and that knows the functions of the statements and those of the language. -/
structure Ready (t : SymbolTable) (limit : Nat) (body : List Stmt) : Prop where
  unmarked : t.Unmarked
  overTop : ∀ s ∈ body, s.OverTop (lexicon t limit)
  nodup : (functionNames body).Nodup
  fresh : ∀ b ∈ SymbolTable.builtinList, b.name ∉ functionNames body
  functions : ∀ {name s}, t.find? name = some s → s.isFunction = true →
    name ∈ functionNames body ∨
      s.builtin = true ∧ ∃ b ∈ SymbolTable.builtinList, b.name = name ∧ s.arity = b.arity

/-- The generator at the end of a program. -/
structure Generated (t : SymbolTable) (limit : Nat) (body : List Stmt) (g : Generator) :
    Prop where
  ready : Ready t limit body
  run : Stmt.codes body (start t) = .ok () g
  top : Top t limit body [] g

/-- The generator with the end of the program. -/
def finish (g : Generator) : Generator := g.withCode [.exit (.int 0)] g.helpers

/-- Statements whose names an unmarked table knows have code. -/
theorem Ready.generated (h : Ready t limit body) :
    ∃ g, Generated t limit body g ∧ Stmt.listing body (start t) = .ok g.finish.listing g.finish := by
  have hmeets := meets_codes body [] _ h.overTop h.nodup (Top.start h.unmarked _)
  cases hrun : Stmt.codes body (start t) with
  | error e g => exact (hmeets.of_error hrun).elim
  | ok _ g =>
    refine ⟨g, ⟨h, hrun, hmeets.of_ok hrun⟩, ?_⟩
    unfold Stmt.listing
    simp only [Bind.bind, EStateM.bind, hrun]
    rfl

end Code.Generator

/-! ## Analyzed programs -/

namespace Checked.Sound

open Code.Generator

variable {checked : Checked} {body : List Stmt} {limit : Nat}

theorem unmarked (h : checked.Sound body) : checked.table.Unmarked := by
  obtain ⟨t, hoists, hgrows⟩ := h.grown
  exact hgrows.unmarked hoists.unmarked

/-- The parameters of a function are variables in its scope. -/
theorem param (h : checked.Sound body) {b : List Stmt}
    (hmem : Stmt.function name params declared b ∈ body) {p : Param} (hp : p ∈ params) :
    ∃ s, checked.table.local? name p.name = some s := by
  obtain ⟨t, hoists, hgrows⟩ := h.grown
  have hlocal := (hoists.head name params declared b hmem).locals p.name
  cases hfind : params.find? (·.name == p.name) with
  | none => exact absurd (List.find?_eq_none.mp hfind p hp) (by simp)
  | some q =>
    rw [hfind] at hlocal
    obtain ⟨s, hs, _⟩ := Option.map_eq_some_iff.mp hlocal
    obtain ⟨s', hs', _⟩ := hgrows.local? hs
    exact ⟨s', hs'⟩

/-- The functions of a program are declared with their parameters. -/
theorem declares (h : checked.Sound body) {b : List Stmt}
    (hmem : Stmt.function name params declared b ∈ body) :
    Declares checked.table name params.length ∧ (params.map (·.name)).Nodup := by
  obtain ⟨t, hoists, hgrows⟩ := h.grown
  have hhead := hoists.head name params declared b hmem
  obtain ⟨s, hs, hfun, hbuiltin, _, _, harity⟩ := hhead.symbol
  obtain ⟨s', hs', hg⟩ := hgrows.symbols hs
  exact ⟨⟨s', hs', hg.isFunction.trans hfun, hg.builtin.trans hbuiltin, hg.arity.trans harity⟩,
    hhead.nodup⟩

/-- Every name of an analyzed program is known in its scope. -/
theorem overTop (h : checked.Sound body) (hlimit : checked.program.arena.size ≤ 2 * (limit + 1)) :
    ∀ s ∈ body, s.OverTop (lexicon checked.table limit) := by
  intro s hs
  have hshort := h.holds.overTop_upTo h.spelled hlimit s hs
  have hspelled := h.spelled s hs
  cases h.known s hs with
  | stmt hknown =>
    cases hspelled with
    | function => cases hknown
    | stmt hspelled =>
      cases hshort with
      | function => cases hknown
      | stmt hshort => exact .stmt ((hspelled.inter hknown).inter hshort)
  | @function name params declared b hh hb =>
    cases hspelled with
    | stmt hspelled => cases hspelled
    | function hhead hbody =>
      cases hshort with
      | stmt hshort => cases hshort
      | function _ hshort =>
        obtain ⟨hdeclares, hnodup⟩ := h.declares hs
        refine .function ⟨hhead.1, hdeclares, hnodup, fun p hp =>
          ⟨⟨(hhead.2.1 p hp).1, h.param hs hp⟩, trivial⟩⟩ fun u hu => ?_
        exact ((hbody u hu).inter (hb u hu)).inter (hshort u hu)

/-- The functions that an analyzed program knows are its own and those of the language. -/
theorem functions (h : checked.Sound body) {s : Symbol (Option LocalTable)}
    (hs : checked.table.find? name = some s) (hfun : s.isFunction = true) :
    name ∈ functionNames body ∨
      s.builtin = true ∧ ∃ b ∈ SymbolTable.builtinList, b.name = name ∧ s.arity = b.arity := by
  obtain ⟨t, hoists, hgrows⟩ := h.grown
  obtain ⟨s0, hs0⟩ := hgrows.functions hs hfun
  obtain ⟨s1, hs1, hg⟩ := hgrows.symbols hs0
  cases hs1.symm.trans hs
  by_cases hmem : name ∈ functionNames body
  · exact .inl hmem
  · rw [hoists.others name hmem] at hs0
    obtain ⟨b, hb, rfl⟩ := List.mem_map.mp (List.mem_of_find?_eq_some hs0)
    exact .inr ⟨hg.builtin, b, hb, Table.find?_name hs0, hg.arity⟩

theorem fresh (h : checked.Sound body) : ∀ b ∈ SymbolTable.builtinList,
    b.name ∉ functionNames body := by
  intro b hb hmem
  obtain ⟨t, hoists, _⟩ := h.grown
  have hnone := hoists.fresh b.name hmem
  rw [Table.find?_eq_none_iff] at hnone
  refine hnone (List.mem_map.mpr ⟨b.symbol, List.mem_map_of_mem hb, rfl⟩)

/-- Code generation can start from an analyzed program. -/
theorem ready (h : checked.Sound body) (hlimit : checked.program.arena.size ≤ 2 * (limit + 1)) :
    Ready checked.table limit body where
  unmarked := h.unmarked
  overTop := h.overTop hlimit
  nodup := by
    obtain ⟨t, hoists, _⟩ := h.grown
    exact hoists.nodup
  fresh := h.fresh
  functions := h.functions

end Checked.Sound

end Ifj22
