import Ifj22.Proofs.Code.Listing
import Ifj22.Proofs.Simplify.Names
set_option autoImplicit false

/-!
# Compile: compilation ends in code or in a fault of the text

An analyzed program has code, before and after simplification, so compilation fails only where
analysis fails, and analysis fails only for a fault of the source text.
-/

namespace Ifj22

open Code.Generator

variable {limit : Nat} {body : List Stmt} {listing : Code.Listing}

/-- A program that holds a tree ready for code generation has code. -/
theorem Checked.generate_of_ready {checked : Checked} (hholds : checked.program.Holds body)
    (hready : Ready checked.table limit body) :
    ∃ g, Generated checked.table limit body g ∧ checked.generate = .ok g.finish.listing := by
  obtain ⟨g, hgenerated, hrun⟩ := hready.generated
  refine ⟨g, hgenerated, ?_⟩
  have hprogram : (Code.Generator.program checked.program).run (.start checked.table) =
      .ok g.finish.listing g.finish := by
    rw [hholds.program_eq]
    exact hrun
  unfold Checked.generate
  rw [hprogram]

/-- A simplified program has the functions of the program, and its names are among the old ones. -/
theorem Code.Generator.Ready.simplifies {t : SymbolTable} {body' : List Stmt}
    (h : Ready t limit body) (hs : Simplifies body body') : Ready t limit body' := by
  have hnames : functionNames body' = functionNames body := hs.functionNames
  exact ⟨h.unmarked, hs.overTop h.overTop, hnames ▸ h.nodup, hnames ▸ h.fresh,
    fun hs hfun => hnames ▸ h.functions hs hfun⟩

/-- What analysis makes of a text, with or without simplification: a fault of the text, or a program
that has code. -/
theorem analyze_generated (simplify : Bool) (source : String) :
    match analyze simplify source with
    | .ok checked => ∃ body g, checked.program.tree? = some body ∧
        Generated checked.table source.length body g ∧ checked.generate = .ok g.finish.listing
    | .error e => ¬ e.Internal := by
  have hsound := analyze_sound source
  cases simplify with
  | false =>
    cases hanalyze : analyze false source with
    | error e =>
      rw [hanalyze] at hsound
      exact hsound
    | ok checked =>
      rw [hanalyze] at hsound
      obtain ⟨hsize, body, hbody⟩ := hsound
      obtain ⟨g, hg⟩ := checked.generate_of_ready hbody.holds (hbody.ready hsize)
      exact ⟨body, g, hbody.holds.tree?_eq, hg⟩
  | true =>
    rw [analyze_true]
    cases hanalyze : analyze false source with
    | error e =>
      rw [hanalyze] at hsound
      exact hsound
    | ok checked =>
      rw [hanalyze] at hsound
      obtain ⟨hsize, body, hbody⟩ := hsound
      obtain ⟨body', hholds, hsimplifies⟩ := hbody.holds.simplify
      let checked' : Checked := { checked with program := checked.program.simplify }
      obtain ⟨g, hg⟩ := checked'.generate_of_ready hholds ((hbody.ready hsize).simplifies hsimplifies)
      exact ⟨body', g, hholds.tree?_eq, hg⟩

theorem analyze_generates (simplify : Bool) (source : String) :
    match analyze simplify source with
    | .ok checked => ∃ listing, checked.generate = .ok listing
    | .error e => ¬ e.Internal := by
  have hgenerated := analyze_generated simplify source
  cases hanalyze : analyze simplify source with
  | error e =>
    rw [hanalyze] at hgenerated
    exact hgenerated
  | ok checked =>
    rw [hanalyze] at hgenerated
    obtain ⟨_, g, _, _, hlisting⟩ := hgenerated
    exact ⟨_, hlisting⟩

/-- A listing comes from the tree that analysis leaves. -/
theorem tree_of_compile {simplify : Bool} {source : String}
    (h : compile simplify source = .ok listing) :
    ∃ checked body g, analyze simplify source = .ok checked ∧ checked.program.tree? = some body ∧
      Generated checked.table source.length body g ∧ listing = g.finish.listing := by
  have hgenerated := analyze_generated simplify source
  unfold compile at h
  cases hanalyze : analyze simplify source with
  | error e =>
    rw [hanalyze] at h
    cases h
  | ok checked =>
    rw [hanalyze] at h hgenerated
    obtain ⟨body, g, htree, hg, hlisting⟩ := hgenerated
    exact ⟨checked, body, g, rfl, htree, hg, Except.ok.inj (h.symm.trans hlisting)⟩

/-- A listing comes from a program that was ready for code generation. -/
theorem generated_of_compile {simplify : Bool} {source : String}
    (h : compile simplify source = .ok listing) :
    ∃ t body g, Generated t source.length body g ∧ listing = g.finish.listing := by
  obtain ⟨checked, body, g, _, _, hg, hlisting⟩ := tree_of_compile h
  exact ⟨checked.table, body, g, hg, hlisting⟩

/-- Compilation ends as analysis does. -/
theorem compile_eq_analyze (simplify : Bool) (source : String) :
    match analyze simplify source with
    | .ok _ => ∃ listing, compile simplify source = .ok listing
    | .error e => compile simplify source = .error e := by
  have hgenerates := analyze_generates simplify source
  unfold compile
  cases hanalyze : analyze simplify source with
  | error e => rfl
  | ok checked =>
    rw [hanalyze] at hgenerates
    exact hgenerates

/-- No text makes compilation fail for a fault of the compiler: every program that analysis accepts
has code, and simplification decides neither whether compilation succeeds nor how it fails. -/
theorem compile_fault_of_text (source : String) :
    (∀ simplify e, compile simplify source = .error e → ¬ e.Internal) ∧
    (∀ simplify checked, analyze simplify source = .ok checked →
      ∃ listing, checked.generate = .ok listing) ∧
    ((∃ listing listing', compile true source = .ok listing ∧
        compile false source = .ok listing') ∨
      ∃ e, compile true source = .error e ∧ compile false source = .error e) := by
  refine ⟨?_, ?_, ?_⟩
  · intro simplify e he
    have hcompile := compile_eq_analyze simplify source
    have hgenerates := analyze_generates simplify source
    cases hanalyze : analyze simplify source with
    | ok checked =>
      rw [hanalyze] at hcompile
      obtain ⟨listing, hlisting⟩ := hcompile
      exact absurd (he.symm.trans hlisting) (by rintro ⟨⟩)
    | error e' =>
      rw [hanalyze] at hcompile hgenerates
      cases he.symm.trans hcompile
      exact hgenerates
  · intro simplify checked hchecked
    have hgenerates := analyze_generates simplify source
    rw [hchecked] at hgenerates
    exact hgenerates
  · have htrue := compile_eq_analyze true source
    have hfalse := compile_eq_analyze false source
    rw [analyze_true] at htrue
    cases hanalyze : analyze false source with
    | ok checked =>
      rw [hanalyze] at htrue hfalse
      obtain ⟨listing, hlisting⟩ := htrue
      obtain ⟨listing', hlisting'⟩ := hfalse
      exact .inl ⟨listing, listing', hlisting, hlisting'⟩
    | error e =>
      rw [hanalyze] at htrue hfalse
      exact .inr ⟨e, htrue, hfalse⟩

end Ifj22
