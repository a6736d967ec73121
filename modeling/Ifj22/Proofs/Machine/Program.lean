import Ifj22.Proofs.Machine.Call
set_option autoImplicit false

/-!
# Machine: integer programs

The code of an integer program does on the machine what the program means: where the interpreter ends
normally, the machine comes to the exit with the code zero, and has written what the built-in calls of
the interpreter write.
-/

namespace Ifj22

open Code Code.Generator Meaning

theorem Code.Generator.Generated.body_over {t : SymbolTable} {limit : Nat} {body : List Stmt}
    {g : Generator} (h : Generated t limit body g) {name : String} {params : List Param}
    {declared : Option Ty} {b : List Stmt} (hmem : Stmt.function name params declared b ∈ body) :
    ∀ s ∈ b, s.Over (names t limit (some name)) := (h.ready.overTop _ hmem).inside

namespace Machine

variable {m : Machine} {t : SymbolTable} {limit loops : Nat} {body : List Stmt} {g : Generator}

/-! ## Calls -/

section

variable (hg : Generated t limit body g) (hlimit : limit < 2 ^ 63) (ht : t.Integer)
  (hint : ∀ s ∈ body, s.isInteger = true)

include hg hlimit ht hint

/-- The calls of an integer program do what the interpreter makes of them, to every depth. -/
theorem answers_invoke (depth : Nat) : ∀ scope : Option String,
    m.Answers g.finish.listing.instructions (names t limit scope).callee
      (invoke (.integer m) body loops depth) := by
  induction depth with
  | zero =>
    intro scope
    refine answers_dispatch hg hlimit fun {_ _ _ _ _ _} _ _ {_ _ _} _ _ _ => ?_
    intro s flow s' hx
    cases hx
  | succ depth ih =>
    intro scope
    refine answers_dispatch hg hlimit fun {name _ _ _ _ _} hmem hrun {_ _ _} hframe hvars hleaves => ?_
    obtain ⟨_, _, hints⟩ := Stmt.isInteger_function.mp (hint _ hmem)
    have hover := hg.body_over hmem
    exact realizes_codes hover (fun s hs => realizes_stmt hg.distinct_labels ht (ih (some name)) hleaves
      (hover s hs) (hints s hs)) ⟨hrun.knows, hrun.table, hrun.function⟩ (hrun.frame.trans hframe.symm)
      hvars hrun.run

end

/-! ## The main body -/

/-- The main body of a program does what its statements do; its functions add nothing to it. -/
theorem performs_main {program : List Instr} {H : Home} {c0 : Config} {L : Exit}
    {call : String → List Int → Run Int Unit Unit (Option Int)} (hP : Distinct program)
    (ht : t.Integer) (hanswers : m.Answers program (names t limit none).callee call)
    (hframe : H.frame = .gf) (hleaves : m.Leaves program H c0 L none) :
    ∀ {rest done : List Stmt} {g g' : Generator}, (∀ s ∈ rest, s.OverTop (lexicon t limit)) →
      (∀ s ∈ rest, s.isInteger = true) → (functionNames rest).Nodup →
      Top t limit done (functionNames rest) g → Stmt.codes rest g = .ok () g' →
      (∀ v ∈ g.segment.declared, v ∈ g'.segment.declared) ∧
        ∃ code, g'.segment.body.toList = g.segment.body.toList ++ code ∧
          ((∀ v ∈ g'.segment.declared, v ∈ H.vars) →
            m.Performs program H c0 L (Stmt.execAll (.integer m) call loops rest) code)
  | [], done, g, g', _, _, _, _, hrun => by
    rw [Stmt.codes] at hrun
    cases hrun
    exact ⟨fun _ h => h, [], (List.append_nil _).symm, fun _ => .nil⟩
  | s :: rest, done, g, g', hover, hint, hnodup, hg, hrun => by
    obtain ⟨hovers, hoverrest⟩ := List.forall_mem_cons.mp hover
    obtain ⟨hints, hintrest⟩ := List.forall_mem_cons.mp hint
    have hnodup' : (functionNames rest).Nodup :=
      hnodup.sublist ((List.sublist_cons_self s rest).filterMap _)
    rw [Stmt.codes] at hrun
    obtain ⟨_, g1, hfirst, hrun⟩ := bind_eq_ok.mp hrun
    obtain ⟨hpasses, hg1⟩ := (meets_stmt hovers hnodup hg).of_ok hfirst
    obtain ⟨hdeclared, code, hbody, hperforms⟩ :=
      performs_main hP ht hanswers hframe hleaves hoverrest hintrest hnodup' hg1 hrun
    cases hpasses with
    | stmt hs hcode hstep =>
      refine ⟨fun v hv => hdeclared v (hstep.declared v hv), added g g1 ++ code, ?_, fun hvars => ?_⟩
      · rw [hbody, hstep.body, List.append_assoc]
      · refine .cons ?_ (hperforms hvars)
        exact realizes_stmt hP ht hanswers hleaves hs hints ⟨hg.knows, hg.table, hg.function⟩
          (hg.frame.trans hframe.symm) (fun v hv => hvars v (hdeclared v hv)) hcode
    | function _ _ =>
      refine ⟨hdeclared, code, hbody, fun hvars => ?_⟩
      rw [← List.nil_append code]
      refine .cons ?_ (hperforms hvars)
      intro s flow s' hx c hstays hc
      rw [Stmt.exec] at hx
      cases hx
      exact .nil ⟨rfl, hstays, hc⟩

/-- Where the variables of the main body are. -/
def mainHome (segment : Segment) (h : ∀ v ∈ segment.declared, v.frame = .gf) : Home where
  frame := .gf
  vars := segment.declared.toList
  frame_ne := by decide
  framed v hv := h v (Array.mem_toList_iff.mp hv)

/-- What is so where a program has come to a return at its top level. -/
def Finished : Exit := fun _ s d => ∃ rest, d.code = .exit (.int 0) :: rest ∧ d.output = written s.calls

theorem leaves_main {program : List Instr} {H : Home} {c0 : Config} :
    m.Leaves program H c0 Finished none := by
  intro s v a c _ hc _
  exact .stop fun rest => ⟨rest, rfl, hc.output⟩

/-! ## Programs -/

/-- A program that the interpreter ends normally comes to its exit on the machine. -/
theorem exits_of_main (hg : Generated t limit body g) (hlimit : limit < 2 ^ 63) (ht : t.Integer)
    (hint : ∀ s ∈ body, s.isInteger = true) {fuel : Nat} {flow : Flow Int} {s : State Int Unit}
    (hx : main (.integer m) body fuel (.start ()) = .ok flow s) (input : List String) :
    m.Exits g.finish.listing.instructions (.start g.finish.listing.instructions input) (.int 0)
      (written s.calls) := by
  have hvars : ∀ v ∈ g.segment.declared, v.frame = .gf := fun v hv =>
    (hg.top.tidy.frame v hv).trans hg.top.frame
  have hanswers : m.Answers g.finish.listing.instructions (names t limit none).callee
      (invoke (.integer m) body fuel fuel) := answers_invoke hg hlimit ht hint fuel none
  -- the declarations come first, and nothing is declared before
  have hdoes : m.Does g.finish.listing.instructions
      (fun d => ∃ v, flow = .returned v ∧ Finished v s d)
      (g.segment.declared.toList.map .defVar ++ g.segment.body.toList)
      (fun c' => c'.output = written s.calls) (.start g.finish.listing.instructions input) := by
    refine (does_declarations (F := .gf) hg.top.tidy.nodup (fun v hv => ⟨?_, ?_⟩) rfl).append ?_
    · exact hvars v (Array.mem_toList_iff.mp hv)
    · rw [Config.get, hvars v (Array.mem_toList_iff.mp hv)]
      rfl
    · rintro c1 ⟨_, hout, hdeclared, _⟩
      have hshows : Shows (mainHome g.segment hvars) (.start ()) c1 :=
        ⟨by rintro _ _ _ ⟨⟩, hdeclared, hout⟩
      have hleaves : m.Leaves g.finish.listing.instructions (mainHome g.segment hvars) c1 Finished
          none := leaves_main
      obtain ⟨_, code, hbody, hperforms⟩ := performs_main hg.distinct_labels ht hanswers rfl hleaves
        hg.ready.overTop hint hg.ready.nodup (.start hg.ready.unmarked _) hg.run
      rw [hbody]
      refine (hperforms (fun v hv => Array.mem_toList_iff.mpr hv) hx c1 (.refl c1) hshows).imp ?_
      rintro c2 ⟨_, _, hshows2⟩
      exact hshows2.output
  have hplace : (g.segment.declared.toList.map .defVar ++ g.segment.body.toList) ++
      .exit (.int 0) :: g.behindMain = g.finish.listing.instructions := by
    rw [instructions_eq, Segment.declarations]
    simp only [List.append_assoc, List.singleton_append]
  have hcomes := hdoes (.exit (.int 0) :: g.behindMain) (hplace ▸ List.suffix_refl _)
  rw [hplace] at hcomes
  obtain ⟨c', ⟨hrun, hout⟩ | ⟨hrun, _, _, rest, hcode, hout⟩⟩ := hcomes
  · exact ⟨_, _, hrun, rfl, hout⟩
  · exact ⟨c', rest, hrun, hcode, hout⟩

end Machine

open Machine

/-- Integer programs do on the machine what they mean: where the interpreter ends normally, the
code of the analyzed program comes to its exit with the code zero, and it has written what the
program writes.  The length of the text bounds the number of arguments of a call, which `write` is
told as a word. -/
theorem compile_integer_program {source : String} {tokens : List Token} {program : Program}
    {tree : List Stmt} {checked : Checked} (htokens : tokenize source = .ok tokens)
    (hparse : parseTokens tokens = .ok program) (htree : program.tree? = some tree)
    (hint : Stmt.allInteger tree = true) (h : analyze false source = .ok checked)
    (hlength : source.length < 2 ^ 63) :
    checked.program.tree? = some tree ∧ ∃ listing, checked.generate = .ok listing ∧
      ∀ (m : Machine) (fuel : Nat) (flow : Flow Int) (s : State Int Unit) (input : List String),
        main (.integer m) tree fuel (.start ()) = .ok flow s →
        m.Exits listing.instructions (.start listing.instructions input) (.int 0)
          (written s.calls) := by
  have hparsed := analyze_parsed source
  rw [h] at hparsed
  obtain ⟨hsize, tokens', program', tree', body, htokens', hparse', htree', hsound, hinteger⟩ := hparsed
  cases htokens.symm.trans htokens'
  cases hparse.symm.trans hparse'
  cases htree.symm.trans htree'
  obtain ⟨rfl, htable⟩ := hinteger hint
  obtain ⟨g, hg, hlisting⟩ := checked.generate_of_ready hsound.holds (hsound.ready hsize)
  refine ⟨hsound.holds.tree?_eq, _, hlisting, fun m fuel flow s input hx => ?_⟩
  exact exits_of_main hg hlength htable (Stmt.allInteger_iff.mp hint) hx input

/-- The sample is an integer program, and its code writes 1 and 6. -/
theorem compile_integer_program_sample :
    ∃ tokens program tree checked listing, tokenize sample = .ok tokens ∧
      parseTokens tokens = .ok program ∧ program.tree? = some tree ∧ Stmt.allInteger tree = true ∧
      analyze false sample = .ok checked ∧ checked.generate = .ok listing ∧
      unbounded.Exits listing.instructions (.start listing.instructions []) (.int 0) "16" := by
  obtain ⟨checked, h⟩ := sample_accepted
  obtain ⟨tokens, htokens, program, hparse, tree, htree, hint, flow, s, hmain, hwritten⟩ :
      ∃ tokens, tokenize sample = .ok tokens ∧ ∃ program, parseTokens tokens = .ok program ∧
        ∃ tree, program.tree? = some tree ∧ Stmt.allInteger tree = true ∧
          ∃ flow s, main (.integer unbounded) tree 10 (.start ()) = .ok flow s ∧
            written s.calls = "16" := by decide +kernel
  obtain ⟨_, listing, hlisting, hexits⟩ :=
    compile_integer_program htokens hparse htree hint h (by decide +kernel)
  refine ⟨tokens, program, tree, checked, listing, htokens, hparse, htree, hint, h, hlisting, ?_⟩
  rw [← hwritten]
  exact hexits unbounded 10 flow s [] hmain

end Ifj22
