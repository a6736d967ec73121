import Ifj22.Proofs.Code.Calls
import Ifj22.Proofs.Code.Declarations
import Ifj22.Proofs.Machine.Stmt
import Ifj22.Proofs.Machine.Write
set_option autoImplicit false

/-!
# Machine: calls of integer programs

A call enters the code of a function or the routine of `write`.  Either runs in a frame of its own,
takes its arguments from the stack and goes back to where the call was.
-/

namespace Ifj22.Machine

open Code Code.Generator Meaning

variable {stack : List Value} {args : List Int} {v : Int}

variable {m : Machine} {program : List Instr} {R : Config → Prop} {c c' : Config}

/-! ## Functions -/

/-- The parameters of a function are taken from the stack, the one on top first. -/
theorem does_pops : ∀ {params : List Param} {values : List Int} {c : Config},
    (params.map fun p => bareName p.name).Nodup → params.length = values.length →
    c.stack = values.map .int ++ stack →
    (∀ p ∈ params, (c.get ⟨.lf, bareName p.name⟩).isSome = true) →
    m.Does program R (params.map popOf) (fun c' => Stays .lf { c with stack := stack } c' ∧
      c'.output = c.output ∧ (∀ v : Var, v.name ∉ params.map (fun p => bareName p.name) →
        c'.get v = c.get v) ∧
      ∀ p v, (p, v) ∈ params.zip values →
        c'.get ⟨.lf, bareName p.name⟩ = some (some (.int v))) c
  | [], [], c, _, _, hstack, _ => by
    refine .nil ⟨⟨hstack, rfl, rfl, fun _ h => h⟩, rfl, fun _ _ => rfl, ?_⟩
    exact fun _ _ h => nomatch h
  | p :: params, v :: values, c, hnodup, hlength, hstack, hdeclared => by
    obtain ⟨hnew, hnodup⟩ := List.nodup_cons.mp hnodup
    obtain ⟨hp, hdeclared⟩ := List.forall_mem_cons.mp hdeclared
    have hupdate := stays_pop (values.map .int ++ stack) hp (.int v)
    have hget := get_pop (values.map .int ++ stack) hp (.int v)
    refine .pop hstack hp ((does_pops hnodup (Nat.succ.inj hlength) hupdate.stack ?_).imp ?_)
    · exact fun q hq => hupdate.declared _ (hdeclared q hq)
    · rintro c' ⟨hstays, hout, hsame, hvalues⟩
      refine ⟨?_, hout.trans (Config.update_output ..), fun w hw => ?_, fun q w hq => ?_⟩
      · exact ⟨hstays.stack, hstays.calls.trans hupdate.calls, hstays.outer.trans hupdate.outer,
          fun x hx => hstays.declared x (hupdate.declared x hx)⟩
      · obtain ⟨hne, hw⟩ := not_or.mp (mt List.mem_cons.mpr hw)
        rw [hsame w hw, hget, if_neg fun heq => hne (congrArg Var.name heq)]
      · rcases List.mem_cons.mp hq with heq | hq
        · cases heq
          rw [hsame _ hnew, hget, if_pos rfl]
        · exact hvalues q w hq

/-- Where the variables of a function are. -/
def functionHome (segment : Segment) (h : ∀ v ∈ segment.declared, v.frame = .lf) : Home where
  frame := .lf
  vars := Var.result :: segment.declared.toList
  frame_ne := by decide
  framed := List.forall_mem_cons.mpr ⟨rfl, fun v hv => h v (Array.mem_toList_iff.mp hv)⟩

/-- What is so where a function has returned to `back`, if it has returned a value. -/
def Returned (back : List Instr) (stack : List Value) (c : Config) : Exit := fun v s d =>
  ∀ x, v = some x → d.code = back ∧ Returns stack (written s.calls) c d ∧
    d.get Var.returned = some (some (.int x))

theorem leaves_function {segment : Segment} (h : ∀ v ∈ segment.declared, v.frame = .lf)
    {c0 : Config} {back : List Instr} {name : String} (hstack : c0.stack = stack)
    (hcalls : c0.calls = back :: c.calls) (houter : c0.outer .lf = (c.lf, some c.gf)) :
    m.Leaves program (functionHome segment h) c0 (Returned back stack c) (some name) := by
  intro s v a c1 hstays hc hvalue
  cases v with
  | none => exact .stop fun _ x hx => nomatch hx
  | some x =>
    obtain ⟨b, rfl, hb⟩ := hvalue x rfl
    have hsome := hc.declared Var.result (.head _)
    have hframe := Config.isSome_frame? hsome
    have hall : Stays .lf c0 (c1.update Var.result (some (.int x))) :=
      hstays.trans (stays_update rfl hframe _)
    have hresult : (c1.update Var.result (some (.int x))).get Var.result = some (some (.int x)) := by
      rw [Config.get_update hframe, if_pos rfl]
    refine .move hb hsome ((does_leave (hall.calls.trans hcalls) (hall.outer.trans houter) hresult).mono
      (fun _ => id) ?_)
    rintro d ⟨hcode, hreturns, hvalue⟩ _ ⟨⟩
    rw [hall.stack, hstack, Config.update_output, hc.output] at hreturns
    exact ⟨hcode, hreturns, hvalue⟩

section

variable {t : SymbolTable} {limit : Nat} {name : String} {params : List Param} {b : List Stmt}
  {g1 g2 : Generator} {rest : List Instr}

theorem functionCode_place
    (h : (functionCode name (pops params) g2.segment ++ rest) <:+ program) :
    (.label (.entry name) :: ((.pushFrame :: .defVar Var.result :: .move Var.result .nil ::
      (g2.segment.declared.toList.map .defVar ++ (params.reverse.map popOf ++
        (g2.segment.body.toList ++ [.popFrame, .ret])))) ++ rest)) <:+ program := by
  unfold functionCode Segment.declarations pops at h
  simpa only [List.append_assoc, List.cons_append, List.nil_append] using h

/-- What a function finds in a parameter is an argument of the call. -/
theorem mem_zip_of_lookup {x : String} (h : ((params.map (·.name)).zip args).lookup x = some v) :
    ∃ p, (p, v) ∈ params.zip args ∧ p.name = x := by
  obtain ⟨before, behind, hsplit, _⟩ := List.lookup_eq_some_iff.mp h
  have hmem : (x, v) ∈ (params.map (·.name)).zip args := by
    rw [hsplit]
    exact List.mem_append_right _ (.head _)
  rw [List.zip_map_left] at hmem
  obtain ⟨⟨p, w⟩, hp, heq⟩ := List.mem_map.mp hmem
  cases heq
  exact ⟨p, hp, rfl⟩

theorem mem_zip_reverse (hlength : params.length = args.length) {p : Param}
    (h : (p, v) ∈ params.zip args) : (p, v) ∈ params.reverse.zip args.reverse := by
  rw [List.zip, ← List.reverse_zipWith hlength]
  exact List.mem_reverse.mpr h

/-- A call of a function, given how its body is run. -/
theorem does_function (hP : Distinct program) (hrun : FunctionRun t limit name params b g1 g2)
    (hnodup : (params.map fun p => bareName p.name).Nodup)
    (hplace : (functionCode name (pops params) g2.segment ++ rest) <:+ program)
    {inside : Run Int Unit Unit (Flow Int)}
    (hinside : ∀ {H c0 L}, H.frame = .lf → (∀ v ∈ g2.segment.declared, v ∈ H.vars) →
      m.Leaves program H c0 L (some name) → m.Performs program H c0 L inside (added g1 g2))
    {declared : Option Ty} {s s' : State Int Unit} (hlength : params.length = args.length)
    (hs : s.frame = .start name ⟨params, declared, b⟩ args)
    (hx : inside s = .ok (.returned (some v)) s')
    (hstack : c.stack = args.reverse.map .int ++ stack) (hout : c.output = written s.calls)
    (htf : c.tf = some fun _ => none) :
    m.Does program R [.call (.entry name)] (fun c' => Returns stack (written s'.calls) c c' ∧
      c'.get Var.returned = some (some (.int v))) c := by
  have htidy := (hrun.step.knows hrun.knows).tidy
  have hframe : ∀ v ∈ g2.segment.declared, v.frame = .lf := fun v hv =>
    (htidy.frame v hv).trans (hrun.step.frame.trans hrun.frame)
  refine .call hP (functionCode_place hplace) (fun back => ?_) fun c' hc' => .nil hc'
  refine does_enter _ htidy.nodup (fun v hv => hframe v (Array.mem_toList_iff.mp hv))
    (fun hmem => Generated.result_not_mem htidy (Array.mem_toList_iff.mp hmem)) htf
    fun c1 hstays hout1 hresult hvars => ?_
  have hdeclared : ∀ v ∈ Var.result :: g2.segment.declared.toList, (c1.get v).isSome = true :=
    List.forall_mem_cons.mpr ⟨Option.isSome_of_eq_some hresult, hvars⟩
  have hparam : ∀ p ∈ params.reverse, (c1.get ⟨.lf, bareName p.name⟩).isSome = true := fun p hp => by
    refine hdeclared _ (.tail _ (Array.mem_toList_iff.mpr (hrun.step.declared _ ?_)))
    exact hrun.params p (List.mem_reverse.mp hp)
  have hnodup' : (params.reverse.map fun p => bareName p.name).Nodup := by
    rw [List.map_reverse]
    exact List.nodup_reverse.mpr hnodup
  refine (does_pops hnodup' (by simpa using hlength) (hstays.stack.trans hstack) hparam).append ?_
  rintro c2 ⟨hstays2, hout2, _, hvalues⟩
  have hshows : Shows (functionHome g2.segment hframe) s c2 := by
    refine ⟨fun x w hx hw => ?_, fun w hw => ?_, hout2.trans (hout1.trans hout)⟩
    · rw [hs] at hw
      obtain ⟨p, hmem, rfl⟩ := mem_zip_of_lookup hw
      exact hvalues p w (mem_zip_reverse hlength hmem)
    · obtain ⟨F, x⟩ := w
      obtain rfl : F = .lf := (functionHome g2.segment hframe).framed _ hw
      exact hstays2.declared x (hdeclared _ hw)
  have hleaves : m.Leaves program (functionHome g2.segment hframe) c2 (Returned back stack c)
      (some name) :=
    leaves_function hframe hstays2.stack (hstays2.calls.trans hstays.calls)
      (hstays2.outer.trans hstays.outer)
  have hbody := hinside rfl (fun v hv => .tail _ (Array.mem_toList_iff.mpr hv)) hleaves hx c2
    (.refl c2) hshows
  rw [hrun.added_eq] at hbody
  refine .append (P := fun _ => False) (hbody.mono (fun _ h => nomatch h.1) ?_) fun _ => False.elim
  rintro d ⟨_, ⟨⟩, hreturned⟩
  exact hreturned v rfl

end

/-! ## Programs -/

section

variable {t : SymbolTable} {limit : Nat} {scope : Option String} {body : List Stmt}
  {g : Generator} (hg : Generated t limit body g) (hlimit : limit < 2 ^ 63)

include hg hlimit

/-- The calls of a program do what the interpreter makes of them, given how the bodies of its
functions are run. -/
theorem answers_dispatch {inside : Function → Run Int Unit Unit (Flow Int)}
    (hinside : ∀ {name params declared b g1 g2}, Stmt.function name params declared b ∈ body →
      FunctionRun t limit name params b g1 g2 → ∀ {H c0 L}, H.frame = .lf →
      (∀ v ∈ g2.segment.declared, v ∈ H.vars) →
      m.Leaves g.finish.listing.instructions H c0 L (some name) →
      m.Performs g.finish.listing.instructions H c0 L (inside ⟨params, declared, b⟩) (added g1 g2)) :
    m.Answers g.finish.listing.instructions (names t limit scope).callee
      (dispatch (.integer m) body inside) := by
  have hP : Distinct g.finish.listing.instructions := hg.distinct_labels
  intro name args s r s' hcallee hx
  unfold dispatch at hx
  rcases hg.callee hcallee with
    ⟨params, declared, b, hmem, _⟩ | ⟨_, _, rfl, _, routine, hroutine, hname⟩
  · rw [findSome?_function hg.ready.nodup hmem] at hx
    obtain ⟨hlength, v, s1, rfl, hrun, rfl⟩ := within_eq_ok hx
    refine ⟨rfl, fun R c stack hstack hout => ?_⟩
    have hne : name ≠ "write" := by
      rintro rfl
      exact hg.routine_fresh .write (List.mem_filterMap.mpr ⟨_, hmem, rfl⟩)
    obtain ⟨g1, g2, hfunction, _, hcode⟩ := hg.function_code hmem
    obtain ⟨rest, hplace⟩ := function_place hcode
    rw [callEnd, if_neg hne, List.nil_append]
    refine .createFrame ((does_function (c := { c with tf := some fun _ => none }) hP hfunction
      (hg.params_nodup hmem) hplace (hinside hmem hfunction) hlength rfl hrun hstack hout rfl).imp ?_)
    rintro c' ⟨hreturns, hvalue⟩
    refine ⟨⟨hreturns.stack, hreturns.calls, hreturns.gf, hreturns.lf, hreturns.output⟩, ?_⟩
    rintro _ ⟨⟩
    exact hvalue
  · rw [findSome?_function_none (hname ▸ hg.routine_fresh routine)] at hx
    obtain ⟨hwrite, rfl, rfl⟩ := consult_eq_ok hx
    refine ⟨rfl, fun R c stack hstack hout => ?_⟩
    obtain rfl : routine = .write := by
      rw [hwrite] at hname
      revert hname
      cases routine <;> decide
    obtain ⟨rest, hplace⟩ := routine_place hroutine
    have hsmall : args.length < 2 ^ 63 := Nat.lt_of_le_of_lt hcallee.2 hlimit
    have hlength : (args.reverse.map Value.int).length = args.length := by simp
    have hstack' : .int (Int64.ofNat args.length).toInt :: c.stack =
        .int (args.reverse.map Value.int).length :: (args.reverse.map .int ++ stack) := by
      rw [Int64.toInt_ofNat_of_lt hsmall, hlength, hstack]
    rw [callEnd, if_pos hwrite, List.singleton_append, hwrite]
    have hwrites := runs_write (c := { c with
      stack := .int (Int64.ofNat args.length).toInt :: c.stack, tf := some fun _ => none }) hP
        (hplace.trans g.routineCode_suffix) (m.counts_of_lt (hlength ▸ hsmall)) hstack' rfl
    refine .push rfl (.createFrame (.of_runs hwrites ?_))
    rintro c' ⟨hreturns, -⟩
    refine .nil ⟨⟨hreturns.stack, hreturns.calls, hreturns.gf, hreturns.lf, ?_⟩, fun _ h => nomatch h⟩
    have htexts : (args.reverse.map Value.int).reverse.map m.text = args.map toString := by
      rw [← List.map_reverse, List.reverse_reverse, List.map_map]
      rfl
    rw [hreturns.output, written_append, ← hout, htexts]

end

end Ifj22.Machine
