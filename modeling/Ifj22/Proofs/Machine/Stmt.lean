import Ifj22.Proofs.Machine.Expr
set_option autoImplicit false

/-!
# Machine: the code of statements

The code that is generated for an integer statement does what the interpreter does: it comes to its
end where the interpreter goes on, and leaves the block where the interpreter returns.
-/

namespace Ifj22.Machine

open Code Code.Generator Meaning

variable {body thenBody elseBody : List Stmt} {target name : String} {value : Expr} {l l' : Label}
  {args : List Expr}

/-- What is known where a block of code is left: by the value that is returned, and the state of the
interpreter then. -/
abbrev Exit := Option Int → State Int Unit → Config → Prop

/-- The code does what the run of the interpreter does.  At the start of the block the configuration
was `c0`. -/
def Performs (m : Machine) (program : List Instr) (H : Home) (c0 : Config) (L : Exit)
    (x : Run Int Unit Unit (Flow Int)) (code : List Instr) : Prop :=
  ∀ ⦃s flow s'⦄, x s = .ok flow s' → ∀ c, Stays H.frame c0 c → Shows H s c →
    m.Does program (fun c' => ∃ v, flow = .returned v ∧ L v s' c') code
      (fun c' => flow = .normal ∧ Stays H.frame c0 c' ∧ Shows H s' c') c

section

variable {m : Machine} {program : List Instr} {H : Home} {c0 : Config} {L : Exit} {n : Nat}
  {x : Run Int Unit Unit (Flow Int)} {code code' : List Instr} {a : Operand}
  {call : String → List Int → Run Int Unit Unit (Option Int)} {loops : Nat}

namespace Performs

theorem nil : m.Performs program H c0 L (Stmt.execAll (.integer m) call loops []) [] := by
  intro s flow s' hx c hstays hc
  rw [Stmt.execAll] at hx
  cases hx
  exact .nil ⟨rfl, hstays, hc⟩

theorem cons {u : Stmt} (hu : m.Performs program H c0 L (u.exec (.integer m) call loops) code)
    (hbody : m.Performs program H c0 L (Stmt.execAll (.integer m) call loops body) code') :
    m.Performs program H c0 L (Stmt.execAll (.integer m) call loops (u :: body)) (code ++ code') := by
  intro s flow s' hx c hstays hc
  rw [Stmt.execAll] at hx
  obtain ⟨first, s1, hfirst, hrest⟩ := bind_eq_ok.mp hx
  have hdoes := hu hfirst c hstays hc
  cases first with
  | normal =>
    refine (hdoes.mono (fun _ h => h) ?_).append ?_
    · rintro c' ⟨v, ⟨⟩, _⟩
    · rintro c' ⟨_, hstays', hc'⟩
      exact hbody hrest c' hstays' hc'
  | returned v =>
    cases hrest
    intro rest hrest
    rw [List.append_assoc] at hrest ⊢
    obtain ⟨c', ⟨_, ⟨⟩, _⟩ | hleft⟩ := hdoes _ hrest
    exact ⟨c', .inr hleft⟩

/-- A value that is computed and not used. -/
theorem evaluate {α : Type} {z : Run Int Unit Unit α} {shown : α → Value}
    (h : m.Computes program H z shown n code a) (hx : ∀ s flow s', x s = .ok flow s' →
      flow = .normal ∧ ∃ v, z s = .ok v s') : m.Performs program H c0 L x code := by
  intro s flow s' hrun c hstays hc
  obtain ⟨rfl, v, hv⟩ := hx s flow s' hrun
  obtain ⟨hframe, hdoes⟩ := h hv
  refine (hdoes _ c hc).imp ?_
  rintro c' ⟨hkeeps, hout, _⟩
  exact ⟨rfl, hstays.trans hkeeps.toStays, hc.keeps hkeeps hframe hout⟩

end Performs

/-- Setting a variable of the program. -/
theorem Shows.set {s : State Int Unit} {c : Config} (h : Shows H s c) {x : String}
    (hx : IsVarName x.toList) (hmem : (⟨H.frame, bareName x⟩ : Var) ∈ H.vars) (v : Int) :
    Shows H { s with frame := s.frame.set x v } (c.update ⟨H.frame, bareName x⟩ (some (.int v))) := by
  have hget := h.declared _ hmem
  have hstays : Stays H.frame c (c.update ⟨H.frame, bareName x⟩ (some (.int v))) :=
    stays_update rfl (Config.isSome_frame? hget) _
  refine ⟨fun y w hy hw => ?_, fun w hw => ?_, (Config.update_output ..).trans h.output⟩
  · rw [Config.get_update (Config.isSome_frame? hget)]
    have hw : (if y = x then some v else s.frame.vars y) = some w := hw
    split at hw
    · rename_i hyx
      cases hw
      rw [hyx, if_pos rfl]
    · rename_i hyx
      rw [if_neg fun heq => hyx (bareName_inj hy hx (congrArg Var.name heq))]
      exact h.vars y w hy hw
  · obtain ⟨F, name⟩ := w
    obtain rfl : F = H.frame := H.framed _ hw
    exact hstays.declared _ (h.declared _ hw)

namespace Performs

theorem assign (htarget : IsVarName target.toList)
    (hmem : (⟨H.frame, bareName target⟩ : Var) ∈ H.vars)
    (h : m.Computes program H (value.eval (.integer m) call) .int n code a) :
    m.Performs program H c0 L ((Stmt.assign target value).exec (.integer m) call loops)
      (code ++ [.move ⟨H.frame, bareName target⟩ a]) := by
  intro s flow s' hx c hstays hc
  rw [Stmt.exec] at hx
  obtain ⟨v, s1, hv, hx⟩ := bind_eq_ok.mp hx
  obtain ⟨_, _, ⟨⟩, hx⟩ := bind_eq_ok.mp hx
  cases hx
  obtain ⟨hframe, hdoes⟩ := h hv
  refine (hdoes _ c hc).append ?_
  rintro c1 ⟨hkeeps, hout, hvalue⟩
  have hc1 := hc.keeps hkeeps hframe hout
  have hget := hc1.declared _ hmem
  refine .move hvalue hget (.nil ⟨rfl, ?_, hc1.set htarget hmem v⟩)
  exact (hstays.trans hkeeps.toStays).trans (stays_update rfl (Config.isSome_frame? hget) _)

theorem branch (hP : Distinct program) {cond : Expr} {thenCode elseCode : List Instr}
    (hcond : m.Computes program H (cond.test (.integer m) call) .bool n code a)
    (hthen : m.Performs program H c0 L (Stmt.execAll (.integer m) call loops thenBody) thenCode)
    (helse : m.Performs program H c0 L (Stmt.execAll (.integer m) call loops elseBody) elseCode) :
    m.Performs program H c0 L
      ((Stmt.ifElse cond thenBody (some elseBody)).exec (.integer m) call loops)
      (code ++ .jumpIfEq l a (.bool false) ::
        (thenCode ++ .jump l' :: .label l :: (elseCode ++ [.label l']))) := by
  intro s flow s' hx c hstays hc
  rw [Stmt.exec] at hx
  obtain ⟨b, s1, hb, hx⟩ := bind_eq_ok.mp hx
  obtain ⟨hframe, hdoes⟩ := hcond hb
  refine (hdoes _ c hc).append ?_
  rintro c1 ⟨hkeeps, hout, hvalue⟩
  have hc1 := hc.keeps hkeeps hframe hout
  have hstays1 := hstays.trans hkeeps.toStays
  have hjumps : Does.Jumps m program (.jumpIfEq l a (.bool false)) l (!b) c1 :=
    Does.jumps_jumpIfEq hvalue rfl (by cases b <;> rfl)
  refine .branch hP hjumps (fun hgo => ?_) fun hskip => ?_
  · obtain rfl : b = true := by simpa using hgo
    exact hthen hx c1 hstays1 hc1
  · obtain rfl : b = false := by simpa using hskip
    exact helse hx c1 hstays1 hc1

/-- What one more round of a loop does. -/
theorem rounds_eq_ok {cond : Run Int Unit Unit Bool} {s s' : State Int Unit} {flow : Flow Int}
    (h : rounds cond x n s = .ok flow s') : ∃ b s1, cond s = .ok b s1 ∧
      if b = true then ∃ k first s2, k < n ∧ x s1 = .ok first s2 ∧
        match first with
        | .normal => rounds cond x k s2 = .ok flow s'
        | .returned v => flow = .returned v ∧ s' = s2
      else flow = .normal ∧ s' = s1 := by
  cases n with
  | zero =>
    rw [rounds] at h
    obtain ⟨b, s1, hb, h⟩ := bind_eq_ok.mp h
    refine ⟨b, s1, hb, ?_⟩
    cases b <;> cases h
    exact ⟨rfl, rfl⟩
  | succ k =>
    rw [rounds] at h
    obtain ⟨b, s1, hb, h⟩ := bind_eq_ok.mp h
    refine ⟨b, s1, hb, ?_⟩
    cases b with
    | false =>
      cases h
      exact ⟨rfl, rfl⟩
    | true =>
      obtain ⟨first, s2, hfirst, h⟩ := bind_eq_ok.mp h
      refine ⟨k, first, s2, Nat.lt_succ_self k, hfirst, ?_⟩
      cases first with
      | normal => exact h
      | returned v =>
        cases h
        exact ⟨rfl, rfl⟩

theorem loop (hP : Distinct program) {cond : Expr} {bodyCode : List Instr}
    (hcond : m.Computes program H (cond.test (.integer m) call) .bool n code a)
    (hbody : m.Performs program H c0 L (Stmt.execAll (.integer m) call loops body) bodyCode) :
    m.Performs program H c0 L ((Stmt.whileLoop cond body).exec (.integer m) call loops)
      (.label l' :: (code ++ .jumpIfEq l a (.bool false) ::
        (bodyCode ++ [.jump l', .label l]))) := by
  intro s flow s' hx c hstays hc
  rw [Stmt.exec] at hx
  -- before each round, the rounds that are left lead the interpreter to the same end
  have hstart : ∃ s1, rounds (cond.test (.integer m) call)
      (Stmt.execAll (.integer m) call loops body) loops s1 = .ok flow s' ∧
      Stays H.frame c0 c ∧ Shows H s1 c := ⟨s, hx, hstays, hc⟩
  refine .loop hP (P := fun k c => ∃ s1, rounds (cond.test (.integer m) call)
    (Stmt.execAll (.integer m) call loops body) k s1 = .ok flow s' ∧ Stays H.frame c0 c ∧
      Shows H s1 c) ?_ hstart
  rintro k c ⟨s1, hrounds, hstays, hc⟩
  obtain ⟨b, s2, hb, hrest⟩ := rounds_eq_ok hrounds
  obtain ⟨hframe, hdoes⟩ := hcond hb
  refine (hdoes _ c hc).imp ?_
  rintro c1 ⟨hkeeps, hout, hvalue⟩
  have hc1 := hc.keeps hkeeps hframe hout
  have hstays1 := hstays.trans hkeeps.toStays
  refine ⟨!b, Does.jumps_jumpIfEq hvalue rfl (by cases b <;> rfl), fun hskip => ?_, fun hgo => ?_⟩
  · obtain rfl : b = false := by simpa using hskip
    obtain ⟨rfl, rfl⟩ := hrest
    exact ⟨rfl, hstays1, hc1⟩
  · obtain rfl : b = true := by simpa using hgo
    obtain ⟨k', first, s3, hk', hfirst, hagain⟩ := hrest
    refine ⟨k', hk', (hbody hfirst c1 hstays1 hc1).mono ?_ ?_⟩
    · rintro c2 ⟨rfl, hstays2, hc2⟩
      exact ⟨s3, hagain, hstays2, hc2⟩
    · rintro c2 ⟨v, rfl, hleft⟩
      obtain ⟨rfl, rfl⟩ := hagain
      exact ⟨v, rfl, hleft⟩

/-- A call as a statement. -/
theorem perform {callee : String → Nat → Prop}
    (h : m.Pushes program H (Expr.evalAll (.integer m) call args) n code)
    (hanswers : m.Answers program callee call) (hcallee : callee name args.length) :
    m.Performs program H c0 L ((Stmt.expr (.call name args)).exec (.integer m) call loops)
      (code ++ callEnd name args.length) := by
  intro s flow s' hx c hstays hc
  rw [Stmt.exec, Expr.perform] at hx
  obtain ⟨_, s3, hx, hflow⟩ := bind_eq_ok.mp hx
  cases hflow
  obtain ⟨values, s1, hvalues, hx⟩ := bind_eq_ok.mp hx
  obtain ⟨r, s2, hr, hx⟩ := bind_eq_ok.mp hx
  obtain rfl : s2 = s' := by cases r <;> cases hx <;> rfl
  obtain ⟨hframe, hdoes⟩ := h.answered hanswers hcallee hvalues hr
  refine (hdoes _ c hc).imp ?_
  rintro c' ⟨hkeeps, hout, _⟩
  exact ⟨rfl, hstays.trans hkeeps.toStays, hc.keeps hkeeps hframe hout⟩

end Performs

/-- The end of a return leaves the block with the value of its operand. -/
def Leaves (m : Machine) (program : List Instr) (H : Home) (c0 : Config) (L : Exit)
    (scope : Option String) : Prop :=
  ∀ ⦃s v a c⦄, Stays H.frame c0 c → Shows H s c →
    (∀ x, v = some x → ∃ b, a = some b ∧ c.value? b = some (.int x)) →
    m.Does program (L v s) (returnEnd scope a) (fun _ => False) c

namespace Performs

variable {scope : Option String} (hleaves : m.Leaves program H c0 L scope)

include hleaves

theorem ret_none : m.Performs program H c0 L ((Stmt.ret none).exec (.integer m) call loops)
    (returnEnd scope none) := by
  intro s flow s' hx c hstays hc
  rw [Stmt.exec] at hx
  cases hx
  have hnone : ∀ x, (none : Option Int) = some x → ∃ b, none = some b ∧ c.value? b = some (.int x) :=
    fun _ h => nomatch h
  exact (hleaves hstays hc hnone).mono (fun _ => False.elim) fun _ h => ⟨_, rfl, h⟩

theorem ret (h : m.Computes program H (value.eval (.integer m) call) .int n code a) :
    m.Performs program H c0 L ((Stmt.ret (some value)).exec (.integer m) call loops)
      (code ++ returnEnd scope (some a)) := by
  intro s flow s' hx c hstays hc
  rw [Stmt.exec] at hx
  obtain ⟨v, s1, hv, hx⟩ := bind_eq_ok.mp hx
  cases hx
  obtain ⟨hframe, hdoes⟩ := h hv
  refine (hdoes _ c hc).append ?_
  rintro c1 ⟨hkeeps, hout, hvalue⟩
  have hc1 := hc.keeps hkeeps hframe hout
  refine (hleaves (hstays.trans hkeeps.toStays) hc1 ?_).mono (fun _ => False.elim)
    fun _ h => ⟨_, rfl, h⟩
  rintro x ⟨⟩
  exact ⟨a, rfl, hvalue⟩

end Performs

end

/-! ## Generated code -/

/-- The step generates code that does what the run does. -/
def Realizes (m : Machine) (program : List Instr) (t : SymbolTable) (limit : Nat)
    (scope : Option String) (H : Home) (c0 : Config) (L : Exit) (step : Generate Unit)
    (x : Run Int Unit Unit (Flow Int)) : Prop :=
  ∀ ⦃g g'⦄, Inside t limit scope g → g.segment.frame = H.frame →
    (∀ v ∈ g'.segment.declared, v ∈ H.vars) → step g = .ok () g' →
    m.Performs program H c0 L x (added g g')

section

variable {m : Machine} {program : List Instr} {t : SymbolTable} {limit : Nat}
  {scope : Option String} {H : Home} {c0 : Config} {L : Exit} {g g' : Generator} {e : Expr}
  {call : String → List Int → Run Int Unit Unit (Option Int)} {loops : Nat}

/-- The growth of the generator over statements. -/
theorem growth_codes (hg : Inside t limit scope g)
    (hover : ∀ s ∈ body, s.Over (names t limit scope)) (h : Stmt.codes body g = .ok () g') :
    Growth [] g g' := by
  have hemits : g.Emits ⟨names t limit scope, true, []⟩ (Stmt.codes body) [] _ :=
    emits_codes (fun s hs => emits_stmt (hover s hs)) g hg.knows
  exact (hemits.of_ok h).1.toGrowth

theorem growth_stmt {s : Stmt} (hg : Inside t limit scope g) (hover : s.Over (names t limit scope))
    (h : s.code g = .ok () g') : Growth [] g g' := by
  have hemits : g.Emits ⟨names t limit scope, true, []⟩ s.code [] _ := emits_stmt hover g hg.knows
  exact (hemits.of_ok h).1.toGrowth

theorem realizes_codes (hover : ∀ s ∈ body, s.Over (names t limit scope))
    (h : ∀ s ∈ body, m.Realizes program t limit scope H c0 L s.code (s.exec (.integer m) call loops)) :
    m.Realizes program t limit scope H c0 L (Stmt.codes body)
      (Stmt.execAll (.integer m) call loops body) := by
  induction body with
  | nil =>
    intro g g' _ _ _ hrun
    rw [Stmt.codes] at hrun
    cases hrun
    rw [added_self]
    exact .nil
  | cons s rest ih =>
    intro g g' hg hframe hvars hrun
    rw [Stmt.codes] at hrun
    obtain ⟨_, g1, hfirst, hrun⟩ := bind_eq_ok.mp hrun
    have hgrowth := growth_stmt hg (hover s (.head _)) hfirst
    have hg1 := hg.growth hgrowth
    have hrest := fun x hx => hover x (.tail s hx)
    have hgrowth' := growth_codes hg1 hrest hrun
    rw [hgrowth.added_trans hgrowth']
    refine .cons ?_ ?_
    · exact h s (.head _) hg hframe (vars_of_growth hgrowth' hvars) hfirst
    · exact ih hrest (fun x hx => h x (.tail s hx)) hg1 (hgrowth.frame.trans hframe) hvars hrun

theorem realizes_assign (ht : (names t limit scope).var target)
    (hover : e.Over (names t limit scope))
    (h : m.Evaluates program t limit scope H call e) :
    m.Realizes program t limit scope H c0 L (Stmt.assign target e).code
      ((Stmt.assign target e).exec (.integer m) call loops) := by
  intro g g' hg hframe hvars hrun
  rw [Stmt.code] at hrun
  obtain ⟨a, g1, hcode, hrun⟩ := bind_eq_ok.mp hrun
  obtain ⟨v, g2, hvar, hrun⟩ := bind_eq_ok.mp hrun
  cases hrun
  have hgrowth := growth_code hg hover hcode
  have hg1 := hg.growth hgrowth
  obtain ⟨hstep, hadded, rfl, hmem⟩ :=
    (emits_variableOf (K := ⟨names t limit scope, false, []⟩) hg1.knows ht).of_ok hvar
  have hvars2 : ∀ v ∈ g2.segment.declared, v ∈ H.vars := hvars
  have hframe1 := hgrowth.frame.trans hframe
  obtain ⟨_, hcomputes⟩ := h hg hframe (vars_of_growth hstep.toGrowth hvars2) hcode
  have hall : added g (g2.extend [.move ⟨g1.segment.frame, bareName target⟩ a]) =
      added g g1 ++ [.move ⟨g1.segment.frame, bareName target⟩ a] := by
    rw [added_extend (hgrowth.trans hstep.toGrowth) g2 rfl, hgrowth.added_trans hstep.toGrowth,
      hadded, List.append_nil]
  rw [hframe1] at hmem hall
  have hperforms : m.Performs program H c0 L
      ((Stmt.assign target e).exec (.integer m) call loops)
      (added g g1 ++ [.move ⟨H.frame, bareName target⟩ a]) :=
    .assign ht.1.1 (hvars2 _ hmem) hcomputes
  rw [← hall] at hperforms
  rw [hframe1]
  exact hperforms

/-- An expression whose value is not used. -/
theorem realizes_value (h : m.Evaluates program t limit scope H call e) :
    m.Realizes program t limit scope H c0 L (do let _ ← e.code)
      (do let _ ← e.eval (.integer m) call; pure .normal) := by
  intro g g' hg hframe hvars hrun
  obtain ⟨a, g1, hcode, hrun⟩ := bind_eq_ok.mp hrun
  cases hrun
  obtain ⟨_, hcomputes⟩ := h hg hframe hvars hcode
  refine .evaluate hcomputes fun s flow s' hx => ?_
  obtain ⟨v, s1, hv, hx⟩ := bind_eq_ok.mp hx
  cases hx
  exact ⟨rfl, v, hv⟩

theorem realizes_perform (hanswers : m.Answers program (names t limit scope).callee call)
    (hcallee : (names t limit scope).callee name args.length)
    (hover : ∀ e ∈ args, e.Over (names t limit scope))
    (h : ∀ e ∈ args, m.Evaluates program t limit scope H call e) :
    m.Realizes program t limit scope H c0 L (Stmt.expr (.call name args)).code
      ((Stmt.expr (.call name args)).exec (.integer m) call loops) := by
  intro g g' hg hframe hvars hrun
  rw [Stmt.code] at hrun
  obtain ⟨g1, hpushes, rfl⟩ := callCode_ok hrun
  have hgrowth := growth_pushes hg hover hpushes
  rw [added_extend hgrowth g1 rfl]
  exact .perform (generates_pushes hg hframe hvars hover h hpushes) hanswers hcallee

theorem realizes_ret (hleaves : m.Leaves program H c0 L scope)
    (hover : e.Over (names t limit scope))
    (h : m.Evaluates program t limit scope H call e) :
    m.Realizes program t limit scope H c0 L (Stmt.ret (some e)).code
      ((Stmt.ret (some e)).exec (.integer m) call loops) := by
  intro g g' hg hframe hvars hrun
  rw [Stmt.code] at hrun
  obtain ⟨_, g1, hvalue, rfl⟩ := returnCode_ok hrun
  obtain ⟨a, _, hcode, hvalue⟩ := bind_eq_ok.mp hvalue
  cases hvalue
  have hgrowth := growth_code hg hover hcode
  have hvars1 : ∀ v ∈ g1.segment.declared, v ∈ H.vars := hvars
  obtain ⟨_, hcomputes⟩ := h hg hframe hvars1 hcode
  rw [(hg.growth hgrowth).function, added_extend hgrowth g1 rfl]
  exact .ret hleaves hcomputes

theorem realizes_ret_none (hleaves : m.Leaves program H c0 L scope) :
    m.Realizes program t limit scope H c0 L (Stmt.ret none).code
      ((Stmt.ret none).exec (.integer m) call loops) := by
  intro g g' hg hframe hvars hrun
  rw [Stmt.code] at hrun
  obtain ⟨_, g1, hvalue, rfl⟩ := returnCode_ok hrun
  cases hvalue
  rw [hg.function, added_extend (.refl g) g rfl, added_self, List.nil_append]
  exact .ret_none hleaves

section

variable (hP : Distinct program) {cond : Expr} (hover : cond.Over (names t limit scope))
  (hcond : m.Decides program t limit scope H call cond)

include hP hover hcond

theorem realizes_ifElse (hthen : ∀ s ∈ thenBody, s.Over (names t limit scope))
    (helse : ∀ s ∈ elseBody, s.Over (names t limit scope))
    (iht : m.Realizes program t limit scope H c0 L (Stmt.codes thenBody)
      (Stmt.execAll (.integer m) call loops thenBody))
    (ihe : m.Realizes program t limit scope H c0 L (Stmt.codes elseBody)
      (Stmt.execAll (.integer m) call loops elseBody)) :
    m.Realizes program t limit scope H c0 L (Stmt.ifElse cond thenBody (some elseBody)).code
      ((Stmt.ifElse cond thenBody (some elseBody)).exec (.integer m) call loops) := by
  intro g g' hg hframe hvars hrun
  rw [Stmt.code] at hrun
  obtain ⟨l, l', a, g1, g2, g3, hc, ht, he, rfl⟩ := ifElseCode_ok hrun
  have hg0 := hg.withLabel
  have hgrowth1 := growth_truth hg0 hover hc
  have hg1 := (hg0.growth hgrowth1).extend [.jumpIfEq l a (.bool false)]
  have hgrowth2 := growth_codes hg1 hthen ht
  have hg2 := (hg1.growth hgrowth2).extend [.jump l', .label l]
  have hgrowth3 := growth_codes hg2 helse he
  have hvars3 : ∀ v ∈ g3.segment.declared, v ∈ H.vars := hvars
  have hvars2 : ∀ v ∈ g2.segment.declared, v ∈ H.vars := (vars_of_growth hgrowth3 hvars3 :)
  have hvars1 : ∀ v ∈ g1.segment.declared, v ∈ H.vars := (vars_of_growth hgrowth2 hvars2 :)
  have hframe0 : g.withLabel.segment.frame = H.frame := hframe
  have hframe1 := hgrowth1.frame.trans hframe0
  have hframe2 := hgrowth2.frame.trans hframe1
  obtain ⟨_, hcomputes⟩ := hcond hg0 hframe0 hvars1 hc
  have hall : added g (g3.extend [.label l']) = added g.withLabel g1 ++
      .jumpIfEq l a (.bool false) :: (added (g1.extend [.jumpIfEq l a (.bool false)]) g2 ++
        .jump l' :: .label l :: (added (g2.extend [.jump l', .label l]) g3 ++ [.label l'])) := by
    refine added_eq ?_
    rw [body_extend, hgrowth3.body, body_extend, hgrowth2.body, body_extend, hgrowth1.body]
    simp only [List.append_assoc, List.cons_append, List.nil_append]
    rfl
  rw [hall]
  exact .branch hP hcomputes (iht hg1 hframe1 hvars2 ht) (ihe hg2 hframe2 hvars3 he)

theorem realizes_whileLoop (hbody : ∀ s ∈ body, s.Over (names t limit scope))
    (ih : m.Realizes program t limit scope H c0 L (Stmt.codes body)
      (Stmt.execAll (.integer m) call loops body)) :
    m.Realizes program t limit scope H c0 L (Stmt.whileLoop cond body).code
      ((Stmt.whileLoop cond body).exec (.integer m) call loops) := by
  intro g g' hg hframe hvars hrun
  rw [Stmt.code] at hrun
  obtain ⟨l, l', a, g1, g2, hc, hb, rfl⟩ := whileLoopCode_ok hrun
  have hg0 := hg.withLabel.extend [.label l']
  have hgrowth1 := growth_truth hg0 hover hc
  have hg1 := (hg0.growth hgrowth1).extend [.jumpIfEq l a (.bool false)]
  have hgrowth2 := growth_codes hg1 hbody hb
  have hvars2 : ∀ v ∈ g2.segment.declared, v ∈ H.vars := hvars
  have hvars1 : ∀ v ∈ g1.segment.declared, v ∈ H.vars := (vars_of_growth hgrowth2 hvars2 :)
  have hframe0 : (g.withLabel.extend [.label l']).segment.frame = H.frame := hframe
  have hframe1 := hgrowth1.frame.trans hframe0
  obtain ⟨_, hcomputes⟩ := hcond hg0 hframe0 hvars1 hc
  have hall : added g (g2.extend [.jump l', .label l]) =
      .label l' :: (added (g.withLabel.extend [.label l']) g1 ++ .jumpIfEq l a (.bool false) ::
        (added (g1.extend [.jumpIfEq l a (.bool false)]) g2 ++ [.jump l', .label l])) := by
    refine added_eq ?_
    rw [body_extend, hgrowth2.body, body_extend, hgrowth1.body, body_extend]
    simp only [List.append_assoc, List.cons_append, List.nil_append]
    rfl
  rw [hall]
  exact .loop hP hcomputes (ih hg1 hframe1 hvars2 hb)

end

/-- The code of an integer statement does what the statement does. -/
theorem realizes_stmt (hP : Distinct program) (ht : t.Integer)
    (hanswers : m.Answers program (names t limit scope).callee call)
    (hleaves : m.Leaves program H c0 L scope) {s : Stmt} (hover : s.Over (names t limit scope))
    (hint : s.isInteger = true) :
    m.Realizes program t limit scope H c0 L s.code (s.exec (.integer m) call loops) := by
  have hexpr : ∀ {e : Expr}, e.Over (names t limit scope) → e.isInteger = true → _ ∧ _ :=
    fun hover hint => generates_expr (H := H) hP ht hanswers hover hint
  induction hover with
  | @assign target value hx hv =>
    exact realizes_assign hx hv (hexpr hv hint).1
  | @expr value hv =>
    have hvalue : value.isInteger = true → m.Realizes program t limit scope H c0 L
        (do let _ ← value.code) (do let _ ← value.eval (.integer m) call; pure .normal) :=
      fun hint => realizes_value (hexpr hv hint).1
    cases hv with
    | @call name args hcallee hargs =>
      have hints : Expr.allInteger args = true := (Bool.and_eq_true_iff.mp hint).2
      exact realizes_perform hanswers hcallee hargs fun e he =>
        (hexpr (hargs e he) (Expr.allInteger_iff.mp hints e he)).1
    | _ =>
      simpa only [Stmt.code, Stmt.exec, Expr.perform, bind_assoc, pure_bind] using hvalue hint
  | @ret value h =>
    cases value with
    | none => exact realizes_ret_none hleaves
    | some e => exact realizes_ret hleaves (h e rfl) (hexpr (h e rfl) hint).1
  | @block body h ih =>
    have hints := Stmt.allInteger_iff.mp hint
    have hcodes := realizes_codes h fun s hs => ih s hs (hints s hs)
    simpa only [Stmt.code, Stmt.exec] using hcodes
  | @ifElse cond thenBody elseBody hc hthen helse iht ihe =>
    cases elseBody with
    | none =>
      obtain ⟨hintc, hintt⟩ := Bool.and_eq_true_iff.mp hint
      have hints := Stmt.allInteger_iff.mp hintt
      have hboth := realizes_ifElse hP hc (hexpr hc hintc).2 hthen (List.forall_mem_nil _)
        (realizes_codes hthen fun s hs => iht s hs (hints s hs))
        (realizes_codes (List.forall_mem_nil _) (List.forall_mem_nil _))
      simpa only [Stmt.code, Stmt.codes, Stmt.exec, Stmt.execAll] using hboth
    | some elseBody =>
      obtain ⟨hint, hinte⟩ := Bool.and_eq_true_iff.mp hint
      obtain ⟨hintc, hintt⟩ := Bool.and_eq_true_iff.mp hint
      have hints := Stmt.allInteger_iff.mp hintt
      have hints' := Stmt.allInteger_iff.mp hinte
      exact realizes_ifElse hP hc (hexpr hc hintc).2 hthen (helse _ rfl)
        (realizes_codes hthen fun s hs => iht s hs (hints s hs))
        (realizes_codes (helse _ rfl) fun s hs => ihe _ rfl s hs (hints' s hs))
  | @whileLoop cond body hc hb ih =>
    obtain ⟨hintc, hintb⟩ := Bool.and_eq_true_iff.mp hint
    have hints := Stmt.allInteger_iff.mp hintb
    exact realizes_whileLoop hP hc (hexpr hc hintc).2 hb
      (realizes_codes hb fun s hs => ih s hs (hints s hs))

end

end Ifj22.Machine
