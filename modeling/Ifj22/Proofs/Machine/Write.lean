import Ifj22.Proofs.Machine.Computes
set_option autoImplicit false

/-!
# Machine: frames of calls, and the routine of `write`

Code that is called works in a frame of its own: it declares its variables there, and leaves the frame
with its result to the caller.  `write` calls itself for the arguments before the last one, so however
many there are, they are printed in order.
-/

namespace Ifj22.Machine

open Code

variable {m : Machine} {program : List Instr} {R : Config → Prop} {c c' : Config}
  {code : List Instr} {Q : Config → Prop} {v : Var} {values : List Value}

/-! ## Frames -/

/-- Declarations of variables of a frame. -/
theorem does_declarations {F : Frame} {vars : List Var} : ∀ {c : Config}, vars.Nodup →
    (∀ v ∈ vars, v.frame = F ∧ c.get v = none) → (c.frame? F).isSome = true →
    m.Does program R (vars.map .defVar) (fun c' => Stays F c c' ∧ c'.output = c.output ∧
      (∀ v ∈ vars, (c'.get v).isSome = true) ∧ ∀ v ∉ vars, c'.get v = c.get v) c := by
  induction vars with
  | nil => exact fun _ _ _ => .nil ⟨.refl _, rfl, List.forall_mem_nil _, fun _ _ => rfl⟩
  | cons v vars ih =>
    intro c hnodup hvars hF
    obtain ⟨hnew, hnodup⟩ := List.nodup_cons.mp hnodup
    obtain ⟨⟨rfl, hv⟩, hvars⟩ := List.forall_mem_cons.mp hvars
    have hstays : Stays v.frame c (c.update v none) := stays_update rfl hF none
    have hget : ∀ w, w ≠ v → (c.update v none).get w = c.get w := fun w hne => by
      rw [Config.get_update hF, if_neg hne]
    have hF' : ((c.update v none).frame? v.frame).isSome = true := by
      rw [Config.frame?_update, if_pos rfl, Option.isSome_map, hF]
    refine .defVar hF hv ((ih hnodup (fun w hw => ⟨(hvars w hw).1, ?_⟩) hF').imp ?_)
    · have hne : w ≠ v := fun heq => hnew (heq ▸ hw)
      rw [hget w hne, (hvars w hw).2]
    · rintro c' ⟨hstays', hout, hdeclared, hothers⟩
      refine ⟨hstays.trans hstays', hout.trans (Config.update_output ..), ?_, fun w hw => ?_⟩
      · refine List.forall_mem_cons.mpr ⟨hstays'.declared v.name ?_, hdeclared⟩
        rw [Config.get_update hF, if_pos rfl]
        rfl
      · obtain ⟨hne, hw⟩ := not_or.mp (mt List.mem_cons.mpr hw)
        rw [hothers w hw, hget w hne]

/-- The start of code that was called, in a frame of its own. -/
def Config.entered (c : Config) (back : List Instr) : Config :=
  { c with calls := back :: c.calls, lf := (fun _ => none) :: c.lf, tf := none }

/-- The code called enters a frame with a variable for its result, which is nil then, and variables of
its own. -/
theorem does_enter (vars : List Var) {back : List Instr} (hnodup : vars.Nodup)
    (hvars : ∀ v ∈ vars, v.frame = .lf) (hresult : Var.result ∉ vars)
    (htf : c.tf = some fun _ => none)
    (h : ∀ c', Stays .lf (c.entered back) c' → c'.output = c.output →
      c'.get Var.result = some (some .nil) → (∀ v ∈ vars, (c'.get v).isSome = true) →
      m.Does program R code Q c') :
    m.Does program R (.pushFrame :: .defVar Var.result :: .move Var.result .nil ::
      (vars.map .defVar ++ code)) Q { c with calls := back :: c.calls } := by
  have hstays : Stays .lf (c.entered back) ((c.entered back).update Var.result none) :=
    stays_update (v := Var.result) rfl rfl none
  have hget : ((c.entered back).update Var.result none).get Var.result = some none := by
    rw [Config.get_update rfl, if_pos rfl]
  have hsome : (((c.entered back).update Var.result none).get Var.result).isSome = true := by
    rw [hget]
    rfl
  have hstays' := hstays.trans (stays_update rfl (Config.isSome_frame? hsome) (some .nil))
  refine .pushFrame htf (.defVar rfl rfl (.move rfl hsome ?_))
  refine (does_declarations hnodup (fun v hv => ⟨hvars v hv, ?_⟩) rfl).append ?_
  · have hne : v ≠ Var.result := fun heq => hresult (heq ▸ hv)
    show (((c.entered back).update Var.result none).update Var.result (some .nil)).get v = none
    rw [Config.get_update (Config.isSome_frame? hsome), if_neg hne, Config.get_update rfl, if_neg hne,
      Config.get, hvars v hv]
    rfl
  · rintro c' ⟨hstays'', hout, hdeclared, hothers⟩
    refine h c' (hstays'.trans hstays'') hout ?_ hdeclared
    exact (hothers _ hresult).trans
      ((Config.get_update (Config.isSome_frame? hsome) _ _).trans (if_pos rfl))

/-- The code called leaves its frame and goes back, and the caller finds the result. -/
theorem does_leave {back : List Instr} {x : Option Value} (hcalls : c'.calls = back :: c.calls)
    (houter : c'.outer .lf = (c.lf, some c.gf)) (hresult : c'.get Var.result = some x) :
    m.Does program (fun d => d.code = back ∧ Returns c'.stack c'.output c d ∧
      d.get Var.returned = some x) (.popFrame :: .ret :: code) Q c' := by
  obtain ⟨houter, hgf⟩ := Prod.mk.inj houter
  have hframe : c'.lf.head?.bind (· "%retval") = some x := hresult
  obtain ⟨frame, hhead, hframe⟩ := Option.bind_eq_some_iff.mp hframe
  obtain ⟨frames, hlf⟩ := List.head?_eq_some_iff.mp hhead
  refine .popFrame hlf (.ret hcalls ⟨rfl, ⟨rfl, rfl, Option.some.inj hgf, ?_, rfl⟩, hframe⟩)
  rw [hlf] at houter
  exact houter

/-- A value that is taken from the stack. -/
theorem stays_pop (stack : List Value) (h : (c.get v).isSome = true) (x : Value) :
    Stays v.frame { c with stack := stack } (Config.update { c with stack := stack } v (some x)) :=
  stays_update rfl (Config.isSome_frame? (c := { c with stack := stack }) h) _

theorem get_pop (stack : List Value) (h : (c.get v).isSome = true) (x : Value) (w : Var) :
    (Config.update { c with stack := stack } v (some x)).get w =
      if w = v then some (some x) else c.get w :=
  Config.get_update (Config.isSome_frame? (c := { c with stack := stack }) h) _ w

/-! ## The routine of `write` -/

/-- The code of `write` that is skipped if there is nothing to print. -/
def printOne : List Instr :=
  [.pop (Routine.lf "value"), .binary .sub (Routine.lf "count") (Routine.lf "count") (.int 1),
   .push (Routine.lf "count"), .createFrame, .call Routine.write.entry, .write (Routine.lf "value")]

/-- The code of `write` behind the place where it takes the number of its arguments. -/
def printAll : List Instr :=
  .jumpIfEq (Routine.write.inside "end") (Routine.lf "count") (.int 0) ::
    (printOne ++ .label (Routine.write.inside "end") :: [.popFrame, .ret])

/-- In `write`, called from `c`, with so many values to print. -/
structure Printing (c : Config) (back : List Instr) (count : Int) (c' : Config) : Prop where
  calls : c'.calls = back :: c.calls
  outer : c'.outer .lf = (c.lf, some c.gf)
  output : c'.output = c.output
  count : c'.get (Routine.lf "count") = some (some (.int count))
  value : (c'.get (Routine.lf "value")).isSome = true
  result : c'.get Var.result = some (some .nil)

/-- The values have been printed in their order, the stack is as given and nil is left as the result;
the frames of the caller are as they were. -/
def Printed (m : Machine) (values stack : List Value) (c c' : Config) : Prop :=
  Returns stack (c.output ++ String.join (values.map m.text)) c c' ∧
    c'.get Var.returned = some (some .nil)

section

variable (hP : Distinct program) {rest : List Instr}
  (hplace : (Routine.body .write ++ rest) <:+ program)

include hP hplace

/-- A call of `write`, from where it has taken the number of its arguments. -/
theorem runs_call_write {count : Int} {below stack : List Value}
    (hstack : c.stack = .int count :: below) (htf : c.tf = some fun _ => none)
    (h : ∀ back c', Printing c back count c' → c'.stack = below →
      m.Does program (fun d => d.code = back ∧ m.Printed values stack c d) printAll
        (fun _ => False) c')
    (back : List Instr) :
    ∃ c', m.Runs program (c.goto (.call Routine.write.entry :: back)) (c'.goto back) ∧
      m.Printed values stack c c' := by
  refine Does.runs_call hP hplace (fun back => ?_) back
  refine does_enter [Routine.lf "count", Routine.lf "value"] (by decide) (by decide) (by decide) htf
    fun c1 hstays hout hresult hdeclared => ?_
  have hsome := hdeclared (Routine.lf "count") (by decide)
  have hupdate := stays_pop below hsome (.int count)
  have hget := get_pop below hsome (.int count)
  refine .pop (hstays.stack.trans hstack) hsome (h back _ ?_ hupdate.stack)
  exact {
    calls := hupdate.calls.trans hstays.calls
    outer := hupdate.outer.trans hstays.outer
    output := (Config.update_output ..).trans hout
    count := (hget _).trans (if_pos rfl)
    value := hupdate.declared _ (hdeclared (Routine.lf "value") (by decide))
    result := (hget _).trans ((if_neg (by decide)).trans hresult) }

/-- `write` prints its arguments, the one on top of the stack last. -/
theorem runs_write : ∀ {c : Config} {stack : List Value},
    m.Counts values.length → c.stack = .int values.length :: (values ++ stack) →
    c.tf = some (fun _ => none) → ∀ back, ∃ c',
      m.Runs program (c.goto (.call Routine.write.entry :: back)) (c'.goto back) ∧
        m.Printed values.reverse stack c c' := by
  -- the values above the last one are printed by the call that `write` makes of itself
  induction values with
  | nil =>
    intro c stack _ hstack htf
    refine runs_call_write hP hplace hstack htf fun back c1 hc1 hstack1 => ?_
    have hjumps : Does.Jumps m program (.jumpIfEq (Routine.write.inside "end") (Routine.lf "count")
        (.int 0)) (Routine.write.inside "end") true c1 :=
      Does.jumps_jumpIfEq (Config.value?_of_get hc1.count) rfl rfl
    refine .jump hP _ hjumps ((does_leave hc1.calls hc1.outer hc1.result).mono (fun _ => id) ?_)
    rintro d ⟨hcode, hreturns, hnil⟩
    rw [hstack1, hc1.output] at hreturns
    refine ⟨hcode, ?_, hnil⟩
    simpa using hreturns
  | cons v values ih =>
    intro c stack hcounts hstack htf
    have hne : ((values.length + 1 : Nat) : Int) ≠ (0 : Int64).toInt := by simp; omega
    refine runs_call_write hP hplace hstack htf fun back c1 hc1 hstack1 => ?_
    have hjumps : Does.Jumps m program (.jumpIfEq (Routine.write.inside "end") (Routine.lf "count")
        (.int 0)) (Routine.write.inside "end") false c1 :=
      Does.jumps_jumpIfEq (Config.value?_of_get hc1.count) rfl
        (congrArg some (beq_eq_false_iff_ne.mpr hne))
    refine .stay hjumps (.pop hstack1 hc1.value ?_)
    -- what the frame holds when the value is taken and counted
    rw [List.length_cons] at hcounts
    have hupdate := stays_pop (values ++ stack) hc1.value v
    have hget := get_pop (values ++ stack) hc1.value v
    have hcount := (hget (Routine.lf "count")).trans ((if_neg (by decide)).trans hc1.count)
    have hsub : m.binaryOp .sub (.int (values.length + 1 : Nat)) (.int (1 : Int64).toInt) =
        some (.int values.length) := by
      have hexact : ((values.length + 1 : Nat) : Int) - (1 : Int64).toInt = values.length := by
        simp
      rw [binaryOp, hexact, hcounts _ (Nat.le_succ _), Option.map_some]
    have hsome := Option.isSome_of_eq_some hcount
    have hupdate' := stays_update rfl (Config.isSome_frame? hsome) (some (.int values.length))
    have hget' := Config.get_update (Config.isSome_frame? hsome) (some (.int values.length))
    refine .binary (Config.value?_of_get hcount) rfl hsub hsome ?_
    refine .push (Config.value?_update hsome _) (.createFrame ?_)
    refine .of_runs (ih (fun k hk => hcounts k (Nat.le_succ_of_le hk)) rfl rfl) ?_
    rintro c2 ⟨hc2, -⟩
    have hvalue : c2.get (Routine.lf "value") = some (some v) := by
      rw [hc2.get_eq (by decide)]
      exact (hget' _).trans ((if_neg (by decide)).trans ((hget _).trans (if_pos rfl)))
    have hresult : c2.get Var.result = some (some .nil) := by
      rw [hc2.get_eq (by decide)]
      exact (hget' _).trans ((if_neg (by decide)).trans ((hget _).trans
        ((if_neg (by decide)).trans hc1.result)))
    have hkeeps : Keeps .lf 0 _ c2 := hc2.keeps (by decide)
    have hcalls := hkeeps.calls.trans (hupdate'.calls.trans (hupdate.calls.trans hc1.calls))
    have houter := hkeeps.outer.trans (hupdate'.outer.trans (hupdate.outer.trans hc1.outer))
    refine .write (Config.value?_of_get hvalue) (.label ?_)
    have hleave : m.Does program _ [.popFrame, .ret] (fun _ => False)
        { c2 with output := c2.output ++ m.text v } :=
      does_leave (c := c) hcalls houter hresult
    refine hleave.mono (fun _ => id) ?_
    rintro d ⟨hcode, hreturns, hnil⟩
    have hout : c2.output ++ m.text v =
        c.output ++ String.join ((v :: values).reverse.map m.text) := by
      have hsame : c2.output = c.output ++ String.join (values.reverse.map m.text) :=
        hc2.output.trans (congrArg (· ++ _) hc1.output)
      rw [hsame, List.reverse_cons, List.map_append, String.join_append, ← String.append_assoc]
      simp
    simp only [hc2.stack, hout] at hreturns
    exact ⟨hcode, hreturns, hnil⟩

end

/-- Operands that are pushed one after the other. -/
theorem runs_pushes (back : List Instr) : ∀ {args : List Operand} {values : List Value} {c : Config},
    args.map c.value? = values.map some → m.Runs program (c.goto (args.map .push ++ back))
      (Config.goto { c with stack := values.reverse ++ c.stack } back)
  | [], [], c, _ => .refl
  | a :: args, v :: values, c, h => by
    obtain ⟨ha, hargs⟩ := List.cons.inj h
    have hrest := runs_pushes back (c := { c with stack := v :: c.stack }) hargs
    rw [List.reverse_cons, List.append_assoc, List.singleton_append]
    exact .head ((step_push rfl).mpr ⟨v, ha, rfl⟩) hrest

section

variable (hP : Distinct program) {rest : List Instr}
  (hplace : (Routine.body .write ++ rest) <:+ program)

include hP hplace

/-- A call of `write` with its arguments and their number on the stack. -/
theorem runs_write_arguments (hcounts : m.Counts values.length) (c : Config) (back : List Instr) :
    ∃ c', m.Runs program (Config.goto
        { c with stack := .int values.length :: (values.reverse ++ c.stack) }
        (.createFrame :: .call Routine.write.entry :: back)) (c'.goto back) ∧
      m.Printed values c.stack c c' := by
  rw [← values.length_reverse] at hcounts ⊢
  obtain ⟨c', hrun, hreturns, hnil⟩ := runs_write hP hplace hcounts (c := { c with
    stack := .int values.reverse.length :: (values.reverse ++ c.stack),
    tf := some fun _ => none }) rfl rfl back
  rw [List.reverse_reverse] at hreturns
  exact ⟨c', .head (step_createFrame rfl) hrun,
    ⟨hreturns.stack, hreturns.calls, hreturns.gf, hreturns.lf, hreturns.output⟩, hnil⟩

/-- A call of `write` with its arguments and their number on the stack comes back, and has printed the
arguments in their order.  Where code pushes them, the number is an operand, so every machine can count
that far. -/
theorem write_prints_in_order (c : Config) (back : List Instr) :
    (∀ values : List Value, m.Counts values.length → ∃ c', m.Runs program
        (Config.goto { c with stack := .int values.length :: (values.reverse ++ c.stack) }
          (.createFrame :: .call Routine.write.entry :: back))
        (c'.goto back) ∧ m.Printed values c.stack c c') ∧
    ∀ (args : List Operand) (values : List Value) (n : Int64),
      args.map c.value? = values.map some → n.toInt = values.length → ∃ c', m.Runs program
        (c.goto (args.map .push ++
          .push (.int n) :: .createFrame :: .call Routine.write.entry :: back))
        (c'.goto back) ∧ m.Printed values c.stack c c' := by
  refine ⟨fun values hcounts => runs_write_arguments hP hplace hcounts c back, ?_⟩
  intro args values n hargs hn
  have hsmall : values.length < 2 ^ 63 := by
    have := n.toInt_lt
    omega
  obtain ⟨c', hrun, hc'⟩ := runs_write_arguments hP hplace (m.counts_of_lt hsmall) c back
  rw [← hn] at hrun
  exact ⟨c', (runs_pushes _ hargs).trans (.head ((step_push rfl).mpr ⟨_, rfl, rfl⟩) hrun), hc'⟩

end

/-- The routine of `write` alone, called with values of four types, one of them from the frame of the
caller, above a value that is not an argument. -/
theorem write_prints_in_order_mixed : Distinct (Routine.body .write) ∧
    ∃ c' : Config, unbounded.Runs (Routine.body .write)
        { Config.start [.push (.int (-7)), .push (.var (Routine.lf "x")), .push .nil,
            .push (.bool true), .push (.int 4), .createFrame, .call Routine.write.entry] [] with
          lf := [fun _ => some (some (.str " < "))], stack := [.bool false], output := "> " }
        (c'.goto []) ∧
      c'.output = "> -7 < true" ∧ c'.stack = [.bool false] ∧ c'.get Var.returned = some (some .nil) := by
  have hP : Distinct (Routine.body .write) := by
    unfold Distinct
    decide +kernel
  have hplace : (Routine.body .write ++ []) <:+ Routine.body .write :=
    List.append_nil (Routine.body .write) ▸ List.suffix_refl _
  obtain ⟨c', hrun, hreturns, hnil⟩ := (write_prints_in_order (m := unbounded) hP hplace
    { Config.start [] [] with
      lf := [fun _ => some (some (.str " < "))], stack := [.bool false], output := "> " } []).2
    [.int (-7), .var (Routine.lf "x"), .nil, .bool true] [.int (-7), .str " < ", .nil, .bool true] 4
    rfl rfl
  have htext : "> " ++ String.join ([Value.int (-7), .str " < ", .nil, .bool true].map unbounded.text) =
      "> -7 < true" := by decide +kernel
  exact ⟨hP, c', hrun, hreturns.output.trans htext, hreturns.stack, hnil⟩

end Ifj22.Machine
