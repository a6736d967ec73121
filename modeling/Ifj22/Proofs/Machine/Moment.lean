import Ifj22.Proofs.Code.Held
import Ifj22.Proofs.Machine.Steps
set_option autoImplicit false

/-!
# Machine: moments of a run

A moment is a configuration of a run together with what it comes from: the moments at which the
values on the data stack were pushed, and the moments at which the calls were made that have not
returned.  Every configuration of a run has such a moment, and what a run pops or returns to is what
it pushed or called there.
-/

namespace Ifj22

namespace Machine

open Code

/-- A configuration of a run and what it comes from.  The lists hold whole moments: what a
function takes off the stack is compared with the place and the value of its push, and a return
with its call. -/
structure Moment where
  config : Config
  /-- When the values on the data stack were pushed, the top first. -/
  pushes : List Moment
  /-- When the calls were made that have not returned, the innermost one first. -/
  calls : List Moment

namespace Moment

/-- The next moment, given its configuration. -/
def next (M : Moment) (c : Config) : Moment :=
  match M.config.code with
  | .push _ :: _ => ⟨c, M :: M.pushes, M.calls⟩
  | .pop _ :: _ => ⟨c, M.pushes.tail, M.calls⟩
  | .call _ :: _ => ⟨c, M.pushes, M :: M.calls⟩
  | .ret :: _ => ⟨c, M.pushes, M.calls.tail⟩
  | _ => ⟨c, M.pushes, M.calls⟩

/-- The value that is pushed at a moment. -/
def pushed? (M : Moment) : Option Value :=
  match M.config.code with
  | .push a :: _ => M.config.value? a
  | _ => none

theorem config_next (M : Moment) (c : Config) : (M.next c).config = c := by
  unfold next
  split <;> rfl

end Moment

/-- The moments of the runs of a program. -/
inductive Reaches (m : Machine) (program : List Instr) (input : List String) : Moment → Prop
  | start : Reaches m program input ⟨.start program input, [], []⟩
  | step {M : Moment} {c : Config} (h : Reaches m program input M)
    (hstep : m.step program M.config = some c) : Reaches m program input (M.next c)

variable {m : Machine} {program : List Instr} {input : List String}

/-- The moment after so many steps. -/
def after? (m : Machine) (program : List Instr) (input : List String) : Nat → Option Moment
  | 0 => some ⟨.start program input, [], []⟩
  | n + 1 => (after? m program input n).bind fun M => (m.step program M.config).map M.next

/-- What an instruction makes of a moment. -/
inductive Moment.Follows (program : List Instr) (M : Moment) : Moment → Prop
  | quiet {i : Instr} {rest : List Instr} {c : Config} (hcode : M.config.code = i :: rest)
    (hi : i.isQuiet = true) (hc : c.code = rest) (hstack : c.stack = M.config.stack)
    (hcalls : c.calls = M.config.calls) : Follows program M ⟨c, M.pushes, M.calls⟩
  | jump {i : Instr} {l : Label} {rest code : List Instr} (hcode : M.config.code = i :: rest)
    (hi : i.jump? = some l) (hplace : code = rest ∨ target? program l.text = some code) :
    Follows program M ⟨M.config.goto code, M.pushes, M.calls⟩
  | push {a : Operand} {rest : List Instr} {x : Value} (hcode : M.config.code = .push a :: rest)
    (hx : M.config.value? a = some x) :
    Follows program M
      ⟨{ M.config.goto rest with stack := x :: M.config.stack }, M :: M.pushes, M.calls⟩
  | pop {dest : Var} {rest : List Instr} {x : Value} {stack : List Value}
    (hcode : M.config.code = .pop dest :: rest) (hstack : M.config.stack = x :: stack)
    (hdest : (M.config.get dest).isSome = true) :
    Follows program M ⟨Config.update { M.config.goto rest with stack := stack } dest (some x),
      M.pushes.tail, M.calls⟩
  | call {l : Label} {rest code : List Instr} (hcode : M.config.code = .call l :: rest)
    (hplace : target? program l.text = some code) :
    Follows program M
      ⟨{ M.config.goto code with calls := rest :: M.config.calls }, M.pushes, M :: M.calls⟩
  | ret {rest back : List Instr} {calls : List (List Instr)} (hcode : M.config.code = .ret :: rest)
    (hcalls : M.config.calls = back :: calls) :
    Follows program M ⟨{ M.config.goto back with calls := calls }, M.pushes, M.calls.tail⟩

theorem Moment.next_of_quiet {M : Moment} {i : Instr} {rest : List Instr}
    (hcode : M.config.code = i :: rest) (hi : i.isQuiet = true ∨ ∃ l, i.jump? = some l) (c : Config) :
    M.next c = ⟨c, M.pushes, M.calls⟩ := by
  unfold next
  rw [hcode]
  rcases hi with hi | ⟨l, hi⟩ <;> cases i <;> first | rfl | cases hi

/-- A quiet instruction changes variables and output at most. -/
theorem step_quiet {c c' : Config} {i : Instr} {rest : List Instr} (hcode : c.code = i :: rest)
    (hi : i.isQuiet = true) (h : m.step program c = some c') :
    c'.code = rest ∧ c'.stack = c.stack ∧ c'.calls = c.calls := by
  cases i with
  | move dest a =>
    obtain ⟨_, _, _, rfl⟩ := (step_move hcode).mp h
    simp [Config.goto]
  | binary op dest a b =>
    obtain ⟨_, _, _, _, _, _, _, rfl⟩ := (step_binary hcode).mp h
    simp [Config.goto]
  | unary op dest a =>
    by_cases hop : op = .typeOf
    · subst hop
      obtain ⟨_, _, _, rfl⟩ := (step_typeOf hcode).mp h
      simp [Config.goto]
    · obtain ⟨_, _, _, _, _, rfl⟩ := (step_unary hop hcode).mp h
      simp [Config.goto]
  | read dest kind =>
    obtain ⟨_, rfl⟩ := (step_read hcode).mp h
    simp [Config.goto]
  | write a =>
    obtain ⟨_, _, rfl⟩ := (step_write hcode).mp h
    exact ⟨rfl, rfl, rfl⟩
  | label l =>
    cases (step_label hcode).symm.trans h
    exact ⟨rfl, rfl, rfl⟩
  | createFrame =>
    cases (step_createFrame hcode).symm.trans h
    exact ⟨rfl, rfl, rfl⟩
  | pushFrame =>
    obtain ⟨_, _, rfl⟩ := (step_pushFrame hcode).mp h
    exact ⟨rfl, rfl, rfl⟩
  | popFrame =>
    obtain ⟨_, _, _, rfl⟩ := (step_popFrame hcode).mp h
    exact ⟨rfl, rfl, rfl⟩
  | defVar v =>
    obtain ⟨_, rfl⟩ := (step_defVar hcode).mp h
    simp [Config.goto]
  | _ => cases hi

/-- A jump changes the place only. -/
theorem step_jumps {c c' : Config} {i : Instr} {l : Label} {rest : List Instr}
    (hcode : c.code = i :: rest) (hi : i.jump? = some l) (h : m.step program c = some c') :
    ∃ code, (code = rest ∨ target? program l.text = some code) ∧ c' = c.goto code := by
  cases i with
  | jump l' =>
    cases hi
    obtain ⟨code, htarget, rfl⟩ := (step_jump hcode).mp h
    exact ⟨code, .inr htarget, rfl⟩
  | jumpIfEq l' a b | jumpIfNeq l' a b =>
    cases hi
    rw [step_eq hcode, advance?] at h
    simp only [Option.bind_eq_bind, Option.bind_eq_some_iff] at h
    obtain ⟨_, _, _, _, _, _, h⟩ := h
    split at h
    all_goals first
      | exact ⟨rest, .inl rfl, (Option.some.inj h).symm⟩
      | obtain ⟨code, htarget, rfl⟩ := Config.jump?_eq_some.mp h
        exact ⟨code, .inr htarget, rfl⟩
  | _ => cases hi

/-- Every step is one of the cases. -/
theorem Moment.follows {M : Moment} {c : Config} (h : m.step program M.config = some c) :
    M.Follows program (M.next c) := by
  cases hcode : M.config.code with
  | nil =>
    unfold step at h
    rw [hcode] at h
    cases h
  | cons i rest =>
    have hquiet : i.isQuiet = true → M.Follows program (M.next c) := by
      intro hi
      obtain ⟨hc, hstack, hcalls⟩ := step_quiet hcode hi h
      rw [next_of_quiet hcode (.inl hi)]
      exact .quiet hcode hi hc hstack hcalls
    have hjumps : ∀ l, i.jump? = some l → M.Follows program (M.next c) := by
      intro l hi
      obtain ⟨code, hplace, rfl⟩ := step_jumps hcode hi h
      rw [next_of_quiet hcode (.inr ⟨l, hi⟩)]
      exact .jump hcode hi hplace
    cases i with
    | push a =>
      obtain ⟨x, hx, rfl⟩ := (step_push hcode).mp h
      unfold next
      rw [hcode]
      exact .push hcode hx
    | pop dest =>
      obtain ⟨x, stack, hstack, hdest, rfl⟩ := (step_pop hcode).mp h
      unfold next
      rw [hcode]
      exact .pop hcode hstack hdest
    | call l =>
      obtain ⟨code, hplace, rfl⟩ := (step_call hcode).mp h
      unfold next
      rw [hcode]
      exact .call hcode hplace
    | ret =>
      obtain ⟨back, calls, hcalls, rfl⟩ := (step_ret hcode).mp h
      unfold next
      rw [hcode]
      exact .ret hcode hcalls
    | exit a =>
      rw [step_exit hcode] at h
      cases h
    | jump l | jumpIfEq l _ _ | jumpIfNeq l _ _ => exact hjumps l rfl
    | _ => exact hquiet rfl

/-- What an instruction, with the code behind it, makes of a moment. -/
def Moment.Effect (program : List Instr) (M M' : Moment) (rest : List Instr) : Instr → Prop
  | .push _ => M'.config.code = rest ∧ M'.pushes = M :: M.pushes ∧ M'.calls = M.calls
  | .pop dest => M'.config.code = rest ∧ M'.pushes = M.pushes.tail ∧ M'.calls = M.calls ∧
      ∃ x stack, M.config.stack = x :: stack ∧
        ∀ v, M'.config.get v = if v = dest then some (some x) else M.config.get v
  | .call l => target? program l.text = some M'.config.code ∧ M'.pushes = M.pushes ∧
      M'.calls = M :: M.calls
  | .ret => ∃ back calls, M.config.calls = back :: calls ∧ M'.config.code = back ∧
      M'.pushes = M.pushes ∧ M'.calls = M.calls.tail
  | .exit _ => False
  | .jump l | .jumpIfEq l _ _ | .jumpIfNeq l _ _ =>
    (M'.config.code = rest ∨ target? program l.text = some M'.config.code) ∧
      M'.pushes = M.pushes ∧ M'.calls = M.calls
  | _ => M'.config.code = rest ∧ M'.pushes = M.pushes ∧ M'.calls = M.calls

namespace Moment.Follows

variable {M M' : Moment} {i : Instr} {rest : List Instr}

theorem effect (h : M.Follows program M') (hcode : M.config.code = i :: rest) :
    M.Effect program M' rest i := by
  cases h with
  | quiet hcode' hi hc =>
    cases hcode.symm.trans hcode'
    cases i <;> first | exact ⟨hc, rfl, rfl⟩ | cases hi
  | jump hcode' hi hplace =>
    cases hcode.symm.trans hcode'
    cases i <;> cases hi <;> exact ⟨hplace, rfl, rfl⟩
  | push hcode' =>
    cases hcode.symm.trans hcode'
    exact ⟨rfl, rfl, rfl⟩
  | pop hcode' hstack hdest =>
    cases hcode.symm.trans hcode'
    refine ⟨by rw [Config.update_code]; rfl, rfl, rfl, _, _, hstack, Config.get_update ?_ _⟩
    exact Config.isSome_frame? hdest
  | call hcode' hplace =>
    cases hcode.symm.trans hcode'
    exact ⟨hplace, rfl, rfl⟩
  | ret hcode' hcalls =>
    cases hcode.symm.trans hcode'
    exact ⟨_, _, hcalls, rfl, rfl, rfl⟩

theorem of_quiet (h : M.Follows program M') (hcode : M.config.code = i :: rest)
    (hi : i.isQuiet = true) :
    M'.config.code = rest ∧ M'.pushes = M.pushes ∧ M'.calls = M.calls := by
  have heffect := h.effect hcode
  cases i <;> first | exact heffect | cases hi

theorem of_jump (h : M.Follows program M') (hcode : M.config.code = i :: rest) {l : Label}
    (hi : i.jump? = some l) :
    (M'.config.code = rest ∨ target? program l.text = some M'.config.code) ∧
      M'.pushes = M.pushes ∧ M'.calls = M.calls := by
  have heffect := h.effect hcode
  cases i <;> cases hi <;> exact heffect

/-- Only the present moment becomes a pending call. -/
theorem mem_calls (h : M.Follows program M') {K : Moment} (hK : K ∈ M'.calls) : K = M ∨ K ∈ M.calls := by
  cases h with
  | call => exact List.mem_cons.mp hK
  | ret => exact .inr (List.mem_of_mem_tail hK)
  | quiet | jump | push | pop => exact .inr hK

end Moment.Follows

/-- What holds at the start and is kept by every instruction holds at all moments. -/
theorem Reaches.invariant {P : Moment → Prop} (hstart : P ⟨.start program input, [], []⟩)
    (hstep : ∀ M M', m.Reaches program input M → P M → m.step program M.config = some M'.config →
      M.Follows program M' → P M') {M : Moment} (h : m.Reaches program input M) : P M := by
  induction h with
  | start => exact hstart
  | @step M c hM hrun ih =>
    exact hstep M _ hM ih (hrun.trans (congrArg some (M.config_next c).symm)) (Moment.follows hrun)

/-! ## What a moment comes from -/

/-- The stacks of a moment are those of what it comes from. -/
structure Moment.Sound (m : Machine) (program : List Instr) (input : List String) (M : Moment) :
    Prop where
  stack : M.config.stack.map some = M.pushes.map pushed?
  calls : M.config.calls = M.calls.map (·.config.code.tail)
  /-- A value was pushed onto those below it. -/
  below : ∀ above P rest, M.pushes = above ++ P :: rest →
    m.Reaches program input P ∧ P.pushes = rest
  /-- A call was made inside those around it. -/
  around : ∀ inner K rest, M.calls = inner ++ K :: rest →
    m.Reaches program input K ∧ K.calls = rest ∧ ∃ l, K.config.code = .call l :: K.config.code.tail

/-- Every step keeps the stacks in line with the moments that they come from. -/
theorem Reaches.sound {M : Moment} (h : m.Reaches program input M) : M.Sound m program input := by
  refine h.invariant ⟨rfl, rfl, by simp, by simp⟩ fun M M' hM hsound _ hfollows => ?_
  cases hfollows with
  | quiet _ _ _ hstack hcalls =>
    exact ⟨by rw [hstack, hsound.stack], by rw [hcalls, hsound.calls], hsound.below, hsound.around⟩
  | jump => exact ⟨hsound.stack, hsound.calls, hsound.below, hsound.around⟩
  | @push a _ x hcode hx =>
    refine ⟨?_, hsound.calls, fun above P rest heq => ?_, hsound.around⟩
    · have hpushed : M.pushed? = some x := by
        unfold Moment.pushed?
        rw [hcode]
        exact hx
      rw [List.map_cons, List.map_cons, hpushed, hsound.stack]
    · rcases cons_eq_append_cons heq with ⟨rfl, rfl, rfl⟩ | ⟨above, rfl, hrest⟩
      · exact ⟨hM, rfl⟩
      · exact hsound.below above P rest hrest
  | pop hcode hstack hdest =>
    have hpushes := hsound.stack
    rw [hstack] at hpushes
    cases heq : M.pushes with
    | nil =>
      rw [heq] at hpushes
      cases hpushes
    | cons P pushes =>
      rw [heq, List.map_cons, List.map_cons] at hpushes
      refine ⟨?_, ?_, fun above P' rest hrest => ?_, hsound.around⟩
      · rw [Config.update_stack]
        exact (List.cons.inj hpushes).2
      · rw [Config.update_calls]
        exact hsound.calls
      · exact hsound.below (P :: above) P' rest (by rw [heq, List.cons_append, ← hrest]; rfl)
  | call hcode hplace =>
    refine ⟨hsound.stack, ?_, hsound.below, fun inner K rest heq => ?_⟩
    · rw [List.map_cons, hcode, ← hsound.calls]
      rfl
    · rcases cons_eq_append_cons heq with ⟨rfl, rfl, rfl⟩ | ⟨inner, rfl, hrest⟩
      · exact ⟨hM, rfl, _, by rw [hcode]; rfl⟩
      · exact hsound.around inner K rest hrest
  | ret hcode hcalls =>
    have hpending := hsound.calls
    rw [hcalls] at hpending
    cases heq : M.calls with
    | nil =>
      rw [heq] at hpending
      cases hpending
    | cons K calls =>
      rw [heq, List.map_cons] at hpending
      refine ⟨hsound.stack, (List.cons.inj hpending).2, hsound.below, fun inner K' rest hrest => ?_⟩
      exact hsound.around (K :: inner) K' rest (by rw [heq, List.cons_append, ← hrest]; rfl)

/-- The value on top of the stack is the one that was pushed last. -/
theorem Moment.Sound.top {M A : Moment} {pushes : List Moment} (h : M.Sound m program input)
    (hpushes : M.pushes = A :: pushes) :
    ∃ x stack, M.config.stack = x :: stack ∧ A.pushed? = some x := by
  have hstack := h.stack
  rw [hpushes, List.map_cons] at hstack
  cases hx : M.config.stack with
  | nil =>
    rw [hx] at hstack
    cases hstack
  | cons x stack =>
    rw [hx, List.map_cons] at hstack
    exact ⟨x, stack, rfl, (List.cons.inj hstack).1.symm⟩

/-- Moments that come from the same pushes have the same values on the stack. -/
theorem Reaches.stack_eq {M M' : Moment} (h : m.Reaches program input M)
    (h' : m.Reaches program input M') (heq : M.pushes = M'.pushes) :
    M.config.stack = M'.config.stack := by
  have hmap : M.config.stack.map some = M'.config.stack.map some := by
    rw [h.sound.stack, h'.sound.stack, heq]
  exact List.map_injective_iff.mpr (fun _ _ => Option.some.inj) hmap

end Machine

end Ifj22
