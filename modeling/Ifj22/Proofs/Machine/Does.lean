import Ifj22.Proofs.Machine.Steps
set_option autoImplicit false

/-!
# Machine: what a piece of code does

`Does R code Q c` says what becomes of a configuration in which the code is run, wherever it stands
in the program: the machine comes to the end of the code with `Q`, or it leaves the code before with
`R`.  There is one rule for each instruction and one for each way in which jumps are used: code that
is skipped, two branches, a loop and a call.
-/

namespace Ifj22.Machine

open Code

variable {P : Config → Prop}

namespace Config

variable {c : Config} {v : Var}

@[simp] theorem goto_goto (c : Config) (code code' : List Instr) :
    (c.goto code).goto code' = c.goto code' := rfl

@[simp] theorem goto_code (c : Config) : c.goto c.code = c := rfl

theorem update_goto (c : Config) (v : Var) (x : Option Value) (code : List Instr) :
    (c.goto code).update v x = (c.update v x).goto code := by
  unfold update
  split <;> rfl

theorem value?_of_get {x : Value} (h : c.get v = some (some x)) : c.value? v = some x := by
  rw [value?, h]
  rfl

/-- The value of a variable that has been set. -/
theorem value?_update (h : (c.get v).isSome = true) (x : Value) :
    (c.update v (some x)).value? v = some x := by
  refine value?_of_get ?_
  rw [get_update (isSome_frame? h), if_pos rfl]

end Config

/-- From a place in the program the machine comes to a later place, where `Q` holds, or it comes
elsewhere, and `R` holds there. -/
def Comes (m : Machine) (program : List Instr) (R : Config → Prop) (start stop : List Instr)
    (Q : Config → Prop) (c : Config) : Prop :=
  ∃ c', (m.Runs program (c.goto start) (c'.goto stop) ∧ Q c') ∨
    m.Runs program (c.goto start) c' ∧ R c'

/-- From the configuration the code is run to its end, where `Q` holds, or it is left before, and
`R` holds there.  The code may stand anywhere in the program, so that what is known of parts can
be put together. -/
def Does (m : Machine) (program : List Instr) (R : Config → Prop) (code : List Instr)
    (Q : Config → Prop) (c : Config) : Prop :=
  ∀ rest, (code ++ rest) <:+ program → m.Comes program R (code ++ rest) rest Q c

section

variable {m : Machine} {program start next stop : List Instr} {R : Config → Prop}
  {P Q : Config → Prop} {c c' : Config}

theorem Comes.after (hrun : m.Runs program (c.goto start) (c'.goto next))
    (h : m.Comes program R next stop Q c') : m.Comes program R start stop Q c := by
  obtain ⟨c1, ⟨hrun', hQ⟩ | ⟨hrun', hR⟩⟩ := h
  · exact ⟨c1, .inl ⟨hrun.trans hrun', hQ⟩⟩
  · exact ⟨c1, .inr ⟨hrun.trans hrun', hR⟩⟩

theorem Comes.here (hQ : Q c) : m.Comes program R stop stop Q c := ⟨c, .inl ⟨.refl, hQ⟩⟩

theorem Comes.trans (h : m.Comes program R start next P c)
    (h' : ∀ c', P c' → m.Comes program R next stop Q c') : m.Comes program R start stop Q c := by
  obtain ⟨c1, ⟨hrun, hP⟩ | hleft⟩ := h
  · exact .after hrun (h' c1 hP)
  · exact ⟨c1, .inr hleft⟩

end

namespace Does

variable {m : Machine} {program : List Instr} {R : Config → Prop} {Q : Config → Prop} {c c' : Config}
  {code : List Instr}

/-! ## Sequences -/

theorem nil (h : Q c) : m.Does program R [] Q c := fun _ _ => .here h

theorem mono {Q' R' : Config → Prop} (h : m.Does program R code Q c) (hQ : ∀ c', Q c' → Q' c')
    (hR : ∀ c', R c' → R' c') : m.Does program R' code Q' c := by
  intro rest hrest
  obtain ⟨c', hend | hleft⟩ := h rest hrest
  · exact ⟨c', .inl ⟨hend.1, hQ c' hend.2⟩⟩
  · exact ⟨c', .inr ⟨hleft.1, hR c' hleft.2⟩⟩

theorem imp {Q' : Config → Prop} (h : m.Does program R code Q c) (hQ : ∀ c', Q c' → Q' c') :
    m.Does program R code Q' c :=
  h.mono hQ fun _ h => h

theorem append {first : List Instr} (hfirst : m.Does program R first P c)
    (h : ∀ c', P c' → m.Does program R code Q c') : m.Does program R (first ++ code) Q c := by
  intro rest hrest
  rw [List.append_assoc] at hrest ⊢
  exact (hfirst _ hrest).trans fun c' hP => h c' hP rest ((List.suffix_append ..).trans hrest)

/-! ## Instructions -/

/-- The machine carries out an instruction and goes on behind it. -/
theorem step {i : Instr}
    (hstep : ∀ rest, m.step program (c.goto (i :: rest)) = some (c'.goto rest))
    (h : m.Does program R code Q c') : m.Does program R (i :: code) Q c := by
  intro rest hrest
  exact .after (.single (hstep _)) (h rest ((List.suffix_cons ..).trans hrest))

/-- The machine comes to the place behind an instruction, in whatever steps, and goes on there. -/
theorem of_runs {i : Instr}
    (hrun : ∀ rest, ∃ c', m.Runs program (c.goto (i :: rest)) (c'.goto rest) ∧ P c')
    (h : ∀ c', P c' → m.Does program R code Q c') : m.Does program R (i :: code) Q c := by
  intro rest hrest
  obtain ⟨c', hrun, hc'⟩ := hrun (code ++ rest)
  exact .after hrun (h c' hc' rest ((List.suffix_cons ..).trans hrest))

/-- The code is left by an instruction of it. -/
theorem leave {i : Instr} (hstep : ∀ rest, m.step program (c.goto (i :: rest)) = some c')
    (hR : R c') : m.Does program R (i :: code) Q c :=
  fun _ _ => ⟨c', .inr ⟨.single (hstep _), hR⟩⟩

/-- The machine stops at the start of the code. -/
theorem stop (hR : ∀ rest, R (c.goto (code ++ rest))) : m.Does program R code Q c :=
  fun rest _ => ⟨c.goto (code ++ rest), .inr ⟨.refl, hR rest⟩⟩

variable {dest v : Var} {a b : Operand} {x y z : Value} {l : Label}

theorem move (hx : c.value? a = some x) (hdest : (c.get dest).isSome = true)
    (h : m.Does program R code Q (c.update dest (some x))) :
    m.Does program R (.move dest a :: code) Q c := by
  refine h.step fun rest => (step_move rfl).mpr ⟨x, ?_, hdest, (Config.update_goto ..).symm⟩
  rwa [Config.value?_goto]

theorem binary {op : Binary} (hx : c.value? a = some x) (hy : c.value? b = some y)
    (hz : m.binaryOp op x y = some z) (hdest : (c.get dest).isSome = true)
    (h : m.Does program R code Q (c.update dest (some z))) :
    m.Does program R (.binary op dest a b :: code) Q c := by
  refine h.step fun rest =>
    (step_binary rfl).mpr ⟨x, y, z, ?_, ?_, hz, hdest, (Config.update_goto ..).symm⟩
  · rwa [Config.value?_goto]
  · rwa [Config.value?_goto]

theorem typeOf {s : String} (hs : c.typeName? a = some s) (hdest : (c.get dest).isSome = true)
    (h : m.Does program R code Q (c.update dest (some (.str s)))) :
    m.Does program R (.unary .typeOf dest a :: code) Q c := by
  refine h.step fun rest => (step_typeOf rfl).mpr ⟨s, ?_, hdest, (Config.update_goto ..).symm⟩
  rwa [Config.typeName?_goto]

theorem push (hx : c.value? a = some x)
    (h : m.Does program R code Q { c with stack := x :: c.stack }) :
    m.Does program R (.push a :: code) Q c := by
  refine h.step fun rest => (step_push rfl).mpr ⟨x, ?_, rfl⟩
  rwa [Config.value?_goto]

theorem pop {stack : List Value} (hstack : c.stack = x :: stack) (hdest : (c.get dest).isSome = true)
    (h : m.Does program R code Q (Config.update { c with stack := stack } dest (some x))) :
    m.Does program R (.pop dest :: code) Q c := by
  refine h.step fun rest => (step_pop rfl).mpr ⟨x, stack, hstack, hdest, ?_⟩
  exact (Config.update_goto { c with stack := stack } dest (some x) rest).symm

theorem write (hx : c.value? a = some x)
    (h : m.Does program R code Q { c with output := c.output ++ m.text x }) :
    m.Does program R (.write a :: code) Q c := by
  refine h.step fun rest => (step_write rfl).mpr ⟨x, ?_, rfl⟩
  rwa [Config.value?_goto]

theorem createFrame (h : m.Does program R code Q { c with tf := some fun _ => none }) :
    m.Does program R (.createFrame :: code) Q c :=
  h.step fun _ => step_createFrame rfl

theorem pushFrame {frame : Store} (hframe : c.tf = some frame)
    (h : m.Does program R code Q { c with lf := frame :: c.lf, tf := none }) :
    m.Does program R (.pushFrame :: code) Q c :=
  h.step fun _ => (step_pushFrame rfl).mpr ⟨frame, hframe, rfl⟩

theorem popFrame {frame : Store} {frames : List Store} (hframes : c.lf = frame :: frames)
    (h : m.Does program R code Q { c with lf := frames, tf := some frame }) :
    m.Does program R (.popFrame :: code) Q c :=
  h.step fun _ => (step_popFrame rfl).mpr ⟨frame, frames, hframes, rfl⟩

theorem defVar (hframe : (c.frame? v.frame).isSome = true) (hnew : c.get v = none)
    (h : m.Does program R code Q (c.update v none)) :
    m.Does program R (.defVar v :: code) Q c :=
  h.step fun _ => (step_defVar rfl).mpr ⟨⟨hframe, hnew⟩, (Config.update_goto ..).symm⟩

theorem runs_label (l : Label) (c : Config) (rest : List Instr) :
    m.Runs program (c.goto (.label l :: rest)) (c.goto rest) := .single (step_label rfl)

theorem label (h : m.Does program R code Q c) : m.Does program R (.label l :: code) Q c :=
  h.step fun _ => step_label rfl

/-- A return goes back to where the call was. -/
theorem ret {back : List Instr} {calls : List (List Instr)} (hcalls : c.calls = back :: calls)
    (hR : R { c.goto back with calls := calls }) : m.Does program R (.ret :: code) Q c :=
  leave (fun _ => (step_ret rfl).mpr ⟨back, calls, hcalls, rfl⟩) hR

/-! ## Jumps -/

/-- The instruction jumps to the label if the condition holds, and goes on behind itself if not. -/
def Jumps (m : Machine) (program : List Instr) (i : Instr) (l : Label) (taken : Bool) (c : Config) :
    Prop :=
  ∀ rest, m.step program (c.goto (i :: rest)) =
    if taken = true then c.jump? program l else some (c.goto rest)

theorem jumps_jump : Jumps m program (.jump l) l true c := fun _ => rfl

theorem jumps_jumpIfEq {same : Bool} (hx : c.value? a = some x) (hy : c.value? b = some y)
    (hsame : equal? x y = some same) : Jumps m program (.jumpIfEq l a b) l same c := by
  intro rest
  rw [step_eq rfl, advance?]
  simp only [Config.goto_goto, Config.value?_goto, hx, hy, hsame, Option.bind_eq_bind,
    Option.bind_some]
  rfl

theorem jumps_jumpIfNeq {same : Bool} (hx : c.value? a = some x) (hy : c.value? b = some y)
    (hsame : equal? x y = some same) : Jumps m program (.jumpIfNeq l a b) l (!same) c := by
  intro rest
  rw [step_eq rfl, advance?]
  simp only [Config.goto_goto, Config.value?_goto, hx, hy, hsame, Option.bind_eq_bind,
    Option.bind_some]
  cases same <;> rfl

section

variable {i : Instr} {taken : Bool}

/-- The code behind a jump that is not taken. -/
theorem stay (hi : Jumps m program i l false c) (h : m.Does program R code Q c) :
    m.Does program R (i :: code) Q c :=
  h.step hi

variable (hP : Distinct program)

include hP

/-- A jump leads behind its label. -/
theorem runs_jump {start rest : List Instr} (hi : Jumps m program i l true c)
    (hplace : (.label l :: rest) <:+ program) :
    m.Runs program (c.goto (i :: start)) (c.goto rest) := by
  refine .single ((hi _).trans ?_)
  rw [if_pos rfl]
  exact Config.jump?_eq_some.mpr ⟨rest, hP.target? hplace, rfl⟩

/-- A jump forward leads over a part of the code. -/
theorem jump (body : List Instr) (hi : Jumps m program i l true c) (h : m.Does program R code Q c) :
    m.Does program R (i :: (body ++ .label l :: code)) Q c := by
  intro rest hrest
  have hplace : (.label l :: (code ++ rest)) <:+ program := by
    refine .trans ⟨i :: body, ?_⟩ hrest
    simp
  exact .after (runs_jump hP hi hplace) (h rest ((List.suffix_cons ..).trans hplace))

/-- Code that is skipped on a condition. -/
theorem skip (body : List Instr) (hi : Jumps m program i l taken c)
    (hskip : taken = true → m.Does program R code Q c)
    (hbody : taken = false → m.Does program R body (fun c' => m.Does program R code Q c') c) :
    m.Does program R (i :: (body ++ .label l :: code)) Q c := by
  cases taken with
  | true => exact jump hP body hi (hskip rfl)
  | false => exact stay hi ((hbody rfl).append fun _ h => h.label)

/-- Two branches, of which one is run. -/
theorem branch {thenCode elseCode : List Instr} {l' : Label} (hi : Jumps m program i l taken c)
    (hthen : taken = false → m.Does program R thenCode Q c)
    (helse : taken = true → m.Does program R elseCode Q c) :
    m.Does program R
      (i :: (thenCode ++ .jump l' :: .label l :: (elseCode ++ [.label l']))) Q c := by
  cases taken with
  | false =>
    refine stay hi ((hthen rfl).append fun c' hQ => ?_)
    exact jump hP (.label l :: elseCode) jumps_jump (.nil hQ)
  | true =>
    have hrest : m.Does program R (elseCode ++ [.label l']) Q c :=
      (helse rfl).append fun _ hQ => label (.nil hQ)
    have hjump := jump hP (thenCode ++ [.jump l']) hi hrest
    rwa [List.append_assoc, List.singleton_append] at hjump

/-- A loop, with what holds before a round that is followed by fewer than so many rounds. -/
theorem loop {l' : Label} {cond body : List Instr} {P : Nat → Config → Prop}
    (hround : ∀ n c, P n c → m.Does program R cond (fun c' => ∃ taken, Jumps m program i l taken c' ∧
      (taken = true → Q c') ∧ (taken = false →
        ∃ k, k < n ∧ m.Does program R body (P k) c')) c) {n : Nat} (h : P n c) :
    m.Does program R (.label l' :: (cond ++ i :: (body ++ [.jump l', .label l]))) Q c := by
  intro rest hrest
  have hstart : (cond ++ i :: (body ++ .jump l' :: .label l :: rest)) <:+ program :=
    (List.suffix_cons (.label l') _).trans (by simpa using hrest)
  have hjump : (i :: (body ++ .jump l' :: .label l :: rest)) <:+ program :=
    (List.suffix_append ..).trans hstart
  have hbody : (body ++ .jump l' :: .label l :: rest) <:+ program :=
    (List.suffix_cons ..).trans hjump
  have hend : (.label l :: rest) <:+ program :=
    ((List.suffix_cons ..).trans (List.suffix_append ..)).trans hbody
  -- from behind the first label the machine comes to the end, by the number of rounds ahead
  have hrounds : ∀ n c, P n c →
      m.Comes program R (cond ++ i :: (body ++ .jump l' :: .label l :: rest)) rest Q c := by
    intro n
    induction n using Nat.strongRecOn with
    | _ n ih =>
      intro c hc
      refine (hround n c hc _ hstart).trans ?_
      rintro c1 ⟨taken, hi, htaken, hnot⟩
      cases taken with
      | true => exact .after (runs_jump hP hi hend) (.here (htaken rfl))
      | false =>
        obtain ⟨k, hk, hdoes⟩ := hnot rfl
        refine .after (.single (hi _)) ((hdoes _ hbody).trans fun c2 hc2 => ?_)
        exact .after (runs_jump hP jumps_jump (by simpa using hrest)) (ih k hk c2 hc2)
  refine .after (runs_label ..) ?_
  simpa using hrounds n c h

/-- A call of code that goes back to where it was called from. -/
theorem runs_call {callee rest : List Instr} (hplace : (.label l :: (callee ++ rest)) <:+ program)
    (hcallee : ∀ back, m.Does program (fun c' => c'.code = back ∧ P c') callee (fun _ => False)
      { c with calls := back :: c.calls }) (back : List Instr) :
    ∃ c', m.Runs program (c.goto (.call l :: back)) (c'.goto back) ∧ P c' := by
  have hcall : m.Runs program (c.goto (.call l :: back))
      (Config.goto { c with calls := back :: c.calls } (callee ++ rest)) :=
    .single ((step_call rfl).mpr ⟨_, hP.target? hplace, rfl⟩)
  obtain ⟨c', ⟨_, hfalse⟩ | ⟨hrun, hcode, hP'⟩⟩ :=
    hcallee back rest ((List.suffix_cons ..).trans hplace)
  · exact hfalse.elim
  · rw [← Config.goto_code c', hcode] at hrun
    exact ⟨c', hcall.trans hrun, hP'⟩

theorem call {callee rest : List Instr} (hplace : (.label l :: (callee ++ rest)) <:+ program)
    (hcallee : ∀ back, m.Does program (fun c' => c'.code = back ∧ P c') callee (fun _ => False)
      { c with calls := back :: c.calls }) (h : ∀ c', P c' → m.Does program R code Q c') :
    m.Does program R (.call l :: code) Q c :=
  of_runs (runs_call hP hplace hcallee) h

end

end Does

end Ifj22.Machine
