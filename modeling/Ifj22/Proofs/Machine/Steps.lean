import Ifj22.Proofs.Code.Piece
import Ifj22.Proofs.Machine.Basic
set_option autoImplicit false

/-!
# Machine: what one instruction does

One lemma for each instruction that can fail says when the machine can carry it out and where it is
then.  In a program whose labels are distinct a jump leads to the place behind its label.
-/

namespace Ifj22.Machine

open Code

/-! ## Frames -/

namespace Config

variable {c : Config} {v w : Var}

@[simp] theorem get_goto (c : Config) (code : List Instr) (v : Var) : (c.goto code).get v = c.get v :=
  rfl

@[simp] theorem value?_goto (c : Config) (code : List Instr) (a : Operand) :
    (c.goto code).value? a = c.value? a := by
  cases a <;> rfl

@[simp] theorem typeName?_goto (c : Config) (code : List Instr) (a : Operand) :
    (c.goto code).typeName? a = c.typeName? a := by
  cases a <;> rfl

theorem frame?_update (c : Config) (v : Var) (x : Option Value) (F : Frame) :
    (c.update v x).frame? F =
      if F = v.frame then (c.frame? F).map (·.set v.name x) else c.frame? F := by
  obtain ⟨G, name⟩ := v
  cases F <;> cases G <;> simp [update, frame?, List.head?_modifyHead]

/-- Setting a variable changes that variable only. -/
theorem get_update (h : (c.frame? v.frame).isSome = true) (x : Option Value) (w : Var) :
    (c.update v x).get w = if w = v then some x else c.get w := by
  obtain ⟨s, hs⟩ := Option.isSome_iff_exists.mp h
  rw [get, frame?_update]
  by_cases hframe : w.frame = v.frame
  · rw [if_pos hframe, hframe, hs, Option.map_some, Option.bind_some, Store.set, get, hframe, hs,
      Option.bind_some]
    by_cases hname : w.name = v.name
    · rw [if_pos hname, if_pos (by cases v; cases w; simp_all)]
    · rw [if_neg hname, if_neg fun hw => hname (by rw [hw])]
  · rw [if_neg hframe, if_neg fun hw => hframe (by rw [hw]), get]

theorem isSome_frame? (h : (c.get v).isSome = true) : (c.frame? v.frame).isSome = true := by
  unfold get at h
  cases hs : c.frame? v.frame with
  | none =>
    rw [hs] at h
    cases h
  | some s => rfl

@[simp] theorem update_code (c : Config) (v : Var) (x : Option Value) :
    (c.update v x).code = c.code := by
  unfold update
  split <;> rfl

@[simp] theorem update_stack (c : Config) (v : Var) (x : Option Value) :
    (c.update v x).stack = c.stack := by
  unfold update
  split <;> rfl

@[simp] theorem update_calls (c : Config) (v : Var) (x : Option Value) :
    (c.update v x).calls = c.calls := by
  unfold update
  split <;> rfl

@[simp] theorem update_output (c : Config) (v : Var) (x : Option Value) :
    (c.update v x).output = c.output := by
  unfold update
  split <;> rfl

theorem set?_eq_some {x : Value} {c' : Config} :
    c.set? v x = some c' ↔ (c.get v).isSome = true ∧ c' = c.update v (some x) := by
  unfold set?
  rw [Option.ite_none_right_eq_some, Option.some.injEq]
  exact and_congr_right fun _ => eq_comm

theorem declare?_eq_some {c' : Config} : c.declare? v = some c' ↔
    ((c.frame? v.frame).isSome = true ∧ c.get v = none) ∧ c' = c.update v none := by
  unfold declare?
  rw [Option.ite_none_right_eq_some, Option.some.injEq]
  exact and_congr_right fun _ => eq_comm

theorem jump?_eq_some {program : List Instr} {l : Label} {c' : Config} :
    c.jump? program l = some c' ↔ ∃ code, target? program l.text = some code ∧ c' = c.goto code := by
  unfold jump?
  rw [Option.map_eq_some_iff]
  exact exists_congr fun _ => and_congr_right fun _ => eq_comm

end Config

/-! ## Labels -/

/-- No two labels of the program have one text.  A jump looks for the text of its label, and so
finds the one that is meant. -/
def Distinct (program : List Instr) : Prop := ((labelsOf program).map Label.text).Nodup

theorem target?_cons {i : Instr} (rest : List Instr) {name : String}
    (h : ∀ l, i.label? = some l → l.text ≠ name) : target? (i :: rest) name = target? rest name := by
  cases i with
  | label l => exact if_neg (h l rfl)
  | _ => rfl

/-- A jump to a label leads to the place behind it. -/
theorem Distinct.target? {program rest : List Instr} (hP : Distinct program) {l : Label}
    (h : (.label l :: rest) <:+ program) : target? program l.text = some rest := by
  obtain ⟨before, rfl⟩ := h
  induction before with
  | nil => exact if_pos rfl
  | cons i before ih =>
    unfold Distinct at hP
    rw [List.cons_append, target?_cons]
    · refine ih ?_
      unfold Distinct
      rw [labelsOf, List.cons_append, List.filterMap_cons] at hP
      split at hP
      · exact hP
      · exact (List.nodup_cons.mp hP).2
    · intro l' hl' heq
      rw [labelsOf, List.cons_append, List.filterMap_cons, hl', List.map_cons] at hP
      refine (List.nodup_cons.mp hP).1 (List.mem_map.mpr ⟨l, ?_, heq.symm⟩)
      exact List.mem_filterMap.mpr ⟨.label l, by simp, rfl⟩

/-! ## Instructions -/

section

variable {m : Machine} {program rest : List Instr} {c c' : Config} {dest v : Var} {a b : Operand}
  {l : Label}

theorem bind_some_eq_some {α β : Type} {o : Option α} {f : α → β} {y : β} :
    (o.bind fun x => some (f x)) = some y ↔ ∃ x, o = some x ∧ y = f x := by
  rw [Option.bind_eq_some_iff]
  exact exists_congr fun _ => and_congr_right fun _ => by rw [Option.some.injEq, eq_comm]

theorem step_move (hcode : c.code = .move dest a :: rest) : m.step program c = some c' ↔
    ∃ x, c.value? a = some x ∧ (c.get dest).isSome = true ∧
      c' = (c.goto rest).update dest (some x) := by
  rw [step_eq hcode, advance?]
  simp [Option.bind_eq_some_iff, Config.set?_eq_some]

theorem step_binary {op : Binary} (hcode : c.code = .binary op dest a b :: rest) :
    m.step program c = some c' ↔ ∃ x y z, c.value? a = some x ∧ c.value? b = some y ∧
      m.binaryOp op x y = some z ∧ (c.get dest).isSome = true ∧
      c' = (c.goto rest).update dest (some z) := by
  rw [step_eq hcode, advance?]
  simp [Option.bind_eq_some_iff, Config.set?_eq_some]

theorem step_unary {op : Unary} (hop : op ≠ .typeOf) (hcode : c.code = .unary op dest a :: rest) :
    m.step program c = some c' ↔ ∃ x y, c.value? a = some x ∧ m.unaryOp op x = some y ∧
      (c.get dest).isSome = true ∧ c' = (c.goto rest).update dest (some y) := by
  rw [step_eq hcode]
  unfold advance?
  cases op with
  | typeOf => exact absurd rfl hop
  | _ => simp [Option.bind_eq_some_iff, Config.set?_eq_some]

theorem step_typeOf (hcode : c.code = .unary .typeOf dest a :: rest) :
    m.step program c = some c' ↔ ∃ s, c.typeName? a = some s ∧ (c.get dest).isSome = true ∧
      c' = (c.goto rest).update dest (some (.str s)) := by
  rw [step_eq hcode, advance?]
  simp [Option.bind_eq_some_iff, Config.set?_eq_some]

theorem step_read {kind : InputKind} (hcode : c.code = .read dest kind :: rest) :
    m.step program c = some c' ↔ (c.get dest).isSome = true ∧
      c' = Config.update { c.goto rest with input := (m.read kind c.input).2 } dest
        (some (m.read kind c.input).1) := by
  rw [step_eq hcode, advance?, Config.set?_eq_some]
  rfl

theorem step_jump (hcode : c.code = .jump l :: rest) : m.step program c = some c' ↔
    ∃ code, target? program l.text = some code ∧ c' = c.goto code := by
  rw [step_eq hcode, advance?, Config.jump?_eq_some]
  rfl

theorem step_jumpIfEq (hcode : c.code = .jumpIfEq l a b :: rest) : m.step program c = some c' ↔
    ∃ x y equal, c.value? a = some x ∧ c.value? b = some y ∧ equal? x y = some equal ∧
      if equal = true then ∃ code, target? program l.text = some code ∧ c' = c.goto code
      else c' = c.goto rest := by
  rw [step_eq hcode, advance?]
  simp only [Option.bind_eq_bind, Config.value?_goto, Option.bind_eq_some_iff]
  constructor
  · rintro ⟨x, hx, y, hy, equal, hequal, h⟩
    refine ⟨x, y, equal, hx, hy, hequal, ?_⟩
    cases equal with
    | true => exact Config.jump?_eq_some.mp h
    | false => exact (Option.some.inj h).symm
  · rintro ⟨x, y, equal, hx, hy, hequal, h⟩
    refine ⟨x, hx, y, hy, equal, hequal, ?_⟩
    cases equal with
    | true => exact Config.jump?_eq_some.mpr h
    | false => exact congrArg some h.symm

theorem step_push (hcode : c.code = .push a :: rest) : m.step program c = some c' ↔
    ∃ x, c.value? a = some x ∧ c' = { c.goto rest with stack := x :: c.stack } := by
  rw [step_eq hcode, advance?, Config.value?_goto]
  exact bind_some_eq_some

theorem step_pop (hcode : c.code = .pop dest :: rest) : m.step program c = some c' ↔
    ∃ x stack, c.stack = x :: stack ∧ (c.get dest).isSome = true ∧
      c' = Config.update { c.goto rest with stack := stack } dest (some x) := by
  rw [step_eq hcode, advance?]
  cases hstack : c.stack with
  | nil => simp [Config.goto, hstack]
  | cons x stack =>
    simp only [Config.goto, hstack, List.head?_cons, List.tail_cons, Option.bind_eq_bind,
      Option.bind_some, Config.set?_eq_some, List.cons.injEq]
    constructor
    · rintro ⟨hget, rfl⟩
      exact ⟨x, stack, ⟨rfl, rfl⟩, hget, rfl⟩
    · rintro ⟨_, _, ⟨rfl, rfl⟩, hget, rfl⟩
      exact ⟨hget, rfl⟩

theorem step_write (hcode : c.code = .write a :: rest) : m.step program c = some c' ↔
    ∃ x, c.value? a = some x ∧ c' = { c.goto rest with output := c.output ++ m.text x } := by
  rw [step_eq hcode, advance?, Config.value?_goto]
  exact bind_some_eq_some

theorem step_pushFrame (hcode : c.code = .pushFrame :: rest) : m.step program c = some c' ↔
    ∃ frame, c.tf = some frame ∧ c' = { c.goto rest with lf := frame :: c.lf, tf := none } := by
  rw [step_eq hcode, advance?]
  exact bind_some_eq_some

theorem step_popFrame (hcode : c.code = .popFrame :: rest) : m.step program c = some c' ↔
    ∃ frame frames, c.lf = frame :: frames ∧
      c' = { c.goto rest with lf := frames, tf := some frame } := by
  rw [step_eq hcode, advance?]
  cases hlf : c.lf with
  | nil => simp [Config.goto, hlf]
  | cons frame frames =>
    simp only [Config.goto, hlf, List.head?_cons, List.tail_cons, Option.bind_eq_bind,
      Option.bind_some, Option.some.injEq, List.cons.injEq]
    constructor
    · rintro rfl
      exact ⟨frame, frames, ⟨rfl, rfl⟩, rfl⟩
    · rintro ⟨_, _, ⟨rfl, rfl⟩, rfl⟩
      rfl

theorem step_defVar (hcode : c.code = .defVar v :: rest) : m.step program c = some c' ↔
    ((c.frame? v.frame).isSome = true ∧ c.get v = none) ∧ c' = (c.goto rest).update v none := by
  rw [step_eq hcode, advance?, Config.declare?_eq_some]
  rfl

theorem step_call (hcode : c.code = .call l :: rest) : m.step program c = some c' ↔
    ∃ code, target? program l.text = some code ∧
      c' = { c.goto code with calls := rest :: c.calls } := by
  rw [step_eq hcode, advance?, Config.jump?_eq_some]
  rfl

theorem step_ret (hcode : c.code = .ret :: rest) : m.step program c = some c' ↔
    ∃ back calls, c.calls = back :: calls ∧ c' = { c.goto back with calls := calls } := by
  rw [step_eq hcode, advance?]
  cases hcalls : c.calls with
  | nil => simp [Config.goto, hcalls]
  | cons back calls =>
    simp only [Config.goto, hcalls, List.head?_cons, List.tail_cons, Option.bind_eq_bind,
      Option.bind_some, Option.some.injEq, List.cons.injEq]
    constructor
    · rintro rfl
      exact ⟨back, calls, ⟨rfl, rfl⟩, rfl⟩
    · rintro ⟨_, _, ⟨rfl, rfl⟩, rfl⟩
      rfl

end

end Ifj22.Machine
