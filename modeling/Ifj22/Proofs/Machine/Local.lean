import Ifj22.Proofs.Machine.Computes
set_option autoImplicit false

/-!
# Machine: code on a frame of its own

A support routine works on the variables of its own frame and moves between places of its own code.
What is known of these variables is a list of facts.  `walk?` runs code on facts up to the first jump
that is taken, so one evaluation says what the machine does between two places, and `Leads` joins such
runs.
-/

namespace Ifj22.Machine

open Code

/-! ## Facts -/

/-- Values that variables of a frame are known to have; the first one for a variable counts. -/
abbrev Facts := List (String × Value)

namespace Facts

variable (m : Machine) (names : List String)

/-- The value of an operand, if it is known. -/
def value? (k : Facts) : Operand → Option Value
  | .var ⟨.lf, x⟩ => k.lookup x
  | .var _ => none
  | .int n => some (.int n.toInt)
  | .float x => some (.float x)
  | .str s => some (.str s)
  | .bool b => some (.bool b)
  | .nil => some .nil

@[simp] theorem value?_local (k : Facts) (x : String) : k.value? (.var ⟨.lf, x⟩) = k.lookup x := rfl

@[simp] theorem value?_int (k : Facts) (n : Int64) : k.value? (.int n) = some (.int n.toInt) := rfl

@[simp] theorem value?_float (k : Facts) (x : Float) : k.value? (.float x) = some (.float x) := rfl

@[simp] theorem value?_str (k : Facts) (s : String) : k.value? (.str s) = some (.str s) := rfl

@[simp] theorem value?_bool (k : Facts) (b : Bool) : k.value? (.bool b) = some (.bool b) := rfl

/-- The facts behind giving one of the named variables of the frame a value. -/
@[simp] def put? (k : Facts) : Var → Value → Option Facts
  | ⟨.lf, x⟩, v => if x ∈ names then some ((x, v) :: k) else none
  | _, _ => none

/-- The facts behind an instruction that only changes a variable of the frame. -/
@[simp] def after? (k : Facts) : Instr → Option Facts
  | .move dest a => do k.put? names dest (← k.value? a)
  | .binary op dest a b => do k.put? names dest (← m.binaryOp op (← k.value? a) (← k.value? b))
  | .unary .typeOf dest a => do k.put? names dest (.str (← k.value? a).typeName)
  | .unary op dest a => do k.put? names dest (← m.unaryOp op (← k.value? a))
  | .label _ => some k
  | _ => none

/-- The facts at the end of the code, or those at the first jump that is taken and its label. -/
@[simp] def walk? : List Instr → Facts → Option (Option Label × Facts)
  | [], k => some (none, k)
  | .jump l :: _, k => some (some l, k)
  | .jumpIfEq l a b :: code, k => do
    if ← equal? (← k.value? a) (← k.value? b) then some (some l, k) else walk? code k
  | .jumpIfNeq l a b :: code, k => do
    if ← equal? (← k.value? a) (← k.value? b) then walk? code k else some (some l, k)
  | i :: code, k => do walk? code (← k.after? m names i)

/-- The walk ends like that, with these facts among those at its end. -/
def Walks (code : List Instr) (k : Facts) (out : Option Label) (k' : Facts) : Prop :=
  ∃ k1, walk? m names code k = some (out, k1) ∧ ∀ p ∈ k', k1.lookup p.1 = some p.2

end Facts

/-- The named variables of a frame are declared, and the facts hold of it. -/
structure Knows (names : List String) (k : Facts) (s : Store) : Prop where
  declared : ∀ x ∈ names, (s x).isSome = true
  holds : ∀ x v, k.lookup x = some v → s x = some (some v)

/-- The configuration inside a frame. -/
def Config.within (c : Config) (s : Store) : Config := { c with lf := s :: c.lf }

section

variable {m : Machine} {program : List Instr} {names : List String} {k k' : Facts} {s : Store}
  {c : Config}

theorem Knows.of_mem (hdeclared : ∀ x ∈ names, (s x).isSome = true)
    (hk : ∀ p ∈ k, s p.1 = some (some p.2)) : Knows names k s := by
  refine ⟨hdeclared, fun x v hx => ?_⟩
  obtain ⟨before, after, rfl, -⟩ := List.lookup_eq_some_iff.mp hx
  exact hk (x, v) (List.mem_append_right _ (.head _))

/-- Facts that follow from others. -/
theorem Knows.weaken (h : Knows names k s) (hk : ∀ p ∈ k', k.lookup p.1 = some p.2) :
    Knows names k' s :=
  .of_mem h.declared fun p hp => h.holds p.1 p.2 (hk p hp)

theorem Knows.set (h : Knows names k s) (x : String) (v : Value) :
    Knows names ((x, v) :: k) (s.set x (some v)) := by
  refine ⟨fun y hy => ?_, fun y w hw => ?_⟩
  · unfold Store.set
    split
    · rfl
    · exact h.declared y hy
  · unfold Store.set
    by_cases hy : y = x
    · subst hy
      rw [List.lookup_cons_self, Option.some.injEq] at hw
      rw [if_pos rfl, hw]
    · rw [List.lookup_cons, beq_false_of_ne hy] at hw
      rw [if_neg hy]
      exact h.holds y w hw

theorem Knows.value? (h : Knows names k s) (c : Config) {a : Operand} {v : Value}
    (ha : k.value? a = some v) : (c.within s).value? a = some v := by
  cases a with
  | var x =>
    obtain ⟨F, x⟩ := x
    cases F with
    | lf => exact Config.value?_of_get (v := ⟨.lf, x⟩) (h.holds x v ha)
    | gf => cases ha
    | tf => cases ha
  | _ => exact ha

theorem Knows.typeName? (h : Knows names k s) (c : Config) {a : Operand} {v : Value}
    (ha : k.value? a = some v) : (c.within s).typeName? a = some v.typeName := by
  cases a with
  | var x =>
    obtain ⟨F, x⟩ := x
    cases F with
    | lf =>
      have hget : (c.within s).get ⟨.lf, x⟩ = some (some v) := h.holds x v ha
      rw [Config.typeName?, hget]
      rfl
    | gf => cases ha
    | tf => cases ha
  | _ => cases ha; rfl

/-- Giving a variable of the frame a value keeps to the frame. -/
theorem Knows.put? (h : Knows names k s) {dest : Var} {v : Value} (hput : k.put? names dest v = some k')
    (c : Config) : ((c.within s).get dest).isSome = true ∧
      ∃ s', (c.within s).update dest (some v) = c.within s' ∧ Knows names k' s' := by
  obtain ⟨F, x⟩ := dest
  cases F with
  | gf => cases hput
  | tf => cases hput
  | lf =>
    rw [Facts.put?] at hput
    split at hput
    · next hx =>
      cases hput
      exact ⟨h.declared x hx, s.set x (some v), rfl, h.set x v⟩
    · cases hput

/-- One instruction on the frame. -/
theorem Knows.after? (h : Knows names k s) {i : Instr} (hi : k.after? m names i = some k')
    (c : Config) : ∃ s', Knows names k' s' ∧ ∀ rest,
      m.step program ((c.within s).goto (i :: rest)) = some ((c.within s').goto rest) := by
  -- every instruction but a label ends in giving a variable a value
  have hset : ∀ {dest v}, k.put? names dest v = some k' → ∃ s', Knows names k' s' ∧
      ((c.within s).get dest).isSome = true ∧ ∀ rest,
      (c.within s').goto rest = ((c.within s).goto rest).update dest (some v) := by
    intro dest v hput
    obtain ⟨hdest, s', hs', hk'⟩ := h.put? hput c
    exact ⟨s', hk', hdest, fun rest => by rw [Config.update_goto, hs']⟩
  cases i with
  | label l =>
    cases hi
    exact ⟨s, h, fun rest => step_label rfl⟩
  | move dest a =>
    obtain ⟨v, hv, hput⟩ := Option.bind_eq_some_iff.mp hi
    obtain ⟨s', hk', hdest, hs'⟩ := hset hput
    refine ⟨s', hk', fun rest => (step_move rfl).mpr ⟨v, ?_, hdest, hs' rest⟩⟩
    rw [Config.value?_goto, h.value? c hv]
  | binary op dest a b =>
    obtain ⟨x, hx, hi⟩ := Option.bind_eq_some_iff.mp hi
    obtain ⟨y, hy, hi⟩ := Option.bind_eq_some_iff.mp hi
    obtain ⟨z, hz, hput⟩ := Option.bind_eq_some_iff.mp hi
    obtain ⟨s', hk', hdest, hs'⟩ := hset hput
    refine ⟨s', hk', fun rest => (step_binary rfl).mpr ⟨x, y, z, ?_, ?_, hz, hdest, hs' rest⟩⟩
    · rw [Config.value?_goto, h.value? c hx]
    · rw [Config.value?_goto, h.value? c hy]
  | unary op dest a =>
    by_cases hop : op = .typeOf
    · subst hop
      obtain ⟨v, hv, hput⟩ := Option.bind_eq_some_iff.mp hi
      obtain ⟨s', hk', hdest, hs'⟩ := hset hput
      refine ⟨s', hk', fun rest => (step_typeOf rfl).mpr ⟨v.typeName, ?_, hdest, hs' rest⟩⟩
      rw [Config.typeName?_goto, h.typeName? c hv]
    · rw [Facts.after?.eq_4 _ _ _ _ _ _ hop] at hi
      obtain ⟨x, hx, hi⟩ := Option.bind_eq_some_iff.mp hi
      obtain ⟨z, hz, hput⟩ := Option.bind_eq_some_iff.mp hi
      obtain ⟨s', hk', hdest, hs'⟩ := hset hput
      refine ⟨s', hk', fun rest => (step_unary hop rfl).mpr ⟨x, z, ?_, hz, hdest, hs' rest⟩⟩
      rw [Config.value?_goto, h.value? c hx]
  | _ => cases hi

/-! ## Places -/

/-- From one place, with what is known there, the machine comes to another, with what is known there,
inside one frame. -/
def Leads (m : Machine) (program : List Instr) (names : List String) (start : List Instr) (k : Facts)
    (stop : List Instr) (k' : Facts) : Prop :=
  ∀ (c : Config) (s : Store), Knows names k s → ∃ s', Knows names k' s' ∧
    m.Runs program ((c.within s).goto start) ((c.within s').goto stop)

/-- Where code is left to: the place behind it, or behind the label that it jumps to. -/
def Arrives (program rest : List Instr) : Option Label → List Instr → Prop
  | none, stop => stop = rest
  | some l, stop => (.label l :: stop) <:+ program

namespace Leads

variable {start next stop code rest : List Instr} {k1 : Facts} {out : Option Label}

theorem trans (h : m.Leads program names start k next k1)
    (h' : m.Leads program names next k1 stop k') : m.Leads program names start k stop k' := by
  intro c s hs
  obtain ⟨s1, hs1, hrun⟩ := h c s hs
  obtain ⟨s2, hs2, hrun'⟩ := h' c s1 hs1
  exact ⟨s2, hs2, hrun.trans hrun'⟩

theorem label {l : Label} : m.Leads program names (.label l :: stop) k stop k :=
  fun _ s hs => ⟨s, hs, .single (step_label rfl)⟩

/-- The machine does what the walk on facts does. -/
theorem of_walk? (hP : Distinct program) (hwalk : Facts.walk? m names code k = some (out, k'))
    (hstop : Arrives program rest out stop) :
    m.Leads program names (code ++ rest) k stop k' := by
  intro c s hs
  induction code generalizing k s with
  | nil =>
    cases hwalk
    cases hstop
    exact ⟨s, hs, .refl⟩
  | cons i code ih =>
    -- a jump is taken, and then the walk ends, or the walk goes on behind the instruction
    have hjump : ∀ {l}, (some l, k) = (out, k') → Does.Jumps m program i l true (c.within s) →
        ∃ s', Knows names k' s' ∧
          m.Runs program ((c.within s).goto (i :: (code ++ rest))) ((c.within s').goto stop) := by
      intro l heq hi
      cases heq
      exact ⟨s, hs, Does.runs_jump hP hi hstop⟩
    have hnext : ∀ {k1 s1}, Facts.walk? m names code k1 = some (out, k') → Knows names k1 s1 →
        (∀ rest, m.step program ((c.within s).goto (i :: rest)) = some ((c.within s1).goto rest)) →
        ∃ s', Knows names k' s' ∧
          m.Runs program ((c.within s).goto (i :: (code ++ rest))) ((c.within s').goto stop) := by
      intro k1 s1 hwalk hs1 hstep
      obtain ⟨s', hs', hrun⟩ := ih hwalk s1 hs1
      exact ⟨s', hs', .head (hstep _) hrun⟩
    have hother : (k.after? m names i).bind (Facts.walk? m names code) = some (out, k') →
        ∃ s', Knows names k' s' ∧
          m.Runs program ((c.within s).goto (i :: (code ++ rest))) ((c.within s').goto stop) := by
      intro hwalk
      obtain ⟨k1, hk1, hwalk⟩ := Option.bind_eq_some_iff.mp hwalk
      obtain ⟨s1, hs1, hstep⟩ := hs.after? hk1 c
      exact hnext hwalk hs1 hstep
    cases i with
    | jump l => exact hjump (Option.some.inj hwalk) Does.jumps_jump
    | jumpIfEq l a b =>
      obtain ⟨x, hx, hwalk⟩ := Option.bind_eq_some_iff.mp hwalk
      obtain ⟨y, hy, hwalk⟩ := Option.bind_eq_some_iff.mp hwalk
      obtain ⟨same, hsame, hwalk⟩ := Option.bind_eq_some_iff.mp hwalk
      have hi : Does.Jumps m program (.jumpIfEq l a b) l same (c.within s) :=
        Does.jumps_jumpIfEq (hs.value? c hx) (hs.value? c hy) hsame
      cases same with
      | true => exact hjump (Option.some.inj hwalk) hi
      | false => exact hnext hwalk hs hi
    | jumpIfNeq l a b =>
      obtain ⟨x, hx, hwalk⟩ := Option.bind_eq_some_iff.mp hwalk
      obtain ⟨y, hy, hwalk⟩ := Option.bind_eq_some_iff.mp hwalk
      obtain ⟨same, hsame, hwalk⟩ := Option.bind_eq_some_iff.mp hwalk
      have hi : Does.Jumps m program (.jumpIfNeq l a b) l (!same) (c.within s) :=
        Does.jumps_jumpIfNeq (hs.value? c hx) (hs.value? c hy) hsame
      cases same with
      | true => exact hnext hwalk hs hi
      | false => exact hjump (Option.some.inj hwalk) hi
    | _ => exact hother hwalk

theorem walk (hP : Distinct program) (hwalk : Facts.Walks m names code k out k')
    (hstop : Arrives program rest out stop) : m.Leads program names (code ++ rest) k stop k' := by
  obtain ⟨k1, hwalk, hk'⟩ := hwalk
  intro c s hs
  obtain ⟨s', hs', hrun⟩ := of_walk? hP hwalk hstop c s hs
  exact ⟨s', hs'.weaken hk', hrun⟩

end Leads

/-! ## Routines -/

/-- The caller as the routine sees it that was called with this stack. -/
def Config.called (c : Config) (back : List Instr) (stack : List Value) : Config :=
  { c with calls := back :: c.calls, tf := none, stack := stack }

/-- A routine that is called enters a frame with a variable for its result. -/
theorem runs_call_framed (hP : Distinct program) {r : Routine} {inner rest : List Instr}
    (hplace : (r.framed inner ++ rest) <:+ program) (htf : c.tf = some fun _ => none)
    (back : List Instr) : m.Runs program (c.goto (.call r.entry :: back))
      (((c.called back c.stack).within (Store.set (fun _ => none) "%retval" none)).goto
        (inner ++ .popFrame :: .ret :: rest)) := by
  have hcode : r.framed inner ++ rest = .label r.entry :: .pushFrame :: .defVar Var.result ::
      (inner ++ .popFrame :: .ret :: rest) := by
    simp [Routine.framed]
  rw [hcode] at hplace
  refine .head ((step_call rfl).mpr ⟨_, hP.target? hplace, rfl⟩) ?_
  refine .head ((step_pushFrame rfl).mpr ⟨_, htf, rfl⟩) ?_
  exact .single ((step_defVar (v := Var.result) rfl).mpr ⟨⟨rfl, rfl⟩, rfl⟩)

variable (m program c) in
/-- Declarations of variables that are new to the frame. -/
theorem runs_declare (rest : List Instr) : ∀ {names : List String} {s : Store}, names.Nodup →
    (∀ x ∈ names, s x = none) → ∃ s', (∀ x ∈ names, s' x = some none) ∧
      (∀ x, x ∉ names → s' x = s x) ∧
      m.Runs program ((c.within s).goto (Routine.declare names ++ rest)) ((c.within s').goto rest) := by
  intro names
  induction names with
  | nil => exact fun {s} _ _ => ⟨s, List.forall_mem_nil _, fun _ _ => rfl, .refl⟩
  | cons x names ih =>
    intro s hnodup hnew
    obtain ⟨hx, hnodup⟩ := List.nodup_cons.mp hnodup
    obtain ⟨hsx, hnew⟩ := List.forall_mem_cons.mp hnew
    have hset : ∀ y, y ≠ x → (s.set x none) y = s y := fun y hne => if_neg hne
    have hnew' : ∀ y ∈ names, (s.set x none) y = none := by
      intro y hy
      rw [hset y fun heq => hx (heq ▸ hy), hnew y hy]
    obtain ⟨s', hdeclared, hothers, hrun⟩ := ih hnodup hnew'
    refine ⟨s', List.forall_mem_cons.mpr ⟨(hothers x hx).trans (if_pos rfl), hdeclared⟩, ?_,
      .head ?_ hrun⟩
    · intro y hy
      obtain ⟨hne, hy⟩ := not_or.mp (mt List.mem_cons.mpr hy)
      rw [hothers y hy, hset y hne]
    · exact (step_defVar (v := Routine.lf x) rfl).mpr ⟨⟨rfl, hsx⟩, rfl⟩

/-- A variable takes its value from the stack. -/
theorem runs_pop (hs : Knows names k s) {x : String} (hx : x ∈ names) {v : Value}
    {stack : List Value} (back rest : List Instr) : ∃ s', Knows names ((x, v) :: k) s' ∧
      m.Runs program (((c.called back (v :: stack)).within s).goto (.pop (Routine.lf x) :: rest))
        (((c.called back stack).within s').goto rest) := by
  refine ⟨s.set x (some v), hs.set x v, .single ((step_pop rfl).mpr ⟨v, stack, rfl, ?_, rfl⟩)⟩
  exact hs.declared x hx

/-- A routine leaves its frame, and the caller finds the result. -/
theorem runs_leave {z : Value} (hs : s "%retval" = some (some z)) (back rest : List Instr)
    (stack : List Value) : ∃ c', m.Runs program
      (((c.called back stack).within s).goto (.popFrame :: .ret :: rest)) (c'.goto back) ∧
      Returns stack c.output c c' ∧ c'.get Var.returned = some (some z) := by
  refine ⟨{ c with tf := some s, stack := stack }, ?_, ⟨rfl, rfl, rfl, rfl, rfl⟩, hs⟩
  refine .head ((step_popFrame rfl).mpr ⟨s, c.lf, rfl, rfl⟩) ?_
  exact .single ((step_ret rfl).mpr ⟨back, c.calls, rfl, rfl⟩)

/-! ## Routines of one argument -/

/-- A call of the routine with the value on the stack comes back with the result.  This is so
wherever the call stands, and whatever is below the value on the stack and in the frames of the
caller; all of that is as it was behind the call. -/
def Yields (m : Machine) (program : List Instr) (r : Routine) (v z : Value) : Prop :=
  ∀ (c : Config) (stack : List Value) (back : List Instr), c.stack = v :: stack →
    c.tf = some (fun _ => none) → ∃ c', m.Runs program (c.goto (.call r.entry :: back)) (c'.goto back) ∧
      Returns stack c.output c c' ∧ c'.get Var.returned = some (some z)

/-- A call of the routine with the value on the stack ends the program with the exit code of a type
mismatch. -/
def Refuses (m : Machine) (program : List Instr) (r : Routine) (v : Value) : Prop :=
  ∀ (c : Config) (stack : List Value) (back : List Instr), c.stack = v :: stack →
    c.tf = some (fun _ => none) → m.Exits program (c.goto (.call r.entry :: back)) (.int 7) c.output

section

variable (hP : Distinct program) {r : Routine} {inner rest : List Instr} {v : Value}
  (hplace : (r.framed (Routine.declare names ++ Routine.takeValue ++ inner) ++ rest) <:+ program)
  (hnodup : ("%retval" :: names).Nodup) (hvalue : "value" ∈ names) (htype : "type" ∈ names)

include hP hplace hnodup hvalue htype

/-- A routine that is called with one argument knows it and its type when its own code starts. -/
theorem runs_enter {stack : List Value} (back : List Instr) (hstack : c.stack = v :: stack)
    (htf : c.tf = some fun _ => none) :
    ∃ s, Knows ("%retval" :: names) [("type", .str v.typeName), ("value", v)] s ∧
      m.Runs program (c.goto (.call r.entry :: back))
        (((c.called back stack).within s).goto (inner ++ .popFrame :: .ret :: rest)) := by
  obtain ⟨hresult, hnodup⟩ := List.nodup_cons.mp hnodup
  have hframe := runs_call_framed (m := m) hP hplace htf back
  rw [hstack, List.append_assoc, List.append_assoc] at hframe
  have hnew : ∀ x ∈ names, Store.set (fun _ => none) "%retval" none x = none := by
    intro x hx
    have hne : x ≠ "%retval" := fun heq => hresult (heq ▸ hx)
    exact if_neg hne
  obtain ⟨s, hdeclared, hothers, hrun⟩ := runs_declare m program (c.called back (v :: stack))
    (Routine.takeValue ++ (inner ++ .popFrame :: .ret :: rest)) hnodup hnew
  have hs : Knows ("%retval" :: names) [] s := by
    refine .of_mem (List.forall_mem_cons.mpr ⟨?_, fun x hx => ?_⟩) (List.forall_mem_nil _)
    · rw [hothers _ hresult]
      rfl
    · rw [hdeclared x hx]
      rfl
  obtain ⟨s1, hs1, hpop⟩ := runs_pop hs (List.mem_cons_of_mem _ hvalue) back _
  have hafter : Facts.after? m ("%retval" :: names) [("value", v)]
      (.unary .typeOf (Routine.lf "type") (Routine.lf "value")) =
      some [("type", .str v.typeName), ("value", v)] := by
    simp [Routine.lf, htype]
  obtain ⟨s', hs', hstep⟩ := hs1.after? hafter (c.called back stack)
  exact ⟨s', hs', hframe.trans (hrun.trans (hpop.trans (.single (hstep _))))⟩

/-- What a routine of one argument yields, by what its own code does. -/
theorem yields_framed {z : Value}
    (h : m.Leads program ("%retval" :: names) (inner ++ .popFrame :: .ret :: rest)
      [("type", .str v.typeName), ("value", v)] (.popFrame :: .ret :: rest) [("%retval", z)]) :
    m.Yields program r v z := by
  intro c stack back hstack htf
  obtain ⟨s, hs, hrun⟩ := runs_enter hP hplace hnodup hvalue htype back hstack htf
  obtain ⟨s', hs', hrun'⟩ := h _ s hs
  obtain ⟨c', hleave, hc'⟩ := runs_leave (hs'.holds "%retval" z rfl) back rest stack
  exact ⟨c', hrun.trans (hrun'.trans hleave), hc'⟩

/-- A routine of one argument refuses a value if its own code comes to the exit. -/
theorem refuses_framed {k' : Facts} {rest' : List Instr}
    (h : m.Leads program ("%retval" :: names) (inner ++ .popFrame :: .ret :: rest)
      [("type", .str v.typeName), ("value", v)] (.exit (.int 7) :: rest') k') :
    m.Refuses program r v := by
  intro c stack back hstack htf
  obtain ⟨s, hs, hrun⟩ := runs_enter hP hplace hnodup hvalue htype back hstack htf
  obtain ⟨s', -, hrun'⟩ := h _ s hs
  exact ⟨_, rest', hrun.trans hrun', rfl, rfl⟩

end

end

end Ifj22.Machine
