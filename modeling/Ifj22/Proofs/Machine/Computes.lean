import Ifj22.Proofs.Code.Listing
import Ifj22.Proofs.Machine.Does
import Ifj22.Proofs.Meaning.Integer
set_option autoImplicit false

/-!
# Machine: code that computes

The variables of the main body are in the global frame and those of a function in the innermost
local frame.  A piece of code of either writes to its numbered variables only: the other variables, the
other frames and the stacks are as before (`Keeps`).  `Computes` says that such a piece leaves in an
operand what a run of the interpreter yields.
-/

namespace Ifj22.Machine

open Code Code.Generator Meaning

variable {stem output name : String} {k : Nat} {w : Value} {l : Label} {stack : List Value}
  {args : List Expr}

/-! ## Frames -/

/-- The name is not the one of a variable with a number above `n`. -/
def IsHeld (n : Nat) (x : String) : Prop :=
  ∀ stem k, stem = "%t" ∨ stem = "%s" → n < k → x ≠ stem ++ toString k

theorem IsHeld.mono {n n' : Nat} {x : String} (h : IsHeld n x) (hle : n ≤ n') : IsHeld n' x :=
  fun stem k hstem hk => h stem k hstem (Nat.lt_of_le_of_lt hle hk)

theorem isHeld_numbered (hstem : stem = "%t" ∨ stem = "%s") {n : Nat} (h : k ≤ n) :
    IsHeld n (stem ++ toString k) := by
  intro stem' k' hstem' hk' heq
  have := numbered_inj hstem hstem' heq
  omega

theorem isHeld_bareName {x : String} (hx : IsVarName x.toList) (n : Nat) : IsHeld n (bareName x) :=
  fun stem k hstem hk heq =>
    not_isNumbered_bareName hx k ⟨stem, hstem, k, by omega, Nat.le_refl k, heq⟩

/-- The frames other than the one that is written to, and the temporary one. -/
def Config.outer (c : Config) : Frame → List Store × Option Store
  | .gf => (c.lf, none)
  | .lf => (c.lf.tail, some c.gf)
  | .tf => (c.lf, some c.gf)

/-- Where code has written to a frame only. -/
structure Stays (F : Frame) (c c' : Config) : Prop where
  stack : c'.stack = c.stack
  calls : c'.calls = c.calls
  outer : c'.outer F = c.outer F
  declared : ∀ x, (c.get ⟨F, x⟩).isSome = true → (c'.get ⟨F, x⟩).isSome = true

/-- Where code has written to the variables of a frame with numbers above `n` only.  Temporaries
are numbered upwards, so no operand that was found before is written to. -/
structure Keeps (F : Frame) (n : Nat) (c c' : Config) : Prop extends Stays F c c' where
  same : ∀ x, IsHeld n x → c'.get ⟨F, x⟩ = c.get ⟨F, x⟩

section

variable {F : Frame} {n n' : Nat} {c c' c'' : Config}

theorem Stays.refl (c : Config) : Stays F c c := ⟨rfl, rfl, rfl, fun _ h => h⟩

theorem Stays.trans (h : Stays F c c') (h' : Stays F c' c'') : Stays F c c'' :=
  ⟨h'.stack.trans h.stack, h'.calls.trans h.calls, h'.outer.trans h.outer,
    fun x hx => h'.declared x (h.declared x hx)⟩

theorem Stays.isSome (h : Stays F c c') {v : Var} (hv : v.frame = F)
    (hget : (c.get v).isSome = true) : (c'.get v).isSome = true := by
  obtain ⟨G, name⟩ := v
  obtain rfl : G = F := hv
  exact h.declared name hget

theorem Keeps.refl (c : Config) : Keeps F n c c := ⟨.refl c, fun _ _ => rfl⟩

theorem Keeps.trans (h : Keeps F n c c') (h' : Keeps F n c' c'') : Keeps F n c c'' :=
  ⟨h.toStays.trans h'.toStays, fun x hx => (h'.same x hx).trans (h.same x hx)⟩

theorem Keeps.mono (h : Keeps F n' c c') (hle : n ≤ n') : Keeps F n c c' :=
  ⟨h.toStays, fun x hx => h.same x (hx.mono hle)⟩

theorem outer_update (c : Config) {v : Var} (hv : v.frame = F) (x : Option Value) :
    (c.update v x).outer F = c.outer F := by
  obtain ⟨G, name⟩ := v
  obtain rfl : G = F := hv
  cases G with
  | lf => cases hlf : c.lf <;> simp [Config.outer, Config.update, hlf]
  | _ => rfl

theorem stays_update {v : Var} (hv : v.frame = F) (hframe : (c.frame? v.frame).isSome = true)
    (x : Option Value) : Stays F c (c.update v x) := by
  refine ⟨Config.update_stack .., Config.update_calls .., outer_update c hv x, fun y hy => ?_⟩
  rw [Config.get_update hframe]
  split
  · rfl
  · exact hy

/-- A variable with a number above `n` that is declared. -/
def Fresh (F : Frame) (n : Nat) (t : Var) (c : Config) : Prop :=
  ∃ stem k, (stem = "%t" ∨ stem = "%s") ∧ n < k ∧ t = ⟨F, stem ++ toString k⟩ ∧
    (c.get t).isSome = true

theorem Fresh.isSome {t : Var} (h : Fresh F n t c) : (c.get t).isSome = true := by
  obtain ⟨_, _, _, _, _, hget⟩ := h
  exact hget

theorem Fresh.keeps {t : Var} (h : Fresh F n t c) (x : Value) :
    Keeps F n c (c.update t (some x)) := by
  obtain ⟨stem, k, hstem, hk, rfl, hget⟩ := h
  refine ⟨stays_update rfl (Config.isSome_frame? hget) _, fun y hy => ?_⟩
  rw [Config.get_update (Config.isSome_frame? hget), if_neg]
  rintro ⟨⟩
  exact hy stem k hstem hk rfl

theorem Fresh.of_stays {t : Var} (h : Fresh F n t c) (hs : Stays F c c') : Fresh F n t c' := by
  obtain ⟨stem, k, hstem, hk, rfl, hget⟩ := h
  exact ⟨stem, k, hstem, hk, rfl, hs.declared _ hget⟩

theorem Fresh.mono {t : Var} (h : Fresh F n' t c) (hle : n ≤ n') : Fresh F n t c := by
  obtain ⟨stem, k, hstem, hk, ht⟩ := h
  exact ⟨stem, k, hstem, Nat.lt_of_le_of_lt hle hk, ht⟩

/-- The operand is a constant or a variable of the frame that has no number above `n`. -/
def Steady (F : Frame) (n : Nat) : Operand → Prop
  | .var v => v.frame = F ∧ IsHeld n v.name
  | _ => True

theorem Steady.mono {a : Operand} (h : Steady F n a) (hle : n ≤ n') : Steady F n' a := by
  cases a with
  | var v => exact ⟨h.1, h.2.mono hle⟩
  | _ => trivial

theorem steady_numbered (hstem : stem = "%t" ∨ stem = "%s") (h : k ≤ n) :
    Steady F n (Operand.var ⟨F, stem ++ toString k⟩) := ⟨rfl, isHeld_numbered hstem h⟩

theorem Keeps.value?_eq {a : Operand} (h : Keeps F n c c') (ha : Steady F n a) :
    c'.value? a = c.value? a := by
  cases a with
  | var v =>
    obtain ⟨G, name⟩ := v
    obtain ⟨rfl, hname⟩ := ha
    rw [Config.value?, Config.value?, h.same name hname]
  | _ => rfl

end

/-! ## Finding a value -/

section

variable (m : Machine) (program : List Instr)

/-- The code leaves a value in an operand, and writes to variables with numbers above `n` for that. -/
def Finds (F : Frame) (n : Nat) (code : List Instr) (b : Operand) (z : Value) (c : Config) : Prop :=
  ∀ R, m.Does program R code
    (fun c' => Keeps F n c c' ∧ c'.output = c.output ∧ c'.value? b = some z) c

variable {m program} {F : Frame} {n : Nat} {code : List Instr} {a a' b : Operand} {x y z : Value}
  {t : Var} {c : Config}

namespace Finds

theorem nil (h : c.value? b = some z) : m.Finds program F n [] b z c :=
  fun _ => .nil ⟨.refl c, rfl, h⟩

/-- What holds from a temporary on that has been set holds from before. -/
theorem of_update (hfresh : Fresh F n t c) (h : m.Finds program F n code b z (c.update t (some x)))
    (R : Config → Prop) : m.Does program R code
      (fun c' => Keeps F n c c' ∧ c'.output = c.output ∧ c'.value? b = some z)
      (c.update t (some x)) :=
  (h R).imp fun _ ⟨hkeeps, hout, hvalue⟩ =>
    ⟨(hfresh.keeps x).trans hkeeps, hout.trans (Config.update_output ..), hvalue⟩

theorem move (hx : c.value? a = some x) (hfresh : Fresh F n t c)
    (h : m.Finds program F n code b z (c.update t (some x))) :
    m.Finds program F n (.move t a :: code) b z c :=
  fun R => .move hx hfresh.isSome (h.of_update hfresh R)

theorem binary {op : Binary} (hx : c.value? a = some x) (hy : c.value? a' = some y)
    (hw : m.binaryOp op x y = some w) (hfresh : Fresh F n t c)
    (h : m.Finds program F n code b z (c.update t (some w))) :
    m.Finds program F n (.binary op t a a' :: code) b z c :=
  fun R => .binary hx hy hw hfresh.isSome (h.of_update hfresh R)

theorem unary {op : Unary} (hop : op ≠ .typeOf) (hx : c.value? a = some x)
    (hw : m.unaryOp op x = some w) (hfresh : Fresh F n t c)
    (h : m.Finds program F n code b z (c.update t (some w))) :
    m.Finds program F n (.unary op t a :: code) b z c :=
  fun R => (h.of_update hfresh R).step fun rest => (step_unary hop rfl).mpr
    ⟨x, w, by rwa [Config.value?_goto], hw, hfresh.isSome, (Config.update_goto ..).symm⟩

theorem not {p : Bool} (hp : c.value? a = some (.bool p)) (hfresh : Fresh F n t c)
    (h : m.Finds program F n code b z (c.update t (some (.bool !p)))) :
    m.Finds program F n (.unary .not t a :: code) b z c :=
  .unary (by decide) hp rfl hfresh h

theorem typeOf {s : String} (hs : c.typeName? a = some s) (hfresh : Fresh F n t c)
    (h : m.Finds program F n code b z (c.update t (some (.str s)))) :
    m.Finds program F n (.unary .typeOf t a :: code) b z c :=
  fun R => .typeOf hs hfresh.isSome (h.of_update hfresh R)

theorem label (h : m.Finds program F n code b z c) : m.Finds program F n (.label l :: code) b z c :=
  fun R => .label (h R)

theorem append {code' : List Instr} (h : m.Finds program F n code a x c)
    (h' : ∀ c', Keeps F n c c' → c'.value? a = some x → m.Finds program F n code' b z c') :
    m.Finds program F n (code ++ code') b z c := by
  refine fun R => (h R).append ?_
  rintro c1 ⟨hkeeps, hout, hvalue⟩
  refine (h' c1 hkeeps hvalue R).imp ?_
  rintro c2 ⟨hkeeps', hout', hvalue'⟩
  exact ⟨hkeeps.trans hkeeps', hout'.trans hout, hvalue'⟩

/-- Code that is skipped on a condition. -/
theorem skip (hP : Distinct program) {i : Instr} {taken : Bool} (body : List Instr)
    (hi : Does.Jumps m program i l taken c)
    (hskip : taken = true → m.Finds program F n code b z c)
    (hbody : taken = false → m.Finds program F n (body ++ .label l :: code) b z c) :
    m.Finds program F n (i :: (body ++ .label l :: code)) b z c := by
  intro R
  cases taken with
  | true => exact .jump hP body hi (hskip rfl R)
  | false => exact .stay hi (hbody rfl R)

end Finds

theorem value?_update_temp (h : Fresh F n t c) (x : Value) :
    (c.update t (some x)).value? t = some x :=
  Config.value?_update h.isSome x

theorem typeName?_of_value? (h : c.value? a = some x) : c.typeName? a = some x.typeName := by
  cases a with
  | var v =>
    rw [Config.value?, Option.join_eq_some_iff] at h
    rw [Config.typeName?, h]
    rfl
  | _ => exact congrArg (Option.map Value.typeName) h

/-- The truth of an int. -/
theorem finds_truth {v : Int} (hv : c.value? a = some (.int v)) (hfresh : Fresh F n t c) :
    m.Finds program F n [.binary .eq t a (.int 0), .unary .not t t] t (.bool (v != 0)) c := by
  refine .binary (w := .bool (v == 0)) hv rfl rfl hfresh ?_
  have hfresh' := hfresh.of_stays (hfresh.keeps (.bool (v == 0))).toStays
  refine .not (value?_update_temp hfresh _) hfresh' (.nil ?_)
  exact value?_update_temp hfresh' _

/-- The int of a truth value. -/
theorem finds_bit (hP : Distinct program) {p : Bool} (hp : c.value? a = some (.bool p))
    (ha : Steady F n a) (hfresh : Fresh F n t c) :
    m.Finds program F n
      [.move t (.int 0), .jumpIfEq l a (.bool false), .move t (.int 1), .label l] t
      (.int (bit p)) c := by
  refine .move rfl hfresh ?_
  have hkeeps := hfresh.keeps (.int (0 : Int64).toInt)
  have hfresh' := hfresh.of_stays hkeeps.toStays
  have hp' := (hkeeps.value?_eq ha).trans hp
  have hjumps : Does.Jumps m program (.jumpIfEq l a (.bool false)) l (!p) _ :=
    Does.jumps_jumpIfEq hp' rfl (by cases p <;> rfl)
  refine .skip hP [.move t (.int 1)] hjumps (fun hskip => ?_) fun hgo => ?_
  · obtain rfl : p = false := by simpa using hskip
    exact .nil (value?_update_temp hfresh _)
  · obtain rfl : p = true := by simpa using hgo
    refine .move rfl hfresh' (.label (.nil ?_))
    exact value?_update_temp hfresh' _

theorem binaryOp_ordering {op : BinOp} (hop : op.isOrdering = true) (p q : Int) :
    m.binaryOp (orderingOp op).1 (.int p) (.int q) =
      some (.bool ((orderingOp op).2 != op.holds p q)) := by
  cases op with
  | less | greater => simp [orderingOp, binaryOp, BinOp.holds]
  | lessEqual | greaterEqual => simp [orderingOp, binaryOp, BinOp.holds, ← decide_not]
  | equal | notEqual => simp [orderingOp, binaryOp, equal?, BinOp.holds, bne]
  | _ => cases hop

/-- The comparison of two values, by an operation and its negation. -/
theorem finds_compared {op : BinOp} {truth : Bool} (hx : c.value? a = some x)
    (hy : c.value? a' = some y)
    (htruth : m.binaryOp (orderingOp op).1 x y = some (.bool ((orderingOp op).2 != truth)))
    (hfresh : Fresh F n t c) :
    m.Finds program F n (.binary (orderingOp op).1 t a a' ::
      if (orderingOp op).2 = true then [.unary .not t t] else []) t (.bool truth) c := by
  refine .binary hx hy htruth hfresh ?_
  have hfresh' := fun x => hfresh.of_stays (hfresh.keeps x).toStays
  cases (orderingOp op).2 with
  | true =>
    refine .not (value?_update_temp hfresh _) (hfresh' _) (.nil ?_)
    rw [value?_update_temp (hfresh' _)]
    simp
  | false =>
    refine .nil ?_
    rw [value?_update_temp hfresh]
    simp

/-- The comparison of two ints. -/
theorem finds_ordering {op : BinOp} (hop : op.isOrdering = true) {p q : Int}
    (hp : c.value? a = some (.int p)) (hq : c.value? a' = some (.int q)) (hfresh : Fresh F n t c) :
    m.Finds program F n (.binary (orderingOp op).1 t a a' ::
      if (orderingOp op).2 = true then [.unary .not t t] else []) t (.bool (op.holds p q)) c :=
  finds_compared hp hq (binaryOp_ordering hop p q) hfresh

/-- The comparison of two ints with their types. -/
theorem finds_identity (hP : Distinct program) {op : BinOp} (hop : op.isIdentity = true)
    {p q : Int} {t1 t2 : Var} (hp : c.value? a = some (.int p)) (hq : c.value? a' = some (.int q))
    (ha : Steady F n a) (ha' : Steady F n a') (ht1 : Steady F (n + 1) t1)
    (hfresh1 : Fresh F n t1 c) (hfresh2 : Fresh F (n + 1) t2 c) (ht2 : Steady F (n + 2) t2)
    (hfresh : Fresh F (n + 2) t c) :
    m.Finds program F n ([.unary .typeOf t1 a, .unary .typeOf t2 a', .move t (.bool false),
      .jumpIfNeq l t1 t2, .binary .eq t a a', .label l] ++
        if op = .notIdentical then [.unary .not t t] else []) t (.bool (op.holds p q)) c := by
  -- the temporaries are set one after the other, and each later one leaves the earlier ones alone
  have hkeeps1 := hfresh1.keeps (.str "int")
  replace hfresh2 := hfresh2.of_stays hkeeps1.toStays
  have hkeeps2 := hfresh2.keeps (.str "int")
  replace hfresh := (hfresh.of_stays hkeeps1.toStays).of_stays hkeeps2.toStays
  have hkeeps3 := hfresh.keeps (.bool false)
  have hfresh' := hfresh.of_stays hkeeps3.toStays
  have hall := (hkeeps1.trans (hkeeps2.mono (by omega))).trans (hkeeps3.mono (by omega))
  refine .typeOf (s := "int") (typeName?_of_value? hp) hfresh1 ?_
  refine .typeOf (s := "int") (typeName?_of_value? ((hkeeps1.value?_eq ha').trans hq))
    (hfresh2.mono (by omega)) ?_
  refine .move rfl (hfresh.mono (by omega)) ?_
  have hv2 : _ = some (Value.str "int") :=
    (hkeeps3.value?_eq ht2).trans (value?_update_temp hfresh2 _)
  have hv1 : _ = some (Value.str "int") :=
    (hkeeps3.value?_eq (ht1.mono (by omega))).trans
      ((hkeeps2.value?_eq ht1).trans (value?_update_temp hfresh1 _))
  refine .skip hP [.binary .eq t a a'] (Does.jumps_jumpIfNeq hv1 hv2 rfl)
    (fun h => by simp at h) fun _ => ?_
  refine .binary (w := .bool (p == q)) ((hall.value?_eq ha).trans hp) ((hall.value?_eq ha').trans hq)
    rfl (hfresh'.mono (by omega)) (.label ?_)
  have hfresh'' := hfresh'.of_stays (hfresh'.keeps (.bool (p == q))).toStays
  split
  · refine .not (value?_update_temp hfresh' _) (hfresh''.mono (by omega)) (.nil ?_)
    rw [value?_update_temp hfresh'']
    subst op
    rfl
  · refine .nil ?_
    rw [value?_update_temp hfresh']
    cases op with
    | identical => rfl
    | notIdentical => contradiction
    | _ => cases hop

end

theorem Finds.mono {m : Machine} {program : List Instr} {F : Frame} {n n' : Nat} {code : List Instr}
    {b : Operand} {z : Value} {c : Config} (h : m.Finds program F n' code b z c) (hle : n ≤ n') :
    m.Finds program F n code b z c :=
  fun R => (h R).imp fun _ ⟨hkeeps, hrest⟩ => ⟨hkeeps.mono hle, hrest⟩

/-! ## Runs of the interpreter -/

/-- Where the variables of a block of code are, and which are declared. -/
structure Home where
  frame : Frame
  vars : List Var
  frame_ne : frame ≠ .tf
  framed : ∀ v ∈ vars, v.frame = frame

/-- The configuration holds what the state of the interpreter says.  What is not set there may
hold anything here. -/
structure Shows (H : Home) (s : State Int Unit) (c : Config) : Prop where
  vars : ∀ x v, IsVarName x.toList → s.frame.vars x = some v →
    c.get ⟨H.frame, bareName x⟩ = some (some (.int v))
  declared : ∀ v ∈ H.vars, (c.get v).isSome = true
  output : c.output = written s.calls

variable {H : Home} {s s' : State Int Unit} {c c' : Config} {n n' : Nat}

theorem Shows.keeps (h : Shows H s c) (hkeeps : Keeps H.frame n c c') (hframe : s'.frame = s.frame)
    (hout : c'.output = written s'.calls) : Shows H s' c' where
  vars x v hx hv := by
    rw [hkeeps.same _ (isHeld_bareName hx n)]
    exact h.vars x v hx (hframe ▸ hv)
  declared v hv := by
    obtain ⟨F, name⟩ := v
    obtain rfl : F = H.frame := H.framed _ hv
    exact hkeeps.declared _ (h.declared _ hv)
  output := hout

/-- The variable is a temporary of the block with a number above `n`. -/
def Home.IsTemp (H : Home) (n : Nat) (t : Var) : Prop :=
  ∃ k, n < k ∧ t = ⟨H.frame, "%t" ++ toString k⟩ ∧ t ∈ H.vars

theorem Shows.fresh (h : Shows H s c) {t : Var} (ht : H.IsTemp n t) : Fresh H.frame n t c := by
  obtain ⟨k, hk, heq, hmem⟩ := ht
  exact ⟨"%t", k, .inl rfl, hk, heq, h.declared _ hmem⟩

/-- The code leaves in an operand what the run of the interpreter yields.  A run that stops with a
fault says nothing about the code. -/
def Computes (m : Machine) (program : List Instr) (H : Home) {α : Type} (x : Run Int Unit Unit α)
    (shown : α → Value) (n : Nat) (code : List Instr) (a : Operand) : Prop :=
  ∀ ⦃s v s'⦄, x s = .ok v s' → s'.frame = s.frame ∧ ∀ R c, Shows H s c → m.Does program R code
    (fun c' => Keeps H.frame n c c' ∧ c'.output = written s'.calls ∧ c'.value? a = some (shown v)) c

section

variable {m : Machine} {program : List Instr} {α β γ : Type} {x : Run Int Unit Unit α}
  {y : Run Int Unit Unit β} {z : Run Int Unit Unit γ} {shown : α → Value} {shown' : β → Value}
  {shown'' : γ → Value} {code code' last : List Instr} {a a' b : Operand}

namespace Computes

/-- What needs no code. -/
theorem of_value (h : ∀ s v s', x s = .ok v s' → s' = s ∧
    ∀ c, Shows H s c → c.value? a = some (shown v)) : m.Computes program H x shown n [] a := by
  intro s v s' hx
  obtain ⟨rfl, hvalue⟩ := h s v s' hx
  exact ⟨rfl, fun R c hc => .nil ⟨.refl c, hc.output, hvalue c hc⟩⟩

/-- An operation on a value that has been computed. -/
theorem andThen (hy : m.Computes program H y shown' n code a)
    (h : ∀ s v s', x s = .ok v s' → ∃ p, y s = .ok p s' ∧ ∀ c, Shows H s' c →
      c.value? a = some (shown' p) → m.Finds program H.frame n last b (shown v) c) :
    m.Computes program H x shown n (code ++ last) b := by
  intro s v s' hx
  obtain ⟨p, hp, hlast⟩ := h s v s' hx
  obtain ⟨hframe, hdoes⟩ := hy hp
  refine ⟨hframe, fun R c hc => (hdoes R c hc).append ?_⟩
  rintro c1 ⟨hkeeps, hout, hvalue⟩
  refine (hlast c1 (hc.keeps hkeeps hframe hout) hvalue R).imp ?_
  rintro c2 ⟨hkeeps', hout', hvalue'⟩
  exact ⟨hkeeps.trans hkeeps', hout'.trans hout, hvalue'⟩

/-- An operation on two values that have been computed. -/
theorem both (hy : m.Computes program H y shown' n code a) (hle : n ≤ n') (ha : Steady H.frame n' a)
    (hz : m.Computes program H z shown'' n' code' a')
    (h : ∀ s v s', x s = .ok v s' → ∃ p s1 q, y s = .ok p s1 ∧ z s1 = .ok q s' ∧
      ∀ c, Shows H s' c → c.value? a = some (shown' p) → c.value? a' = some (shown'' q) →
        m.Finds program H.frame n last b (shown v) c) :
    m.Computes program H x shown n (code ++ (code' ++ last)) b := by
  intro s v s' hx
  obtain ⟨p, s1, q, hp, hq, hlast⟩ := h s v s' hx
  obtain ⟨hframe, hdoes⟩ := hy hp
  obtain ⟨hframe', hdoes'⟩ := hz hq
  refine ⟨hframe'.trans hframe, fun R c hc => (hdoes R c hc).append ?_⟩
  rintro c1 ⟨hkeeps, hout, hvalue⟩
  have hc1 := hc.keeps hkeeps hframe hout
  refine (hdoes' R c1 hc1).append ?_
  rintro c2 ⟨hkeeps', hout', hvalue'⟩
  refine (hlast c2 (hc1.keeps hkeeps' hframe' hout') ((hkeeps'.value?_eq ha).trans hvalue) hvalue'
    R).imp ?_
  rintro c3 ⟨hkeeps'', hout'', hvalue''⟩
  exact ⟨(hkeeps.trans (hkeeps'.mono hle)).trans hkeeps'', hout''.trans hout', hvalue''⟩

/-- A logical operator, which leaves out its right operand if the left one decides. -/
theorem logical (hP : Distinct program)
    {call : String → List Int → Run Int Unit Unit (Option Int)} {op : BinOp} {decided : Bool}
    (hop : op.shortcut? = some decided) {left right : Expr} {t : Var} {n1 n2 : Nat} (hn1 : n ≤ n1)
    (hn2 : n ≤ n2) (ht : H.IsTemp n t)
    (hl : m.Computes program H (left.test (.integer m) call) .bool n1 code a)
    (hr : m.Computes program H (right.test (.integer m) call) .bool n2 code' b) :
    m.Computes program H ((Expr.binary op left right).test (.integer m) call) .bool n
      (code ++ .move t a :: .jumpIfEq l t (.bool decided) ::
        ((code' ++ [.move t b]) ++ [.label l])) t := by
  intro s v s' hx
  obtain ⟨p, s1, hp, hrest⟩ := test_logical hop hx
  obtain ⟨hframe, hdoes⟩ := hl hp
  have hframe' : p ≠ decided → s'.frame = s1.frame := fun hne => by
    rw [if_neg hne] at hrest
    exact (hr hrest).1
  refine ⟨?_, fun R c hc => (hdoes R c hc).append ?_⟩
  · by_cases hdecided : p = decided
    · rw [if_pos hdecided] at hrest
      rw [hrest.2, hframe]
    · rw [hframe' hdecided, hframe]
  rintro c1 ⟨hkeeps, hout, hvalue⟩
  have hc1 := hc.keeps hkeeps hframe hout
  have hfresh := hc1.fresh ht
  have hkeeps2 := hfresh.keeps (.bool p)
  have hout2 : (c1.update t (some (.bool p))).output = written s1.calls :=
    (Config.update_output ..).trans hout
  have hc2 := hc1.keeps hkeeps2 rfl hout2
  have hall := (hkeeps.mono hn1).trans hkeeps2
  have hp' := value?_update_temp hfresh (.bool p)
  have hjumps : Does.Jumps m program (.jumpIfEq l t (.bool decided)) l (p == decided) _ :=
    Does.jumps_jumpIfEq hp' rfl rfl
  refine .move hvalue hfresh.isSome (.skip hP _ hjumps (fun hskip => ?_) fun hgo => ?_)
  · rw [if_pos (beq_iff_eq.mp hskip)] at hrest
    obtain ⟨rfl, rfl⟩ := hrest
    exact .nil ⟨hall, hout2, beq_iff_eq.mp hskip ▸ hp'⟩
  · have hne : p ≠ decided := by simpa using hgo
    rw [if_neg hne] at hrest
    refine ((hr hrest).2 R _ hc2).append ?_
    rintro c3 ⟨hkeeps3, hout3, hvalue3⟩
    have hfresh3 := (hc2.keeps hkeeps3 (hframe' hne) hout3).fresh ht
    refine .move hvalue3 hfresh3.isSome (.nil (.nil ⟨?_, ?_, value?_update_temp hfresh3 _⟩))
    · exact (hall.trans (hkeeps3.mono hn2)).trans (hfresh3.keeps _)
    · exact (Config.update_output ..).trans hout3

end Computes

/-! ## Calls -/

/-- The code pushes the values that the interpreter finds, the first one first. -/
def Pushes (m : Machine) (program : List Instr) (H : Home) (x : Run Int Unit Unit (List Int))
    (n : Nat) (code : List Instr) : Prop :=
  ∀ ⦃s values s'⦄, x s = .ok values s' → s'.frame = s.frame ∧ ∀ R c, Shows H s c →
    m.Does program R code (fun c' => c'.stack = values.reverse.map .int ++ c.stack ∧
      Keeps H.frame n c { c' with stack := c.stack } ∧ c'.output = written s'.calls) c

variable {call : String → List Int → Run Int Unit Unit (Option Int)}

theorem pushes_nil : m.Pushes program H (Expr.evalAll (.integer m) call []) n [] := by
  intro s values s' hx
  rw [Expr.evalAll] at hx
  cases hx
  exact ⟨rfl, fun R c hc => .nil ⟨rfl, .refl c, hc.output⟩⟩

theorem Pushes.cons {e : Expr} {rest : List Expr}
    (he : m.Computes program H (e.eval (.integer m) call) .int n code a) (hle : n ≤ n')
    (hrest : m.Pushes program H (Expr.evalAll (.integer m) call rest) n' code') :
    m.Pushes program H (Expr.evalAll (.integer m) call (e :: rest)) n (code ++ .push a :: code') := by
  intro s values s' hx
  obtain ⟨v, s1, values', hv, hvalues, rfl⟩ := evalAll_cons hx
  obtain ⟨hframe, hdoes⟩ := he hv
  obtain ⟨hframe', hdoes'⟩ := hrest hvalues
  refine ⟨hframe'.trans hframe, fun R c hc => (hdoes R c hc).append ?_⟩
  rintro c1 ⟨hkeeps, hout, hvalue⟩
  have hc1 := hc.keeps hkeeps hframe hout
  have hc1' : Shows H s1 { c1 with stack := .int v :: c1.stack } :=
    ⟨hc1.vars, hc1.declared, hc1.output⟩
  refine .push hvalue ((hdoes' R _ hc1').imp ?_)
  rintro c2 ⟨hstack, hkeeps', hout'⟩
  refine ⟨?_, ⟨⟨rfl, ?_, ?_, ?_⟩, ?_⟩, hout'⟩
  · rw [hstack, hkeeps.stack]
    simp
  · exact hkeeps'.calls.trans hkeeps.calls
  · exact hkeeps'.outer.trans hkeeps.outer
  · exact fun x hx => hkeeps'.declared x (hkeeps.declared x hx)
  · exact fun x hx => (hkeeps'.same x (hx.mono hle)).trans (hkeeps.same x hx)

/-- What is so behind a call: but for the temporary frame, only the stack and the output may have
changed.  The temporary frame is where the caller finds the result. -/
structure Returns (stack : List Value) (output : String) (c c' : Config) : Prop where
  stack : c'.stack = stack
  calls : c'.calls = c.calls
  gf : c'.gf = c.gf
  lf : c'.lf = c.lf
  output : c'.output = output

theorem Returns.get_eq (h : Returns stack output c c') {v : Var} (hv : v.frame ≠ .tf) :
    c'.get v = c.get v := by
  unfold Config.get Config.frame?
  cases hF : v.frame with
  | tf => exact absurd hF hv
  | gf => simp only [h.gf]
  | lf => simp only [h.lf]

theorem Returns.keeps {F : Frame} (hF : F ≠ .tf) (h : Returns stack output c c') :
    Keeps F n { c with stack := stack } c' := by
  have hget : ∀ x, c'.get ⟨F, x⟩ = Config.get { c with stack := stack } ⟨F, x⟩ := fun x => h.get_eq hF
  refine ⟨⟨h.stack, h.calls, ?_, fun x hx => by rwa [hget]⟩, fun x _ => hget x⟩
  cases F <;> simp only [Config.outer, h.gf, h.lf]

/-- The end of a call does what the interpreter makes of the call: it takes the arguments from the
stack and leaves the result in the temporary frame. -/
def Answers (m : Machine) (program : List Instr) (callee : String → Nat → Prop)
    (call : String → List Int → Run Int Unit Unit (Option Int)) : Prop :=
  ∀ ⦃name args s r s'⦄, callee name args.length → call name args s = .ok r s' →
    s'.frame = s.frame ∧ ∀ R c stack, c.stack = args.reverse.map .int ++ stack →
      c.output = written s.calls → m.Does program R (callEnd name args.length)
        (fun c' => Returns stack (written s'.calls) c c' ∧
          ∀ v, r = some v → c'.get Var.returned = some (some (.int v))) c

variable {callee : String → Nat → Prop}

/-- A call, from its arguments to its result. -/
theorem Pushes.answered {values : List Int} {s1 : State Int Unit} {r : Option Int}
    (h : m.Pushes program H (Expr.evalAll (.integer m) call args) n code)
    (hanswers : m.Answers program callee call) (hcallee : callee name args.length)
    (hvalues : Expr.evalAll (.integer m) call args s = .ok values s1)
    (hr : call name values s1 = .ok r s') :
    s'.frame = s.frame ∧ ∀ R c, Shows H s c → m.Does program R (code ++ callEnd name args.length)
      (fun c' => Keeps H.frame n c c' ∧ c'.output = written s'.calls ∧
        ∀ v, r = some v → c'.get Var.returned = some (some (.int v))) c := by
  obtain ⟨hframe, hdoes⟩ := h hvalues
  have hlength := length_evalAll hvalues
  obtain ⟨hframe', hdoes'⟩ := hanswers (hlength ▸ hcallee) hr
  refine ⟨hframe'.trans hframe, fun R c hc => (hdoes R c hc).append ?_⟩
  rintro c1 ⟨hstack, hkeeps, hout⟩
  rw [← hlength]
  refine (hdoes' R c1 c.stack hstack hout).imp ?_
  rintro c2 ⟨hreturns, hresult⟩
  exact ⟨hkeeps.trans (hreturns.keeps H.frame_ne), hreturns.output, hresult⟩

/-- The value of a call. -/
theorem Pushes.computes {t : Var}
    (h : m.Pushes program H (Expr.evalAll (.integer m) call args) n code)
    (hanswers : m.Answers program callee call) (hcallee : callee name args.length)
    (ht : H.IsTemp n t) :
    m.Computes program H ((Expr.call name args).eval (.integer m) call) .int n
      (code ++ callEnd name args.length ++ [.move t Var.returned]) t := by
  intro s v s' hx
  obtain ⟨values, s1, hvalues, hr⟩ := eval_call hx
  obtain ⟨hframe, hdoes⟩ := h.answered hanswers hcallee hvalues hr
  refine ⟨hframe, fun R c hc => (hdoes R c hc).append ?_⟩
  rintro c1 ⟨hkeeps, hout, hresult⟩
  have hfresh := (hc.keeps hkeeps hframe hout).fresh ht
  refine .move (Config.value?_of_get (hresult v rfl)) hfresh.isSome (.nil ⟨?_, ?_, ?_⟩)
  · exact hkeeps.trans (hfresh.keeps _)
  · exact (Config.update_output ..).trans hout
  · exact value?_update_temp hfresh _

end

end Ifj22.Machine
