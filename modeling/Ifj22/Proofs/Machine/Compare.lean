import Ifj22.Proofs.Code.Integer
import Ifj22.Proofs.Machine.Convert
import Ifj22.Proofs.Number.Nearest
set_option autoImplicit false

/-!
# Machine: comparisons of variables

The operands of a comparison are brought to one type of number: to int if neither can be anything but
an int or null, and to float otherwise.  Two ints are therefore compared as they are, or as the doubles
nearest to them.  Two ints that are nearest to one double are equal then; all others compare as they
are.
-/

namespace Ifj22

open Code Code.Generator

variable {target ty : Ty} {op : BinOp} {o : Ordering} {arena : Arena} {id left right : NodeId}
  {rest : List Instr} {V : Vocabulary} {P : Machine.Config → Prop} {t : Operand}

/-! ## Orders -/

/-- The truth that a comparison finds in how two numbers compare. -/
def BinOp.decides : BinOp → Ordering → Bool
  | .less, o => o == .lt
  | .lessEqual, o => o != .gt
  | .greater, o => o == .gt
  | .greaterEqual, o => o != .lt
  | .equal, o => o == .eq
  | .notEqual, o => o != .eq
  | _, _ => false

section

variable {op : BinOp} (hop : op.isOrdering = true)

include hop

theorem BinOp.holds_eq (p q : Int) : op.holds p q = op.decides (compare p q) := by
  have hlt : (compare p q = .lt) = (p < q) := propext Int.compare_eq_lt
  have hgt : (compare p q = .gt) = (q < p) := propext Int.compare_eq_gt
  have heq : (compare p q = .eq) = (p = q) := propext Int.compare_eq_eq
  rw [Bool.eq_iff_iff]
  cases op with
  | less | greater | equal | notEqual => simp [holds, decides, hlt, hgt, heq]
  | lessEqual | greaterEqual => simp [holds, decides, hlt, hgt]
  | _ => cases hop

theorem Node.foldBinary?_ints (a b : Int64) : Node.foldBinary? op (.int a) (.int b) =
    some (.ofBool (op.decides (compare a.toInt b.toInt))) := by
  have hbeq : (a == b) = (a.toInt == b.toInt) := by
    rw [Bool.eq_iff_iff, beq_iff_eq, beq_iff_eq, Int64.toInt_inj]
  rw [← BinOp.holds_eq hop]
  cases op with
  | equal | notEqual => simp [foldBinary?, foldInts?, BinOp.holds, bne, hbeq]
  | less | lessEqual | greater | greaterEqual =>
    simp [foldBinary?, foldInts?, BinOp.holds, Int64.lt_iff_toInt_lt, Int64.le_iff_toInt_le]
  | _ => cases hop

theorem Node.foldBinary?_floats {x y : Float} (h : Number.Ordered x y o) :
    Node.foldBinary? op (.float x) (.float y) = some (.ofBool (op.decides o)) := by
  cases op with
  | less => exact congrArg (some <| ofBool ·) h.lt
  | lessEqual => exact congrArg (some <| ofBool ·) h.le
  | greater => exact congrArg (some <| ofBool ·) h.gt
  | greaterEqual => exact congrArg (some <| ofBool ·) h.ge
  | equal => exact congrArg (some <| ofBool ·) h.eq
  | notEqual => exact congrArg (some <| ofBool !·) h.eq
  | _ => cases hop

namespace Machine

/-- The machine compares doubles as the compiler does.  Whether two doubles are equal is fixed for
every machine. -/
structure Orders (m : Machine) : Prop where
  lt : ∀ x y : Float, m.binaryOp .lt (.float x) (.float y) = some (.bool (decide (x < y)))
  gt : ∀ x y : Float, m.binaryOp .gt (.float x) (.float y) = some (.bool (decide (x > y)))

theorem Orders.binaryOp_ordering {m : Machine} (h : m.Orders) {x y : Float}
    (hxy : Number.Ordered x y o) : m.binaryOp (orderingOp op).1 (.float x) (.float y) =
      some (.bool ((orderingOp op).2 != op.decides o)) := by
  have heq : m.binaryOp .eq (.float x) (.float y) = some (.bool (x == y)) := rfl
  cases op with
  | less | greaterEqual => cases o <;> simp [orderingOp, BinOp.decides, h.lt, hxy.lt]
  | greater | lessEqual => cases o <;> simp [orderingOp, BinOp.decides, h.gt, hxy.gt]
  | equal | notEqual => cases o <;> simp [orderingOp, BinOp.decides, heq, hxy.eq]
  | _ => cases hop

end Machine

end

namespace Code.Generator

/-! ## Normalization -/

variable {g : Generator}

/-- The next shadow. -/
def shadow (g : Generator) : Var := g.numbered "%s"

/-- The generator behind the next shadow. -/
def withShadow (g : Generator) : Generator := { g with temps := g.temps + 1 }.withVar g.shadow

/-- The routine that brings a value to a type of number. -/
def numberRoutine (target : Ty) : Routine := if target == .int then .toInt else .toFloat

/-- The call of a conversion. -/
def convertCode (r : Routine) (v dest : Var) : List Instr :=
  [.push v, .createFrame, .call r.entry, .move dest Var.returned]

theorem normalize_same (v : Var) (ty : Ty) : normalize v ty ty g = .ok (.var v) g := by
  simp only [normalize, if_true]
  rfl

theorem normalize_int2float (v : Var) : normalize v .int .float g =
    .ok (.var g.shadow) (g.withShadow.extend [.unary .int2float g.shadow v]) := rfl

theorem normalize_converted (v : Var) (hty : ty ≠ target) (hint : ¬ (ty = .int ∧ target ≠ .int)) :
    normalize v ty target g =
      .ok (.var g.shadow) (g.withShadow.withCode (convertCode (numberRoutine target) v g.shadow)
        (if numberRoutine target ∈ g.helpers then g.helpers
          else numberRoutine target :: g.helpers)) := by
  have hint' : ¬ (ty = .int ∧ (!(target == .int)) = true) := by simpa using hint
  unfold normalize
  simp only [hty, hint', if_false]
  change (do
    let dest ← newShadow
    convert (numberRoutine target) v dest
    pure (Operand.var dest) : Generate Operand) g = _
  generalize numberRoutine target = r
  rfl

/-- A variable as a number of a type. -/
def numberOf (name : String) (ty target : Ty) : Generate Operand := do
  let v ← variableOf name
  normalize v ty target

/-- The truth of a comparison of two variables. -/
theorem condition_ordering {x y : String} (hid : arena.node id = .binary op left right)
    (hleft : arena.node left = .var x) (hright : arena.node right = .var y)
    (hop : op.isOrdering = true) (g : Generator) :
    condition arena id g = (do
      let a ← numberOf x (g.env.varTy x) ((g.env.varTy x).widen (g.env.varTy y))
      let b ← numberOf y (g.env.varTy y) ((g.env.varTy x).widen (g.env.varTy y))
      ordering op a b : Generate Operand) g := by
  have hidentity : op.isIdentity = false := by
    cases op with
    | identical | notIdentical => cases hop
    | _ => rfl
  have hvariable : ∀ {fuel n z}, arena.node n = .var z → exprAt arena (fuel + 1) n =
      (do let v ← variableOf z; pure (.var v)) := by
    intro fuel n z hz
    rw [exprAt, hz]
    rfl
  have hinfer : ∀ {env : TypeEnv} {n z}, arena.node n = .var z → arena.infer env n = env.varTy z := by
    intro env n z hz
    have hsize : n < arena.size := Arena.lt_size_of_node hz (by rintro ⟨⟩)
    obtain ⟨k, hk⟩ := Nat.exists_eq_add_one_of_ne_zero (Nat.ne_zero_of_lt hsize)
    rw [Arena.infer, hk, Arena.inferAt, hz]
  unfold condition depth
  rw [conditionAt, hid]
  simp only [hidentity, hop, hvariable hleft, hvariable hright, hinfer hleft, hinfer hright, numberOf,
    Bool.false_eq_true, if_false, if_true, bind_assoc, pure_bind]
  rfl

end Code.Generator

namespace Machine

variable {m : Machine} {program : List Instr} {F : Frame} {n : Nat} {c c' : Config} {v s : Var}
  {x y z : Value} {a b : Operand} {code : List Instr} {g g1 g' : Generator}

/-! ## Conversions at run time -/

/-- What a word becomes as a number of a type. -/
def wordAs (target : Ty) (w : Int64) : Value :=
  if target = .int then .int w.toInt else .float (Number.ofWord w)

theorem yields_numberRoutine (hP : Distinct program) (hcasts : m.Casts)
    (hplace : ((numberRoutine target).body ++ rest) <:+ program) (w : Int64) :
    m.Yields program (numberRoutine target) (.int w.toInt) (wordAs target w) := by
  by_cases htarget : target = .int
  · have hroutine : numberRoutine target = .toInt := if_pos (by simpa using htarget)
    rw [hroutine] at hplace
    rw [hroutine, wordAs, if_pos htarget]
    exact yields_number_same hP (fun _ => rfl) hplace rfl (by decide)
  · have hroutine : numberRoutine target = .toFloat := if_neg (by simpa using htarget)
    rw [hroutine] at hplace
    rw [hroutine, wordAs, if_neg htarget]
    exact yields_number_converted hP (fun _ => rfl) hplace (by decide) rfl rfl (by decide) (by decide)
      (hcasts.int2float w)

/-- A value that a routine converts. -/
theorem finds_converted {r : Routine} (hF : F ≠ .tf) (hx : c.value? v = some x)
    (hyields : m.Yields program r x z) (hfresh : Fresh F n s c) :
    m.Finds program F n (convertCode r v s) s z c := by
  refine fun R => .push hx (.createFrame fun rest hrest => ?_)
  obtain ⟨c', hrun, hreturns, hz⟩ := hyields
    { c with stack := x :: c.stack, tf := some fun _ => none } c.stack (.move s Var.returned :: rest)
    rfl rfl
  have hback : Returns c.stack c.output c c' :=
    ⟨hreturns.stack, hreturns.calls, hreturns.gf, hreturns.lf, hreturns.output⟩
  have hkeeps : Keeps F n c c' := hback.keeps hF
  have hfresh' := hfresh.of_stays hkeeps.toStays
  refine .after hrun (Does.move (Config.value?_of_get hz) hfresh'.isSome (.nil ?_) rest
    ((List.suffix_cons ..).trans hrest))
  exact ⟨hkeeps.trans (hfresh'.keeps z), (Config.update_output ..).trans hback.output,
    value?_update_temp hfresh' z⟩

/-! ## What a step of the generator delivers -/

/-- The program holds the routines that the generator asks for, and the variables of its segment
are declared.  Both stand outside of the code of an expression, the routines behind it and the
declarations before it. -/
structure Supports (program : List Instr) (g : Generator) (c : Config) : Prop where
  routines : ∀ r ∈ g.helpers, ∃ rest, (r.body ++ rest) <:+ program
  declared : ∀ v ∈ g.segment.declared, (c.get v).isSome = true

theorem Supports.of_growth {r : List Label} (h : Supports program g' c) (hg : Growth r g g') :
    Supports program g c :=
  ⟨fun r hr => h.routines r (hg.helpers r hr), fun v hv => h.declared v (hg.declared v hv)⟩

theorem Supports.stays (h : Supports program g c) (hg : g.Tidy) (hs : Stays g.segment.frame c c') :
    Supports program g c' :=
  ⟨h.routines, fun v hv => hs.isSome (hg.frame v hv) (h.declared v hv)⟩

/-- The generator has added code that leaves a value in an operand, wherever the condition holds. -/
structure Delivers (m : Machine) (P : Config → Prop) (z : Value) (g : Generator) (a : Operand)
    (g' : Generator) : Prop where
  growth : Growth [] g g'
  holds : g'.Holds a
  steady : Steady g.segment.frame g'.temps a
  finds : ∀ {program c}, Distinct program → Supports program g' c → P c →
    m.Finds program g.segment.frame g.temps (added g g') a z c

theorem delivers_normalize (hcasts : m.Casts) (hF : g.segment.frame ≠ .tf) (hv : g.Holds (.var v))
    (hsteady : Steady g.segment.frame g.temps (.var v)) (hty : ty ≠ .float)
    (htarget : target = .int ∨ target = .float) (w : Int64) :
    ∃ a g', normalize v ty target g = .ok a g' ∧
      m.Delivers (fun c => c.value? v = some (.int w.toInt)) (wordAs target w) g a g' := by
  have hemits : ∀ {a g'}, normalize v ty target g = .ok a g' → Growth [] g g' ∧ g'.Holds a := fun h =>
    ((emits_normalize (K := ⟨.spelled, false, []⟩) hv ty target).of_ok h).imp_left (·.toGrowth)
  have hshadow : Steady g.segment.frame (g.temps + 1) (.var g.shadow) :=
    steady_numbered (.inr rfl) le_rfl
  have hfresh : ∀ {program c code helpers}, Supports program (g.withShadow.withCode code helpers) c →
      Fresh g.segment.frame g.temps g.shadow c := fun h =>
    ⟨"%s", _, .inr rfl, Nat.lt_succ_self _, rfl, h.declared _ (mem_withVar.mpr (.inr rfl))⟩
  by_cases hsame : ty = target
  · subst hsame
    have hint : ty = .int := htarget.resolve_right hty
    refine ⟨_, _, normalize_same v ty, .refl g, hv, hsteady, fun _ _ hw => ?_⟩
    rw [added_self, wordAs, if_pos hint]
    exact .nil hw
  -- an int becomes a float by one instruction, and all else calls a routine
  by_cases hint : ty = .int ∧ target ≠ .int
  · obtain ⟨rfl, hne⟩ := hint
    obtain rfl := htarget.resolve_left hne
    have hrun := normalize_int2float (g := g) v
    refine ⟨_, _, hrun, (hemits hrun).1, (hemits hrun).2, hshadow, fun _ hs hw => ?_⟩
    have hadded : added g (g.withShadow.extend [.unary .int2float g.shadow v]) =
        [.unary .int2float g.shadow v] := added_eq (body_extend g.withShadow _)
    rw [hadded]
    exact .unary (by decide) hw (hcasts.int2float w) (hfresh hs)
      (.nil (value?_update_temp (hfresh hs) _))
  · have hrun := normalize_converted (g := g) v hsame hint
    refine ⟨_, _, hrun, (hemits hrun).1, (hemits hrun).2, hshadow, fun hP hs hw => ?_⟩
    have hadded (code : List Instr) (helpers : List Routine) :
        added g (g.withShadow.withCode code helpers) = code := added_eq Array.toList_appendList
    rw [hadded]
    obtain ⟨rest, hplace⟩ := hs.routines (numberRoutine target) (by
      show _ ∈ (if _ then _ else _)
      split <;> simp_all)
    exact finds_converted hF hw (yields_numberRoutine hP hcasts hplace w) (hfresh hs)

/-- The configuration holds a word in a variable of the frame. -/
def HoldsWord (F : Frame) (name : String) (w : Int64) (c : Config) : Prop :=
  c.value? (.var ⟨F, bareName name⟩) = some (.int w.toInt)

theorem delivers_numberOf (hcasts : m.Casts) (hF : g.segment.frame ≠ .tf) (hg : g.Knows V)
    {name : String} (hname : V.var name) (hty : ty ≠ .float)
    (htarget : target = .int ∨ target = .float) (w : Int64) :
    ∃ a g', numberOf name ty target g = .ok a g' ∧
      m.Delivers (HoldsWord g.segment.frame name w) (wordAs target w) g a g' := by
  obtain ⟨v, g1, hvar, hstep, hadded, rfl, hmem⟩ :=
    Meets.exists_ok (emits_variableOf (K := ⟨V, false, []⟩) hg hname)
  have hsteady : Steady g1.segment.frame g1.temps (.var ⟨g.segment.frame, bareName name⟩) :=
    ⟨hstep.frame.symm, isHeld_bareName (hg.var name hname).1 _⟩
  obtain ⟨a, g', hrun, h⟩ := delivers_normalize hcasts (hstep.frame ▸ hF) (holds_var.mpr (.inl hmem))
    hsteady hty htarget w
  refine ⟨a, g', bind_eq_ok.mpr ⟨_, g1, hvar, hrun⟩, hstep.toGrowth.trans h.growth, h.holds, ?_, ?_⟩
  · rw [← hstep.frame]
    exact h.steady
  · intro program c hP hs hw
    rw [hstep.added_trans h.growth, hadded, ← hstep.frame]
    exact (h.finds hP hs hw).mono hstep.temps

/-- The comparison of two values that have been left in operands. -/
theorem Delivers.ordering {P' : Config → Prop} {g2 : Generator} {truth : Bool}
    (h : m.Delivers P x g a g1) (h' : m.Delivers P' y g1 b g2) (htidy : g2.Tidy)
    (hP' : ∀ c c', Keeps g.segment.frame g.temps c c' → P' c → P' c')
    (htruth : m.binaryOp (orderingOp op).1 x y = some (.bool ((orderingOp op).2 != truth))) :
    ∃ t g', ordering op a b g2 = .ok t g' ∧
      m.Delivers (fun c => P c ∧ P' c) (.bool truth) g t g' := by
  have hgrowth := h.growth.trans h'.growth
  obtain ⟨hstep, hholds⟩ := (emits_ordering (K := ⟨.spelled, false, []⟩) op
    (h'.growth.holds h.holds) h'.holds).of_ok (ordering_eq op a b g2)
  have hlast := hstep.toGrowth
  have hframe1 := h.growth.frame
  have hframe2 := hgrowth.frame
  refine ⟨_, _, ordering_eq op a b g2, hgrowth.trans hlast, hholds, ?_, ?_⟩
  · rw [← hframe2]
    exact steady_numbered (.inl rfl) le_rfl
  · rintro program c hdistinct hs ⟨hc, hc'⟩
    rw [hgrowth.added_trans hlast, h.growth.added_trans h'.growth, List.append_assoc,
      added_eq (g := g2) (body_extend g2.withTemp _)]
    have hs2 := hs.of_growth hlast
    have hs1 := hs2.of_growth h'.growth
    refine (h.finds hdistinct hs1 hc).append fun c1 hkeeps hx => ?_
    have hs2' := hs2.stays htidy (hframe2 ▸ hkeeps.toStays)
    refine Finds.mono ?_ h.growth.temps
    rw [← hframe1]
    refine (h'.finds hdistinct hs2' (hP' c c1 hkeeps hc')).append fun c2 hkeeps' hy => ?_
    -- the code of the second operand writes to later variables than the one of the first
    have hx' := (hkeeps'.value?_eq (hframe1 ▸ h.steady)).trans hx
    refine (finds_compared hx' hy htruth ?_).mono h'.growth.temps
    refine ⟨"%t", _, .inl rfl, Nat.lt_succ_self _, by rw [← h'.growth.frame]; rfl, ?_⟩
    refine hkeeps'.isSome h'.growth.frame (hkeeps.isSome hframe2 ?_)
    exact hs.declared _ (mem_withTemp.mpr (.inr rfl))

/-- How two words compare as numbers of a type. -/
def OrderedAs (target : Ty) (p q : Int64) (o : Ordering) : Prop :=
  if target = .int then o = compare p.toInt q.toInt
  else Number.Ordered (Number.ofWord p) (Number.ofWord q) o

theorem OrderedAs.binaryOp_ordering (horders : m.Orders) (hop : op.isOrdering = true)
    {p q : Int64} (h : OrderedAs target p q o) :
    m.binaryOp (orderingOp op).1 (wordAs target p) (wordAs target q) =
      some (.bool ((orderingOp op).2 != op.decides o)) := by
  unfold OrderedAs at h
  unfold wordAs
  split at h
  · subst h
    rw [if_pos ‹_›, if_pos ‹_›, Machine.binaryOp_ordering hop, BinOp.holds_eq hop]
  · rw [if_neg ‹_›, if_neg ‹_›]
    exact horders.binaryOp_ordering hop h

theorem delivers_condition (hcasts : m.Casts) (horders : m.Orders) {x y : String}
    (hid : arena.node id = .binary op left right) (hleft : arena.node left = .var x)
    (hright : arena.node right = .var y) (hop : op.isOrdering = true) (hg : g.Knows V)
    (hx : V.var x) (hy : V.var y) (hF : g.segment.frame ≠ .tf) (htx : g.env.varTy x ≠ .float)
    (hty : g.env.varTy y ≠ .float) {p q : Int64}
    (ho : OrderedAs ((g.env.varTy x).widen (g.env.varTy y)) p q o) :
    ∃ t g', condition arena id g = .ok t g' ∧
      m.Delivers (fun c => HoldsWord g.segment.frame x p c ∧ HoldsWord g.segment.frame y q c)
        (.bool (op.decides o)) g t g' := by
  have htarget : (g.env.varTy x).widen (g.env.varTy y) = .int ∨
      (g.env.varTy x).widen (g.env.varTy y) = .float := ite_eq_or_eq ..
  rw [condition_ordering hid hleft hright hop]
  obtain ⟨a, g1, hrun, h⟩ := delivers_numberOf hcasts hF hg hx htx htarget p
  have hg1 := h.growth.knows hg
  obtain ⟨b, g2, hrun', h'⟩ :=
    delivers_numberOf hcasts (h.growth.frame ▸ hF) hg1 hy hty htarget q
  have hsteady : Steady g.segment.frame g.temps (.var ⟨g.segment.frame, bareName y⟩) :=
    ⟨rfl, isHeld_bareName (hg.var y hy).1 _⟩
  rw [h.growth.frame] at h'
  obtain ⟨t, g', hrun'', hdelivers⟩ := h.ordering h' (h'.growth.knows hg1).tidy
    (fun c c' hkeeps hc => (hkeeps.value?_eq hsteady).trans hc) (ho.binaryOp_ordering horders hop)
  exact ⟨t, g', bind_eq_ok.mpr ⟨a, g1, hrun, bind_eq_ok.mpr ⟨b, g2, hrun', hrun''⟩⟩, hdelivers⟩

/-- Where the code has been run, its operand holds the value. -/
theorem Delivers.runs (h : m.Delivers P z g a g') (hP : Distinct program)
    (hs : Supports program g' c) (hc : P c) (hplace : (added g g' ++ rest) <:+ program) :
    ∃ c' : Config, m.Runs program (c.goto (added g g' ++ rest)) (c'.goto rest) ∧
      c'.value? a = some z := by
  obtain ⟨c', ⟨hrun, -, -, hvalue⟩ | ⟨-, ⟨⟩⟩⟩ := h.finds hP hs hc (fun _ => False) rest hplace
  exact ⟨c', hrun, hvalue⟩

/-! ## Two ints in variables -/

theorem ne_float_of_meets (h : ty.meets (.int ∪ .any) = true) : ty ≠ .float := by
  rintro rfl
  exact absurd h (by decide)

theorem exists_orderedAs (target : Ty) (p q : Int64) : ∃ o, OrderedAs target p q o ∧
    (p = q ∨ (Number.ofWord p == Number.ofWord q) = false → o = compare p.toInt q.toInt) := by
  unfold OrderedAs
  split
  · exact ⟨_, rfl, fun _ => rfl⟩
  · obtain ⟨o, hordered, rfl | rfl⟩ := Number.ordered_ofWord p q
    · exact ⟨_, hordered, fun _ => rfl⟩
    · -- the doubles are the same, so the words are, or else the doubles would differ
      refine ⟨.eq, hordered, ?_⟩
      rintro (rfl | hne)
      · exact (Std.ReflOrd.compare_self ..).symm
      · rw [hordered.eq] at hne
        cases hne

/-- Two variables of the main body, of which the first may hold a float at another time. -/
def widened : SymbolTable :=
  ((Table.empty .toplevel).declare "$a" (.int ∪ .float)).declare "$b" .int

/-- A comparison of the two variables. -/
def comparison (op : BinOp) : Arena := ⟨#[.var "$a", .var "$b", .binary op 0 1]⟩

/-- The code of the comparison and the routine that it calls. -/
def comparisonProgram (op : BinOp) : List Instr :=
  (match condition (comparison op) 2 (.start widened) with
    | .ok _ g => g.segment.body.toList
    | .error _ _ => []) ++ Routine.body .toFloat

/-- The configuration with the two variables set. -/
def holding (p q : Int64) : Config where
  code := []
  gf name := some (if name = "a" then some (.int p.toInt) else if name = "b" then some (.int q.toInt)
    else none)
  lf := []
  tf := none
  stack := []
  calls := []
  input := []
  output := ""

theorem knows_widened : (Generator.start widened).Knows (names widened 0 none) := by
  have hsymbols : ∀ s ∈ widened.symbols, s.emitted = false ∧ s.locals = none := by decide
  have hunmarked : widened.Unmarked := by
    intro scope name hmark
    cases scope with
    | none =>
      obtain ⟨s, hs, htrue⟩ := Option.map_eq_some_iff.mp hmark
      rw [(hsymbols s (List.mem_of_find?_eq_some hs)).1] at htrue
      cases htrue
    | some f =>
      obtain ⟨_, hlocal, -⟩ := Option.map_eq_some_iff.mp hmark
      obtain ⟨_, hlocals, -⟩ := Option.bind_eq_some_iff.mp hlocal
      obtain ⟨s, hs, hnone⟩ := Option.bind_eq_some_iff.mp hlocals
      rw [(hsymbols s (List.mem_of_find?_eq_some hs)).2] at hnone
      cases hnone
  exact (Top.start hunmarked []).knows

theorem var_widened {x : String} (hx : x = "$a" ∨ x = "$b") : (names widened 0 none).var x := by
  rcases hx with rfl | rfl
  · exact ⟨⟨⟨rfl, by decide, List.forall_mem_nil _⟩, _, rfl⟩, trivial⟩
  · exact ⟨⟨⟨rfl, by decide, List.forall_mem_nil _⟩, _, rfl⟩, trivial⟩

theorem orders_doubles : doubles.Orders where
  lt _ _ := rfl
  gt _ _ := rfl

theorem comparisonProgram_eq (h : condition (comparison op) 2 (.start widened) = .ok t g) :
    comparisonProgram op = g.segment.body.toList ++ Routine.body .toFloat := by
  rw [comparisonProgram, h]

theorem supports_holding (hop : op.isOrdering = true)
    (h : condition (comparison op) 2 (.start widened) = .ok t g) (p q : Int64) :
    Distinct (comparisonProgram op) ∧ Supports (comparisonProgram op) g (holding p q) := by
  have hgenerated : Meets (condition (comparison op) 2) (.start widened) (fun _ _ => False)
      fun _ g => g.helpers = [.toFloat] ∧ ∀ v ∈ g.segment.declared, v.frame = .gf := by
    cases op with
    | less | lessEqual | greater | greaterEqual | equal | notEqual => decide +kernel
    | _ => cases hop
  have hdistinct : Distinct (comparisonProgram op) := by
    unfold Distinct
    cases op with
    | less | lessEqual | greater | greaterEqual | equal | notEqual => decide +kernel
    | _ => cases hop
  obtain ⟨hhelpers, hframes⟩ := hgenerated.of_ok h
  refine ⟨hdistinct, fun r hr => ?_, fun v hv => ?_⟩
  · rw [hhelpers, List.mem_singleton] at hr
    rw [hr]
    exact ⟨[], by rw [List.append_nil]; exact List.suffix_append ..⟩
  · obtain ⟨F, name⟩ := v
    obtain rfl : F = .gf := hframes _ hv
    rfl

/-- Two variables whose types admit ints are compared as ints if the types admit nothing but int and
null, and as doubles otherwise.  Of two ints the comparison finds what it finds of the two constants,
unless they are different and the same double is nearest to both. -/
theorem condition_compares_nearest (hcasts : m.Casts) (horders : m.Orders) {arena : Arena}
    {id left right : NodeId} {op : BinOp} {x y : String} (hid : arena.node id = .binary op left right)
    (hleft : arena.node left = .var x) (hright : arena.node right = .var y)
    (hop : op.isOrdering = true) {V : Vocabulary} (hg : g.Knows V) (hx : V.var x) (hy : V.var y)
    (hF : g.segment.frame ≠ .tf) (htx : (g.env.varTy x).meets (.int ∪ .any) = true)
    (hty : (g.env.varTy y).meets (.int ∪ .any) = true) (p q : Int64) :
    ∃ t g' code truth, condition arena id g = .ok t g' ∧
      g'.segment.body.toList = g.segment.body.toList ++ code ∧
      (∀ (program : List Instr) (c : Config) (rest : List Instr), Distinct program →
        Supports program g' c → HoldsWord g.segment.frame x p c → HoldsWord g.segment.frame y q c →
        (code ++ rest) <:+ program →
        ∃ c' : Config, m.Runs program (c.goto (code ++ rest)) (c'.goto rest) ∧
          c'.value? t = some (.bool truth)) ∧
      (((g.env.varTy x ∪ g.env.varTy y).subset (.int ∪ .null) = true ∨ p = q ∨
          (Number.ofWord p == Number.ofWord q) = false) →
        Node.foldBinary? op (.int p) (.int q) = some (.ofBool truth)) ∧
      ((g.env.varTy x ∪ g.env.varTy y).subset (.int ∪ .null) = false →
        Node.foldBinary? op (.float (Number.ofWord p)) (.float (Number.ofWord q)) =
          some (.ofBool truth)) := by
  obtain ⟨o, ho, hexact⟩ := exists_orderedAs ((g.env.varTy x).widen (g.env.varTy y)) p q
  obtain ⟨t, g', hrun, hdelivers⟩ := delivers_condition hcasts horders hid hleft hright hop hg hx hy hF
    (ne_float_of_meets htx) (ne_float_of_meets hty) ho
  refine ⟨t, g', added g g', op.decides o, hrun, hdelivers.growth.body, ?_, ?_, ?_⟩
  · intro program c rest hP hs hp hq hplace
    exact hdelivers.runs hP hs ⟨hp, hq⟩ hplace
  · intro hcase
    have hcompare : o = compare p.toInt q.toInt := by
      obtain hnarrow | hapart := hcase
      · have hint : (g.env.varTy x).widen (g.env.varTy y) = .int := if_pos hnarrow
        rwa [OrderedAs, if_pos hint] at ho
      · exact hexact hapart
    rw [Node.foldBinary?_ints hop, hcompare]
  · intro hwide
    have hfloat : (g.env.varTy x).widen (g.env.varTy y) = .float := if_neg (by simp [hwide])
    rw [OrderedAs, hfloat, if_neg (by decide)] at ho
    exact Node.foldBinary?_floats hop ho

theorem condition_compares_nearest_widened :
    ∃ t g c, condition (comparison .greater) 2 (.start widened) = .ok t g ∧
      doubles.Runs (comparisonProgram .greater)
        ((holding 9007199254740995 9007199254740993).goto (comparisonProgram .greater))
        (Config.goto c (Routine.body .toFloat)) ∧ c.value? t = some (.bool true) ∧
      Node.foldBinary? .greater (.int 9007199254740995) (.int 9007199254740993) =
        some (.ofBool true) := by
  have hapart : (Number.ofWord 9007199254740995 == Number.ofWord 9007199254740993) = false := by
    decide +kernel
  have hid : (comparison .greater).node 2 = .binary .greater 0 1 := rfl
  obtain ⟨t, g, code, truth, hrun, hbody, hruns, hfold, -⟩ :=
    condition_compares_nearest casts_doubles orders_doubles hid rfl rfl rfl knows_widened
      (var_widened (.inl rfl)) (var_widened (.inr rfl)) (by decide) (by decide) (by decide)
      9007199254740995 9007199254740993
  obtain ⟨hdistinct, hs⟩ := supports_holding rfl hrun 9007199254740995 9007199254740993
  have hprogram := comparisonProgram_eq hrun
  rw [hbody] at hprogram
  obtain ⟨c, hc, hvalue⟩ := hruns _ _ _ hdistinct hs rfl rfl ⟨[], hprogram.symm⟩
  have htruth := hfold (.inr (.inr hapart))
  obtain rfl : true = truth := by
    cases truth with
    | true => rfl
    | false => exact absurd htruth (by decide)
  exact ⟨t, g, c, hrun, hprogram ▸ hc, hvalue, htruth⟩

/-- The doubles nearest to two different ints can be the same, and then a comparison of two variables
finds them equal where the comparison of the constants does not. -/
theorem condition_nearest_equal :
    (widened.tyOf "$a").meets (.int ∪ .any) = true ∧ (widened.tyOf "$b").meets (.int ∪ .any) = true ∧
    (∃ t g c, condition (comparison .equal) 2 (.start widened) = .ok t g ∧
      doubles.Runs (comparisonProgram .equal)
        ((holding 9007199254740993 9007199254740992).goto (comparisonProgram .equal))
        (Config.goto c (Routine.body .toFloat)) ∧ c.value? t = some (.bool true)) ∧
    Node.foldBinary? .equal (.int 9007199254740993) (.int 9007199254740992) =
      some (.ofBool false) := by
  refine ⟨by decide, by decide, ?_, rfl⟩
  have hsame : (Number.ofWord 9007199254740993 == Number.ofWord 9007199254740992) = true := by
    decide +kernel
  obtain ⟨o, ho, -⟩ := Number.ordered_ofWord 9007199254740993 9007199254740992
  rw [ho.eq, beq_iff_eq] at hsame
  subst hsame
  have hid : (comparison .equal).node 2 = .binary .equal 0 1 := rfl
  obtain ⟨t, g, hrun, hdelivers⟩ := delivers_condition casts_doubles orders_doubles hid rfl rfl rfl
    knows_widened (var_widened (.inl rfl)) (var_widened (.inr rfl)) (by decide) (by decide)
    (by decide) ho
  obtain ⟨hdistinct, hs⟩ := supports_holding rfl hrun 9007199254740993 9007199254740992
  have hprogram := comparisonProgram_eq hrun
  obtain ⟨c, hruns, hvalue⟩ := hdelivers.runs hdistinct hs ⟨rfl, rfl⟩ ⟨[], hprogram.symm⟩
  exact ⟨t, g, c, hrun, hprogram ▸ hruns, hvalue⟩

end Machine

end Ifj22
