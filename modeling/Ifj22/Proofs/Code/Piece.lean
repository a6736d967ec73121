import Ifj22.Proofs.Code.Tree
import Ifj22.Proofs.Tree.Form
set_option autoImplicit false

/-!
# Code: pieces of generated code

Generated code is put together from pieces.  A piece at one level leaves the data stack as it found
it: it jumps to labels of its own level only, and its calls take from the stack what was pushed for
them.  The arguments of a call are pushed one after the other, and the code of an argument is a piece
that no jump leads into or out of.
-/

namespace Ifj22.Code

/-! ## Instructions -/

/-- The label that an instruction sets. -/
def Instr.label? : Instr → Option Label
  | .label l => some l
  | _ => none

/-- The label that an instruction may jump to. -/
def Instr.jump? : Instr → Option Label
  | .jump l => some l
  | .jumpIfEq l _ _ => some l
  | .jumpIfNeq l _ _ => some l
  | _ => none

/-- The label that an instruction calls. -/
def Instr.callee? : Instr → Option Label
  | .call l => some l
  | _ => none

/-- The instruction works on variables and output only. -/
def Instr.isPlain : Instr → Bool
  | .move _ _ | .binary _ _ _ _ | .unary _ _ _ | .read _ _ | .write _ | .exit _ => true
  | _ => false

/-- The instruction leaves the stacks alone, and the code behind it follows. -/
def Instr.isQuiet : Instr → Bool
  | .move _ _ | .createFrame | .pushFrame | .popFrame | .defVar _ | .binary _ _ _ _ | .unary _ _ _
  | .read _ _ | .write _ | .label _ => true
  | _ => false

theorem Instr.isQuiet_of_isPlain {i : Instr} (h : i.isPlain = true) (hexit : ∀ a, i ≠ .exit a) :
    i.isQuiet = true := by
  cases i with
  | exit a => exact absurd rfl (hexit a)
  | _ => first | rfl | cases h

/-- The instruction takes a value from the stack. -/
def Instr.isPop : Instr → Bool
  | .pop _ => true
  | _ => false

/-- The labels that are set in a piece of code. -/
def labelsOf (code : List Instr) : List Label := code.filterMap Instr.label?

@[simp] theorem labelsOf_append (c c' : List Instr) :
    labelsOf (c ++ c') = labelsOf c ++ labelsOf c' := List.filterMap_append

theorem mem_labelsOf {l : Label} {code : List Instr} : l ∈ labelsOf code ↔ .label l ∈ code := by
  refine ⟨fun h => ?_, fun h => List.mem_filterMap.mpr ⟨_, h, rfl⟩⟩
  obtain ⟨i, hi, hl⟩ := List.mem_filterMap.mp h
  cases i with
  | label l' =>
    cases hl
    exact hi
  | _ => cases hl

/-! ## Pieces -/

/-- What a piece of code is for. -/
inductive Role
  /-- It leaves the stack as it found it.  It may jump to the `targets`, and it sets the labels `sets`
  in this order, but for labels that it keeps to itself. -/
  | level (leaves : Bool) (targets sets : List Label)
  /-- It pushes the arguments of a call. -/
  | args (args : List Expr)

/-- The routine converts a value, and generated code may call it. -/
def Routine.isConversion : Routine → Bool
  | .toInt | .toFloat | .toText | .toBool | .toNumber => true
  | _ => false

/-- The code is generated for the expression, and leaves its value in the operand.  Which
generator that was is left open: labels and temporaries are numbered on from what was generated
before. -/
def Emitted (e : Expr) (code : List Instr) (a : Operand) : Prop :=
  ∃ g g', e.code g = .ok a g' ∧ g'.segment.body.toList = g.segment.body.toList ++ code

/-- The end of a call with `n` arguments; `write` is told their number. -/
def callEnd (name : String) (n : Nat) : List Instr :=
  (if name = "write" then [.push (.int (Int64.ofNat n))] else []) ++
    [.createFrame, .call (.entry name)]

/-- A piece of code that makes the calls of a vocabulary and uses the given conversions.  Where it
may jump to and which labels it sets is in its role, so that pieces are put together without a
look at their instructions. -/
inductive Piece (V : Vocabulary) (helpers : List Routine) : Role → List Instr → Prop
  | nil {leaves : Bool} {targets : List Label} : Piece V helpers (.level leaves targets []) []
  | plain {leaves : Bool} {targets : List Label} {i : Instr} (h : i.isPlain = true) :
    Piece V helpers (.level leaves targets []) [i]
  | jump {leaves : Bool} {targets : List Label} {i : Instr} {l : Label} (h : i.jump? = some l)
    (hl : l ∈ targets) : Piece V helpers (.level leaves targets []) [i]
  | label {leaves : Bool} {targets : List Label} {l : Label} :
    Piece V helpers (.level leaves targets [l]) [.label l]
  | append {leaves : Bool} {targets sets sets' : List Label} {code code' : List Instr}
    (h : Piece V helpers (.level leaves targets sets) code)
    (h' : Piece V helpers (.level leaves targets sets') code') :
    Piece V helpers (.level leaves targets (sets ++ sets')) (code ++ code')
  /-- The labels that are jumped to are the labels that are set, and nothing outside sees them. -/
  | closed {leaves : Bool} {targets own : List Label} {code : List Instr}
    (h : Piece V helpers (.level leaves own own) code) :
    Piece V helpers (.level leaves targets []) code
  | convert {leaves : Bool} {targets : List Label} {r : Routine} {value : Operand}
    (h : r ∈ helpers) (hr : r.isConversion = true) :
    Piece V helpers (.level leaves targets []) [.push value, .createFrame, .call r.entry]
  | call {leaves : Bool} {targets : List Label} {name : String} {args : List Expr}
    {code : List Instr} (h : V.callee name args.length) (hargs : Piece V helpers (.args args) code) :
    Piece V helpers (.level leaves targets []) (code ++ callEnd name args.length)
  /-- Leaves the function. -/
  | leave {targets : List Label} : Piece V helpers (.level true targets []) [.popFrame, .ret]
  | none : Piece V helpers (.args []) []
  | arg {e : Expr} {args : List Expr} {value code : List Instr} {a : Operand}
    (he : Emitted e value a) (hv : Piece V helpers (.level false [] []) value)
    (h : Piece V helpers (.args args) code) :
    Piece V helpers (.args (e :: args)) (value ++ .push a :: code)

namespace Role

/-- The labels that a piece may jump to outside its own. -/
def targets : Role → List Label
  | .level _ targets _ => targets
  | .args _ => []

/-- The labels that a piece sets for others. -/
def sets : Role → List Label
  | .level _ _ sets => sets
  | .args _ => []

end Role

theorem mem_callEnd {name : String} {n : Nat} {i : Instr} :
    i ∈ callEnd name n ↔ (name = "write" ∧ i = .push (.int (Int64.ofNat n))) ∨ i = .createFrame ∨
      i = .call (.entry name) := by
  unfold callEnd
  split <;> simp_all

namespace Piece

variable {V : Vocabulary} {helpers helpers' : List Routine} {role : Role} {code : List Instr}

/-- More conversions may be used. -/
theorem mono (hsub : ∀ r ∈ helpers, r ∈ helpers') (h : Piece V helpers role code) :
    Piece V helpers' role code := by
  induction h with
  | nil => exact .nil
  | plain h => exact .plain h
  | jump h hl => exact .jump h hl
  | label => exact .label
  | append _ _ ih ih' => exact .append ih ih'
  | closed _ ih => exact .closed ih
  | convert h hr => exact .convert (hsub _ h) hr
  | call h _ ih => exact .call h ih
  | leave => exact .leave
  | none => exact .none
  | arg he _ _ ihv ih => exact .arg he ihv ih

/-- The labels that are set for others are set in the code. -/
theorem labelsOf_of_sets (h : Piece V helpers role code) : ∀ l ∈ role.sets, l ∈ labelsOf code := by
  induction h with
  | label => exact fun l hl => hl
  | append _ _ ih ih' =>
    intro l hl
    rw [labelsOf_append, List.mem_append]
    exact (List.mem_append.mp hl).imp (ih l) (ih' l)
  | _ => exact fun l hl => absurd hl List.not_mem_nil

end Piece

/-- What an instruction of a piece may be, given the labels that it may jump to. -/
inductive Item (V : Vocabulary) (helpers : List Routine) (labels : List Label) : Instr → Prop
  | plain {i : Instr} (h : i.isPlain = true) : Item V helpers labels i
  | jump {i : Instr} {l : Label} (h : i.jump? = some l) (hl : l ∈ labels) : Item V helpers labels i
  | label {l : Label} : Item V helpers labels (.label l)
  | push {a : Operand} : Item V helpers labels (.push a)
  | createFrame : Item V helpers labels .createFrame
  | call {name : String} {n : Nat} (h : V.callee name n) : Item V helpers labels (.call (.entry name))
  | convert {r : Routine} (h : r ∈ helpers) : Item V helpers labels (.call r.entry)
  | popFrame : Item V helpers labels .popFrame
  | ret : Item V helpers labels .ret

namespace Item

variable {V : Vocabulary} {helpers : List Routine} {labels labels' : List Label} {i : Instr}

theorem mono (hsub : ∀ l ∈ labels, l ∈ labels') (h : Item V helpers labels i) :
    Item V helpers labels' i := by
  cases h with
  | plain h => exact .plain h
  | jump h hl => exact .jump h (hsub _ hl)
  | label => exact .label
  | push => exact .push
  | createFrame => exact .createFrame
  | call h => exact .call h
  | convert h => exact .convert h
  | popFrame => exact .popFrame
  | ret => exact .ret

theorem jump_mem (h : Item V helpers labels i) {l : Label} (hl : i.jump? = some l) : l ∈ labels := by
  cases h with
  | plain hplain => cases i <;> simp_all [Instr.jump?, Instr.isPlain]
  | jump hjump hmem =>
    cases hjump.symm.trans hl
    exact hmem
  | _ => cases hl

theorem callee (h : Item V helpers labels i) {l : Label} (hl : i.callee? = some l) :
    (∃ name n, l = .entry name ∧ V.callee name n) ∨ ∃ r ∈ helpers, l = r.entry := by
  cases h with
  | plain hplain => cases i <;> simp_all [Instr.callee?, Instr.isPlain]
  | jump hjump => cases i <;> simp_all [Instr.callee?, Instr.jump?]
  | call h => exact .inl ⟨_, _, (Option.some.inj hl).symm, h⟩
  | convert h => exact .inr ⟨_, h, (Option.some.inj hl).symm⟩
  | _ => cases hl

/-- A piece declares no variables. -/
theorem ne_defVar (h : Item V helpers labels i) (v : Var) : i ≠ .defVar v := by
  rintro rfl
  cases h with
  | plain h => cases h
  | jump h => cases h

end Item

/-- The jumps of a piece stay in the piece, but for its targets. -/
theorem Piece.item {V : Vocabulary} {helpers : List Routine} {role : Role} {code : List Instr}
    (h : Piece V helpers role code) : ∀ i ∈ code, Item V helpers (role.targets ++ labelsOf code) i := by
  induction h with
  | nil => exact List.forall_mem_nil _
  | plain h => exact List.forall_mem_singleton.mpr (.plain h)
  | jump h hl => exact List.forall_mem_singleton.mpr (.jump h (List.mem_append_left _ hl))
  | label => exact List.forall_mem_singleton.mpr .label
  | append _ _ ih ih' =>
    rw [labelsOf_append]
    refine List.forall_mem_append.mpr ⟨fun i hi => (ih i hi).mono ?_, fun i hi => (ih' i hi).mono ?_⟩
    all_goals simp only [Role.targets, List.mem_append]; grind
  | closed h ih =>
    refine fun i hi => (ih i hi).mono fun l hl => List.mem_append_right _ ?_
    exact (List.mem_append.mp hl).elim (h.labelsOf_of_sets l) id
  | convert h =>
    simp only [List.forall_mem_cons]
    exact ⟨.push, .createFrame, .convert h, List.forall_mem_nil _⟩
  | call h _ ih =>
    refine List.forall_mem_append.mpr ⟨fun i hi => (ih i hi).mono ?_, fun i hi => ?_⟩
    · simp only [Role.targets, labelsOf_append, List.mem_append]
      grind
    · rcases mem_callEnd.mp hi with ⟨_, rfl⟩ | rfl | rfl
      · exact .push
      · exact .createFrame
      · exact .call h
  | leave =>
    simp only [List.forall_mem_cons]
    exact ⟨.popFrame, .ret, List.forall_mem_nil _⟩
  | none => exact List.forall_mem_nil _
  | @arg _ _ value code a _ _ _ ihv ih =>
    have hlabels : labelsOf (value ++ .push a :: code) = labelsOf value ++ labelsOf code :=
      labelsOf_append ..
    rw [hlabels]
    refine List.forall_mem_append.mpr ⟨fun i hi => (ihv i hi).mono ?_,
      List.forall_mem_cons.mpr ⟨.push, fun i hi => (ih i hi).mono ?_⟩⟩
    all_goals simp only [Role.targets, List.mem_append]; grind

end Ifj22.Code
