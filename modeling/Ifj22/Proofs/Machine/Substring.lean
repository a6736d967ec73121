import Ifj22.Proofs.Machine.Local
set_option autoImplicit false

/-!
# Machine: the routine of `substring`

The routine takes a text and two positions, refuses positions that are not in order inside the text,
and copies the characters between them one by one.  To see where it reads, it is run on a machine that
reads no other text and no position outside of it: a run of that machine is a run of the machine as it
is, and reads inside the text at every step.
-/

namespace Ifj22.Machine

open Code Code.Routine

/-! ## Reading a text -/

/-- The machine finds the length and the characters of a text, and joins texts.  A position
outside of the text is left open: a machine may stop there. -/
structure Spells (m : Machine) (s : String) : Prop where
  strlen : m.unaryOp .strlen (.str s) = some (.int s.length)
  getChar : ∀ (i : Nat) (c : Char), s.toList[i]? = some c →
    m.binaryOp .getChar (.str s) (.int i) = some (.str (String.singleton c))
  concat : ∀ t u, m.binaryOp .concat (.str t) (.str u) = some (.str (t ++ u))

/-- If the next instruction reads a character, it is one of the text.  It is asked of every step
of a run, since its end does not show what was read on the way. -/
def ReadsInside (s : String) (c : Config) : Prop :=
  ∀ dest a b rest, c.code = .binary .getChar dest a b :: rest →
    ∃ i : Nat, i < s.length ∧ c.value? a = some (.str s) ∧ c.value? b = some (.int i)

/-- Whether the operands of a reading instruction are the text and a position in it. -/
def isInside (s : String) : Value → Value → Bool
  | .str t, .int i => t == s && decide (0 ≤ i ∧ i < s.length)
  | _, _ => false

theorem isInside_iff {s : String} {x y : Value} :
    isInside s x y = true ↔ ∃ i : Nat, i < s.length ∧ x = .str s ∧ y = .int i := by
  unfold isInside
  split
  · next t i =>
    rw [Bool.and_eq_true, beq_iff_eq, decide_eq_true_iff]
    constructor
    · rintro ⟨rfl, hlow, hhigh⟩
      exact ⟨i.toNat, by omega, rfl, by rw [Int.toNat_of_nonneg hlow]⟩
    · rintro ⟨k, hk, ⟨⟩, ⟨⟩⟩
      exact ⟨rfl, by omega, by omega⟩
  · next hother =>
    refine iff_of_false (by decide) ?_
    rintro ⟨k, -, rfl, rfl⟩
    exact hother _ _ rfl rfl

/-- The machine that reads no other text and no position outside of it. -/
def reading (m : Machine) (s : String) : Machine :=
  { m with binary := fun op x y =>
      if op = .getChar ∧ isInside s x y = false then none else m.binary op x y }

section

variable {m : Machine} {s : String} {program : List Instr} {c c' : Config}

theorem binaryOp_reading (op : Binary) (x y : Value) : (m.reading s).binaryOp op x y =
    if op = .getChar ∧ isInside s x y = false then none else m.binaryOp op x y := by
  by_cases hop : op = .getChar
  · subst hop
    rfl
  · have hsame : (m.reading s).binary op x y = m.binary op x y := if_neg fun h => hop h.1
    rw [if_neg fun h => hop h.1]
    unfold binaryOp
    split <;> first | rfl | exact hsame

theorem binaryOp_of_reading {op : Binary} {x y z : Value}
    (h : (m.reading s).binaryOp op x y = some z) :
    m.binaryOp op x y = some z ∧ (op = .getChar → isInside s x y = true) := by
  rw [binaryOp_reading] at h
  split at h
  · cases h
  · next hnot => exact ⟨h, fun hop => Bool.not_eq_false _ ▸ fun hfalse => hnot ⟨hop, hfalse⟩⟩

theorem step_reading (h : (m.reading s).step program c = some c') :
    m.step program c = some c' ∧ ReadsInside s c := by
  cases hcode : c.code with
  | nil => rw [step, hcode] at h; cases h
  | cons i rest =>
    by_cases hi : ∃ op dest a b, i = .binary op dest a b
    · obtain ⟨op, dest, a, b, rfl⟩ := hi
      obtain ⟨x, y, z, hx, hy, hz, hdest, hc'⟩ := (step_binary hcode).mp h
      obtain ⟨hop, hinside⟩ := binaryOp_of_reading hz
      refine ⟨(step_binary hcode).mpr ⟨x, y, z, hx, hy, hop, hdest, hc'⟩, ?_⟩
      intro dest' a' b' rest' hcode'
      rw [hcode] at hcode'
      cases hcode'
      obtain ⟨k, hk, rfl, rfl⟩ := isInside_iff.mp (hinside rfl)
      exact ⟨k, hk, hx, hy⟩
    · -- no other instruction depends on what differs
      refine ⟨?_, fun dest a b rest' hcode' => ?_⟩
      · rw [step_eq hcode] at h ⊢
        cases i with
        | binary op dest a b => exact absurd ⟨op, dest, a, b, rfl⟩ hi
        | unary op dest a => cases op <;> exact h
        | _ => exact h
      · rw [hcode] at hcode'
        cases hcode'
        exact absurd ⟨_, _, _, _, rfl⟩ hi

theorem Spells.reading (hm : m.Spells s) : (m.reading s).Spells s where
  strlen := hm.strlen
  concat := hm.concat
  getChar i c hc := by
    obtain ⟨hi, -⟩ := List.getElem?_eq_some_iff.mp hc
    have hinside : isInside s (.str s) (.int i) = true :=
      isInside_iff.mpr ⟨i, String.length_toList ▸ hi, rfl, rfl⟩
    rw [binaryOp_reading, if_neg (by simp [hinside]), hm.getChar i c hc]

end

/-! ## The routine -/

/-- The variables of the routine but for the result. -/
def substringNames : List String := ["s", "i", "j", "len", "bad", "char", "type"]

/-- The code of the routine from where it has its arguments to the loop. -/
def substringStart : List Instr :=
  require "s" "string" ++ (require "i" "int" ++ (require "j" "int" ++
    .unary .strlen (lf "len") (lf "s") :: substringChecks))

theorem substringBody_eq : substringBody = substring.framed (.move Var.result .nil ::
    (declare substringNames ++ .pop (lf "j") :: .pop (lf "i") :: .pop (lf "s") :: (substringStart ++
      .label (substring.inside "loop") :: (substringLoop ++ [.label (substring.inside "end")])))) :=
  rfl

/-- What is known where the routine has its arguments. -/
def argFacts (s : String) (i j : Int) : Facts :=
  [("s", .str s), ("i", .int i), ("j", .int j), ("%retval", .nil)]

/-- What is known behind the checks of the types, with the length of the text. -/
def typedFacts (s : String) (i j : Int) : Facts :=
  ("len", .int s.length) :: ("type", .str "int") :: ("type", .str "int") :: ("type", .str "string") ::
    argFacts s i j

/-- What is known in the loop: the text, the position, the end and what is copied so far. -/
def copyFacts (s : String) (i j : Int) (copied : String) : Facts :=
  [("s", .str s), ("i", .int i), ("j", .int j), ("%retval", .str copied)]

/-- The part of a text between two positions, both counted from one and included; nil if they are not
in order inside the text. -/
def slice (s : String) (i j : Int) : Value :=
  if i < 1 ∨ i > j ∨ j > s.length then .nil
  else .str (String.ofList ((s.toList.take j.toNat).drop (i.toNat - 1)))

namespace Facts.Walks

variable {m : Machine} {names : List String} {k k' : Facts} {out : Option Label} {code : List Instr}

/-- A type that a variable has to have, and has. -/
theorem require {x kind : String} {v : Value} (hx : k.lookup x = some v) (hkind : v.typeName = kind)
    (htype : "type" ∈ names) (h : Walks m names code (("type", .str kind) :: k) out k') :
    Walks m names (require x kind ++ code) k out k' := by
  obtain ⟨k1, hwalk, hk1⟩ := h
  exact ⟨k1, by simp [Routine.require, lf, hx, hkind, equal?, htype, hwalk], hk1⟩

variable {op : Binary} {a b : Operand} {v x y : Value} {l : Label}

/-- A check that passes. -/
theorem check (ha : k.value? a = some x) (hb : k.value? b = some y)
    (hop : m.binaryOp op x y = some (.bool false)) (hbad : "bad" ∈ names)
    (h : Walks m names code (("bad", .bool false) :: k) out k') :
    Walks m names (.binary op (lf "bad") a b :: .jumpIfEq l (lf "bad") (.bool true) :: code) k
      out k' := by
  obtain ⟨k1, hwalk, hk1⟩ := h
  exact ⟨k1, by simp [lf, ha, hb, hop, equal?, hbad, hwalk], hk1⟩

/-- A check that fails, where the result is known. -/
theorem refuse (ha : k.value? a = some x) (hb : k.value? b = some y)
    (hop : m.binaryOp op x y = some (.bool true)) (hbad : "bad" ∈ names)
    (hk : k.lookup "%retval" = some v) :
    Walks m names (.binary op (lf "bad") a b :: .jumpIfEq l (lf "bad") (.bool true) :: code) k
      (some l) [("%retval", v)] := by
  refine ⟨("bad", .bool true) :: k, ?_, List.forall_mem_singleton.mpr hk⟩
  simp [lf, ha, hb, hop, equal?, hbad]

end Facts.Walks

section

variable {m : Machine} {s : String} (hm : m.Spells s) (hcounts : m.Counts s.length)
  {program : List Instr} (hP : Distinct program) {rest : List Instr}

include hm hcounts hP

/-- The loop copies the characters between the position and the end. -/
theorem leads_substringLoop (hplace : (.label (substring.inside "loop") ::
      (substringLoop ++ .label (substring.inside "end") :: rest)) <:+ program)
    {j : Nat} (hj : j ≤ s.length) (n : Nat) : ∀ (i : Nat) (copied : String), i + n = j →
      m.Leads program ("%retval" :: substringNames)
        (substringLoop ++ .label (substring.inside "end") :: rest) (copyFacts s i j copied)
        rest [("%retval", .str (copied ++ String.ofList ((s.toList.drop i).take n)))] := by
  have hend : (.label (substring.inside "end") :: rest) <:+ program :=
    (List.suffix_append ..).trans ((List.suffix_cons ..).trans hplace)
  induction n with
  | zero =>
    rintro i copied rfl
    have hwalk : Facts.Walks m ("%retval" :: substringNames) substringLoop (copyFacts s i i copied)
        (some (substring.inside "end"))
        [("%retval", .str (copied ++ String.ofList ((s.toList.drop i).take 0)))] := by
      simp [Facts.Walks, substringLoop, copyFacts, lf, equal?, List.lookup_cons]
    exact .walk hP hwalk hend
  | succ n ih =>
    intro i copied hi
    have hlt : i < s.toList.length := by
      rw [String.length_toList]
      omega
    obtain ⟨ch, hch⟩ : ∃ ch, s.toList[i] = ch := ⟨_, rfl⟩
    have hdrop : s.toList.drop i = ch :: s.toList.drop (i + 1) := hch ▸ List.drop_eq_getElem_cons hlt
    have hget := hm.getChar i ch (List.getElem?_eq_some_iff.mpr ⟨hlt, hch⟩)
    have hadd : m.binaryOp .add (.int i) (.int 1) = some (.int (i + 1 : Nat)) := by
      have hround : m.round (i + 1 : Nat) = some ((i + 1 : Nat) : Int) := hcounts (i + 1) (by omega)
      exact congrArg (Option.map Value.int) hround
    have hne : ¬ (i : Int) = j := by omega
    have hwalk : Facts.Walks m ("%retval" :: substringNames) substringLoop (copyFacts s i j copied)
        (some (substring.inside "loop"))
        (copyFacts s (i + 1 : Nat) j (copied ++ String.singleton ch)) := by
      simp [Facts.Walks, substringLoop, copyFacts, lf, equal?, List.lookup_cons, hget, hm.concat, hadd,
        hne, Var.result, substringNames]
    have hcopied : copied ++ String.singleton ch ++ String.ofList ((s.toList.drop (i + 1)).take n) =
        copied ++ String.ofList ((s.toList.drop i).take (n + 1)) := by
      rw [hdrop, List.take_succ_cons, String.append_assoc, String.singleton_eq_ofList,
        ← String.ofList_append, List.singleton_append]
    exact hcopied ▸ (Leads.walk hP hwalk hplace).trans (ih _ _ (by omega))

omit hcounts hP in
/-- The arguments have their types, so that the positions are checked. -/
theorem walks_typed {i j : Int} {out : Option Label} {k : Facts}
    (h : Facts.Walks m ("%retval" :: substringNames) substringChecks (typedFacts s i j) out k) :
    Facts.Walks m ("%retval" :: substringNames) substringStart (argFacts s i j) out k := by
  obtain ⟨k1, hwalk, hk1⟩ := h
  refine .require rfl rfl (by decide) (.require rfl rfl (by decide)
    (.require rfl rfl (by decide) ⟨k1, ?_, hk1⟩))
  exact (congrArg (Option.bind · _) (congrArg (Option.bind · _) hm.strlen)).trans hwalk

/-- The code behind the arguments yields the part of the text between the positions. -/
theorem leads_substring (hplace : (substringStart ++ .label (substring.inside "loop") ::
      (substringLoop ++ .label (substring.inside "end") :: rest)) <:+ program) (i j : Int) :
    m.Leads program ("%retval" :: substringNames)
      (substringStart ++ .label (substring.inside "loop") ::
        (substringLoop ++ .label (substring.inside "end") :: rest))
      (argFacts s i j) rest [("%retval", slice s i j)] := by
  have hloop := (List.suffix_append ..).trans hplace
  have hend : (.label (substring.inside "end") :: rest) <:+ program :=
    (List.suffix_append ..).trans ((List.suffix_cons ..).trans hloop)
  have hyes : ∀ {p : Prop} [Decidable p], p → some (Value.bool (decide p)) = some (.bool true) :=
    fun h => by rw [decide_eq_true h]
  have hno : ∀ {p : Prop} [Decidable p], ¬ p → some (Value.bool (decide p)) = some (.bool false) :=
    fun h => by rw [decide_eq_false h]
  -- a check that fails leads to the end with the result as it is
  have hrefused : ∀ {code}, Facts.Walks m ("%retval" :: substringNames) substringChecks
      (typedFacts s i j) (some (substring.inside "end")) [("%retval", .nil)] →
      m.Leads program ("%retval" :: substringNames) (substringStart ++ code) (argFacts s i j) rest
        [("%retval", .nil)] := fun h => .walk hP (walks_typed hm h) hend
  unfold slice
  by_cases hlow : i < 1
  · rw [if_pos (.inl hlow)]
    exact hrefused (.refuse rfl rfl (hyes hlow) (by decide) rfl)
  by_cases horder : i > j
  · rw [if_pos (.inr (.inl horder))]
    refine hrefused (.check rfl rfl (hno hlow) (by decide) ?_)
    exact .refuse rfl rfl (hyes horder) (by decide) rfl
  by_cases hhigh : j > s.length
  · rw [if_pos (.inr (.inr hhigh))]
    refine hrefused (.check rfl rfl (hno hlow) (by decide) ?_)
    refine .check rfl rfl (hno horder) (by decide) ?_
    exact .refuse rfl rfl (hyes hhigh) (by decide) rfl
  have hwalk : Facts.Walks m ("%retval" :: substringNames) substringStart (argFacts s i j) none
      (copyFacts s (i.toNat - 1 : Nat) j.toNat "") := by
    refine walks_typed hm (.check rfl rfl (hno hlow) (by decide) ?_)
    refine .check rfl rfl (hno horder) (by decide) (.check rfl rfl (hno hhigh) (by decide) ?_)
    have hi : i - 1 = (i.toNat - 1 : Nat) := by omega
    have hj : ((j.toNat : Nat) : Int) = j := by omega
    have hsub : m.binaryOp .sub (.int i) (.int 1) = some (.int (i.toNat - 1 : Nat)) := by
      rw [binaryOp, hi, hcounts _ (by omega), Option.map_some]
    simp [Facts.Walks, typedFacts, argFacts, copyFacts, lf, List.lookup_cons, hsub, substringNames, hj,
      Var.result]
  have hcopy := leads_substringLoop hm hcounts hP hloop (j := j.toNat) (by omega)
    (j.toNat - (i.toNat - 1)) (i.toNat - 1) "" (by omega)
  rw [String.empty_append, ← List.drop_take] at hcopy
  rw [if_neg (by omega)]
  exact (Leads.walk hP hwalk rfl).trans (Leads.label.trans hcopy)

/-- The frame of the routine where only its result is declared. -/
def resultNil : Store := Store.set (Store.set (fun _ => none) "%retval" none) "%retval" (some .nil)

omit hm hcounts in
/-- The routine takes its arguments, the last one first. -/
theorem runs_enter_substring (hplace : (substringBody ++ rest) <:+ program) (i j : Int) {c : Config}
    {stack : List Value} (hstack : c.stack = .int j :: .int i :: .str s :: stack)
    (htf : c.tf = some fun _ => none) (back : List Instr) :
    ∃ f, Knows ("%retval" :: substringNames) (argFacts s i j) f ∧
      m.Runs program (c.goto (.call substring.entry :: back))
        (((c.called back stack).within f).goto (substringStart ++ .label (substring.inside "loop") ::
          (substringLoop ++ .label (substring.inside "end") :: .popFrame :: .ret :: rest))) := by
  rw [substringBody_eq] at hplace
  have hframe := runs_call_framed (m := m) hP hplace htf back
  simp only [hstack, List.cons_append, List.append_assoc, List.nil_append] at hframe
  have hmove : ∀ code, m.step program (((c.called back (.int j :: .int i :: .str s :: stack)).within
      (Store.set (fun _ => none) "%retval" none)).goto (.move Var.result .nil :: code)) =
      some (((c.called back (.int j :: .int i :: .str s :: stack)).within resultNil).goto code) :=
    fun code => (step_move rfl).mpr ⟨.nil, rfl, rfl, rfl⟩
  have hnew : ∀ x ∈ substringNames, resultNil x = none := by decide
  obtain ⟨f, hdeclared, hothers, hrun⟩ := runs_declare m program
    (c.called back (.int j :: .int i :: .str s :: stack)) _ (by decide) hnew
  have hresult : f "%retval" = some (some .nil) := hothers _ (by decide)
  have hf : Knows ("%retval" :: substringNames) [("%retval", .nil)] f := by
    refine .of_mem (List.forall_mem_cons.mpr ⟨?_, fun x hx => ?_⟩) (List.forall_mem_singleton.mpr hresult)
    · rw [hresult]
      rfl
    · rw [hdeclared x hx]
      rfl
  obtain ⟨f1, hf1, hpop1⟩ := runs_pop hf (x := "j") (by decide) back _
  obtain ⟨f2, hf2, hpop2⟩ := runs_pop hf1 (x := "i") (by decide) back _
  obtain ⟨f3, hf3, hpop3⟩ := runs_pop hf2 (x := "s") (by decide) back _
  exact ⟨f3, hf3, hframe.trans (.head (hmove _) (hrun.trans (hpop1.trans (hpop2.trans hpop3))))⟩

/-- A call of the routine, with its arguments on the stack. -/
theorem runs_substring (hplace : (substringBody ++ rest) <:+ program) (i j : Int) {c : Config}
    {stack : List Value} (hstack : c.stack = .int j :: .int i :: .str s :: stack)
    (htf : c.tf = some fun _ => none) (back : List Instr) :
    ∃ c', m.Runs program (c.goto (.call substring.entry :: back)) (c'.goto back) ∧
      Returns stack c.output c c' ∧ c'.get Var.returned = some (some (slice s i j)) := by
  have hinner : (substringStart ++ .label (substring.inside "loop") :: (substringLoop ++
      .label (substring.inside "end") :: .popFrame :: .ret :: rest)) <:+ program := by
    rw [substringBody_eq] at hplace
    refine .trans ⟨.label substring.entry :: .pushFrame :: .defVar Var.result ::
      .move Var.result .nil :: (declare substringNames ++ [.pop (lf "j"), .pop (lf "i"), .pop (lf "s")]),
      ?_⟩ hplace
    simp [framed]
  obtain ⟨f, hf, henter⟩ := runs_enter_substring hP hplace i j hstack htf back
  obtain ⟨f', hf', hrun⟩ := leads_substring hm hcounts hP hinner i j _ f hf
  obtain ⟨c', hleave, hc'⟩ := runs_leave (hf'.holds "%retval" _ rfl) back rest stack
  exact ⟨c', henter.trans (hrun.trans hleave), hc'⟩

/-- A call of `substring` with a text and two positions on the stack comes back with the part of the
text between them, or with nil if they are not in order inside the text.  On the way it reads no
character outside of the text. -/
theorem substring_yields_slice (hplace : (Routine.body .substring ++ rest) <:+ program) (i j : Int)
    {c : Config} {stack : List Value} (hstack : c.stack = .int j :: .int i :: .str s :: stack)
    (htf : c.tf = some fun _ => none) (back : List Instr) :
    ∃ c', Relation.ReflTransGen (fun d d' => m.step program d = some d' ∧ ReadsInside s d)
        (c.goto (.call substring.entry :: back)) (c'.goto back) ∧
      Returns stack c.output c c' ∧ c'.get Var.returned = some (some (slice s i j)) := by
  obtain ⟨c', hrun, hc'⟩ :=
    runs_substring (m := m.reading s) hm.reading hcounts hP hplace i j hstack htf back
  exact ⟨c', Relation.ReflTransGen.mono (fun _ _ => step_reading) _ _ hrun, hc'⟩

end

/-! ## Texts -/

/-- A machine whose ints have no bound and that handles texts. -/
def texts : Machine where
  round := some
  binary
    | .getChar, .str s, .int i =>
      if i < 0 then none else s.toList[i.toNat]?.map fun c => .str (String.singleton c)
    | .concat, .str s, .str t => some (.str (s ++ t))
    | _, _, _ => none
  unary
    | .strlen, .str s => some (.int s.length)
    | _, _ => none
  read _ input := (.nil, input)
  floatText _ := ""
  round_exact := unbounded.round_exact

theorem spells_texts (s : String) : texts.Spells s where
  strlen := rfl
  concat _ _ := rfl
  getChar i c hc := by
    have hnat : ¬ (i : Int) < 0 := by omega
    show (if (i : Int) < 0 then none else
      s.toList[(i : Int).toNat]?.map fun c => Value.str (String.singleton c)) = _
    rw [if_neg hnat, Int.toNat_natCast, hc, Option.map_some]

/-- The routine alone, with positions inside a text of two-byte characters and up to its end, and with
an end behind it. -/
theorem substring_yields_slice_end : Distinct (Routine.body .substring) ∧
    (∃ c' : Config, Relation.ReflTransGen
        (fun d d' => texts.step (Routine.body .substring) d = some d' ∧ ReadsInside "žluť" d)
        { Config.start [.call substring.entry] [] with
          tf := some fun _ => none, stack := [.int 4, .int 2, .str "žluť", .nil] } (c'.goto []) ∧
      c'.stack = [.nil] ∧ c'.get Var.returned = some (some (.str "luť"))) ∧
    ∃ c' : Config, Relation.ReflTransGen
        (fun d d' => texts.step (Routine.body .substring) d = some d' ∧ ReadsInside "žluť" d)
        { Config.start [.call substring.entry] [] with
          tf := some fun _ => none, stack := [.int 5, .int 2, .str "žluť", .nil] } (c'.goto []) ∧
      c'.stack = [.nil] ∧ c'.get Var.returned = some (some .nil) := by
  have hP : Distinct (Routine.body .substring) := by
    unfold Distinct
    decide +kernel
  have hplace : (Routine.body .substring ++ []) <:+ Routine.body .substring :=
    List.append_nil (Routine.body .substring) ▸ List.suffix_refl _
  have hslice : slice "žluť" 2 4 = .str "luť" := by
    rw [slice, if_neg (by decide +kernel)]
    exact congrArg Value.str (by decide +kernel)
  obtain ⟨c₁, hrun₁, hreturns₁, hvalue₁⟩ := substring_yields_slice (spells_texts "žluť")
    (fun _ _ => rfl) hP hplace 2 4 (c := { Config.start [] [] with
      tf := some fun _ => none, stack := [.int 4, .int 2, .str "žluť", .nil] }) rfl rfl []
  obtain ⟨c₂, hrun₂, hreturns₂, hvalue₂⟩ := substring_yields_slice (spells_texts "žluť")
    (fun _ _ => rfl) hP hplace 2 5 (c := { Config.start [] [] with
      tf := some fun _ => none, stack := [.int 5, .int 2, .str "žluť", .nil] }) rfl rfl []
  have hnil : slice "žluť" 2 5 = .nil := if_pos (by decide +kernel)
  exact ⟨hP, ⟨c₁, hrun₁, hreturns₁.stack, hslice ▸ hvalue₁⟩,
    c₂, hrun₂, hreturns₂.stack, hnil ▸ hvalue₂⟩

end Ifj22.Machine
