import Ifj22.Proofs.Code.Listing
set_option autoImplicit false

/-!
# Code: the operations of integer programs

Every value of an integer program is an int, so its operations convert nothing at run time.  Here is
what each of them adds to the segment: the temporaries that it takes and its instructions.
-/

namespace Ifj22.Code

variable {r : List Label} {cond : Generate Operand}

/-- The operand as an int, for operands that are converted when the code is generated. -/
def Operand.asInt : Operand → Operand
  | .float f => .int (Number.truncate f)
  | .nil => .int 0
  | .bool b => .int (if b then 1 else 0)
  | a => a

namespace Generator

variable {t : SymbolTable} {limit : Nat} {scope : Option String} {g g' : Generator}

/-! ## Scopes -/

/-- The generator is in a scope of a program. -/
structure Inside (t : SymbolTable) (limit : Nat) (scope : Option String) (g : Generator) : Prop where
  knows : g.Knows (names t limit scope)
  table : t.Alike g.table
  function : g.function = scope

theorem Inside.growth (h : Inside t limit scope g) (hg : Growth r g g') : Inside t limit scope g' :=
  ⟨hg.knows h.knows, h.table.trans hg.table, hg.function.trans h.function⟩

theorem env_varTy (g : Generator) (x : String) :
    g.env.varTy x = (g.table.varTy? g.function x).getD .never := by
  unfold env
  cases hf : g.function with
  | none => rfl
  | some f =>
    simp only [SymbolTable.varTy?, SymbolTable.local?_eq]
    rfl

theorem env_callTy (g : Generator) : g.env.callTy = g.table.callTy := by
  unfold env
  cases g.function <;> rfl

theorem varTy?_alike {t t' : SymbolTable} (h : t.Alike t') (scope : Option String) (x : String) :
    t'.varTy? scope x = t.varTy? scope x := by
  cases scope with
  | none => exact h.ty_eq x
  | some f => exact h.locals f x

/-- The generator knows that an integer expression has the type int. -/
theorem Inside.infer_eq (h : Inside t limit scope g) (ht : t.Integer) {e : Expr}
    (hover : e.Over (names t limit scope)) (hint : e.isInteger = true) : e.infer g.env = .int := by
  have hspelled : e.Over .spelled := by
    refine hover.mono ?_ ?_
    · exact fun x h => h.1.1
    · exact fun name n h => h.1.1
  refine Expr.infer_int (fun x hx hname => ?_) (fun name n hcallee hfree => ?_) hover hspelled hint
  · obtain ⟨ty, hty, _⟩ := SymbolTable.varTy_of_var hx.1.2
    rw [env_varTy, varTy?_alike h.table, h.function, hty, Option.getD_some]
    exact ht.varTy hname hty
  · rw [env_callTy, h.table.callTy_eq]
    exact ht.callTy hcallee.1.2 hfree

/-! ## Parts of a step -/

/-- The next temporary. -/
def temp (g : Generator) : Var := g.numbered "%t"

/-- The generator behind the next temporary. -/
def withTemp (g : Generator) : Generator := { g with temps := g.temps + 1 }.withVar g.temp

/-- The generator behind the next number for labels. -/
def withLabel (g : Generator) : Generator := { g with labels := g.labels + 1 }

/-- The generator behind more instructions. -/
def extend (g : Generator) (code : List Instr) : Generator := g.withCode code g.helpers

theorem body_extend (g : Generator) (code : List Instr) :
    (g.extend code).segment.body.toList = g.segment.body.toList ++ code :=
  Array.toList_appendList

theorem Inside.extend (h : Inside t limit scope g) (code : List Instr) :
    Inside t limit scope (g.extend code) :=
  ⟨⟨h.knows.inScope, ⟨h.knows.tidy.nodup, h.knows.tidy.frame, h.knows.tidy.named,
    h.knows.tidy.marked⟩, h.knows.var⟩, h.table, h.function⟩

theorem Inside.withLabel (h : Inside t limit scope g) : Inside t limit scope g.withLabel :=
  ⟨h.knows.reserve, h.table, h.function⟩

theorem Inside.withTemp (h : Inside t limit scope g) : Inside t limit scope g.withTemp :=
  h.growth (step_numbered (K := ⟨names t limit scope, false, []⟩) (.inl rfl)).toGrowth

theorem added_extend {g1 : Generator} (h : Growth r g g1) (g2 : Generator)
    (hbody : g2.segment.body = g1.segment.body) (code : List Instr) :
    added g (g2.extend code) = added g g1 ++ code := by
  refine added_eq ?_
  rw [body_extend, hbody, h.body, List.append_assoc]

theorem mem_withTemp {v : Var} :
    v ∈ g.withTemp.segment.declared ↔ v ∈ g.segment.declared ∨ v = g.temp := mem_withVar

/-! ## Operations -/

theorem normalize_int (a : Operand) : normalize a .int .int = pure a.asInt := by
  cases a <;> rfl

theorem arithmetic_int (op : BinOp) (a b : Operand) (g : Generator) :
    arithmetic op a .int b .int .int g =
      .ok g.temp (g.withTemp.extend [.binary (arithmeticOp op) g.temp a.asInt b.asInt]) := by
  unfold arithmetic
  simp only [normalize_int]
  rfl

theorem ordering_eq (op : BinOp) (a b : Operand) (g : Generator) :
    ordering op a b g = .ok g.temp (g.withTemp.extend (.binary (orderingOp op).1 g.temp a b ::
      if (orderingOp op).2 = true then [.unary .not g.temp g.temp] else [])) := by
  unfold ordering
  cases (orderingOp op).2 <;> rfl

theorem identity_eq (op : BinOp) (a b : Operand) (g : Generator) :
    identity op a b g = .ok g.withTemp.withTemp.temp (g.withLabel.withTemp.withTemp.withTemp.extend
      ([.unary .typeOf g.temp a, .unary .typeOf g.withTemp.temp b,
        .move g.withTemp.withTemp.temp (.bool false),
        .jumpIfNeq (.branch .compare (g.labels + 1)) g.temp g.withTemp.temp,
        .binary .eq g.withTemp.withTemp.temp a b, .label (.branch .compare (g.labels + 1))] ++
        if op = .notIdentical then [.unary .not g.withTemp.withTemp.temp g.withTemp.withTemp.temp]
        else [])) := by
  unfold identity
  by_cases h : op = .notIdentical
  · simp only [h, if_true]
    rfl
  · simp only [h, if_false]
    rfl

/-- The truth of a variable is found at run time. -/
theorem asTruth_int (a : Operand) (g : Generator) : asTruth a .int g =
    match immediateTruth? a with
    | some b => .ok (.bool b) g
    | none => .ok g.temp
        (g.withTemp.extend [.binary .eq g.temp a (.int 0), .unary .not g.temp g.temp]) := by
  unfold asTruth
  cases immediateTruth? a <;> rfl

theorem truthAsInt_of_ne {a : Operand} (h : ∀ b, a ≠ .bool b) (g : Generator) :
    truthAsInt a g = .ok g.temp (g.withLabel.withTemp.extend [.move g.temp (.int 0),
      .jumpIfEq (.branch .bool (g.labels + 1)) a (.bool false), .move g.temp (.int 1),
      .label (.branch .bool (g.labels + 1))]) := by
  unfold truthAsInt
  cases a with
  | bool b => exact absurd rfl (h b)
  | _ => rfl

theorem logical_ok {op : BinOp} {left right : Generate Operand} {a : Operand}
    (h : logical op left right g = .ok a g') : ∃ l b g1 b' g2,
      left g.withLabel.withTemp = .ok b g1 ∧
      right (g1.extend [.move g.temp b, .jumpIfEq l g.temp (.bool (op != .and))]) = .ok b' g2 ∧
      a = g.temp ∧ g' = g2.extend [.move g.temp b', .label l] := by
  unfold logical at h
  obtain ⟨_, _, ⟨⟩, h⟩ := bind_eq_ok.mp h
  obtain ⟨_, _, ⟨⟩, h⟩ := bind_eq_ok.mp h
  obtain ⟨b, g1, hleft, h⟩ := bind_eq_ok.mp h
  obtain ⟨_, _, ⟨⟩, h⟩ := bind_eq_ok.mp h
  obtain ⟨_, _, ⟨⟩, h⟩ := bind_eq_ok.mp h
  obtain ⟨b', g2, hright, h⟩ := bind_eq_ok.mp h
  cases h
  exact ⟨_, b, g1, b', g2, hleft, hright, rfl, rfl⟩

theorem callCode_ok {name : String} {n : Nat} {pushes : Generate Unit}
    (h : callCode name n pushes g = .ok () g') :
    ∃ g1, pushes g = .ok () g1 ∧ g' = g1.extend (callEnd name n) := by
  unfold callCode at h
  obtain ⟨_, g1, hpushes, h⟩ := bind_eq_ok.mp h
  refine ⟨g1, hpushes, ?_⟩
  unfold callEnd
  split at h
  · cases h
    simp only [*, if_true]
    rfl
  · cases h
    simp only [*, if_false]
    rfl

theorem negation_of_ne {a : Operand} (h : ∀ b, a ≠ .bool b) (g : Generator) :
    negation a g = .ok g.temp (g.withTemp.extend [.unary .not g.temp a]) := by
  unfold negation
  cases a with
  | bool b => exact absurd rfl (h b)
  | _ => rfl

/-! ## Statements -/

/-- The end of a return with the given operand. -/
def returnEnd : Option String → Option Operand → List Instr
  | none, _ => [.exit (.int 0)]
  | some _, none => [.popFrame, .ret]
  | some _, some a => [.move Var.result a, .popFrame, .ret]

theorem returnCode_ok {value : Generate (Option Operand)} (h : returnCode value g = .ok () g') :
    ∃ a g1, value g = .ok a g1 ∧ g' = g1.extend (returnEnd g1.function a) := by
  unfold returnCode at h
  obtain ⟨a, g1, hvalue, h⟩ := bind_eq_ok.mp h
  obtain ⟨_, _, ⟨⟩, h⟩ := bind_eq_ok.mp h
  refine ⟨a, g1, hvalue, ?_⟩
  cases hf : g1.function with
  | none =>
    rw [hf] at h
    cases h
    rfl
  | some f =>
    rw [hf] at h
    cases a <;> cases h <;> rfl

theorem ifElseCode_ok {thenCode elseCode : Generate Unit}
    (h : ifElseCode cond thenCode elseCode g = .ok () g') : ∃ l l' a g1 g2 g3,
      cond g.withLabel = .ok a g1 ∧ thenCode (g1.extend [.jumpIfEq l a (.bool false)]) = .ok () g2 ∧
      elseCode (g2.extend [.jump l', .label l]) = .ok () g3 ∧ g' = g3.extend [.label l'] := by
  unfold ifElseCode at h
  obtain ⟨_, _, ⟨⟩, h⟩ := bind_eq_ok.mp h
  obtain ⟨a, g1, hcond, h⟩ := bind_eq_ok.mp h
  obtain ⟨_, _, ⟨⟩, h⟩ := bind_eq_ok.mp h
  obtain ⟨_, g2, hthen, h⟩ := bind_eq_ok.mp h
  obtain ⟨_, _, ⟨⟩, h⟩ := bind_eq_ok.mp h
  obtain ⟨_, _, ⟨⟩, h⟩ := bind_eq_ok.mp h
  obtain ⟨_, g3, helse, h⟩ := bind_eq_ok.mp h
  cases h
  exact ⟨_, _, a, g1, g2, g3, hcond, hthen, helse, rfl⟩

theorem whileLoopCode_ok {body : Generate Unit} (h : whileLoopCode cond body g = .ok () g') :
    ∃ l l' a g1 g2,
      cond (g.withLabel.extend [.label l']) = .ok a g1 ∧
      body (g1.extend [.jumpIfEq l a (.bool false)]) = .ok () g2 ∧
      g' = g2.extend [.jump l', .label l] := by
  unfold whileLoopCode at h
  obtain ⟨_, _, ⟨⟩, h⟩ := bind_eq_ok.mp h
  obtain ⟨_, _, ⟨⟩, h⟩ := bind_eq_ok.mp h
  obtain ⟨a, g1, hcond, h⟩ := bind_eq_ok.mp h
  obtain ⟨_, _, ⟨⟩, h⟩ := bind_eq_ok.mp h
  obtain ⟨_, g2, hbody, h⟩ := bind_eq_ok.mp h
  cases h
  exact ⟨_, _, a, g1, g2, hcond, hbody, rfl⟩

end Generator

end Ifj22.Code
