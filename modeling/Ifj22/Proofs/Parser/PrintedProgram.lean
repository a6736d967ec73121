import Ifj22.Proofs.Parser.PrintedExpr
import Ifj22.Proofs.Tree.Read
set_option autoImplicit false

/-!
# Parser: reading a printed program

A statement ends at a token of its own, so a printed statement list is read statement by statement.
One token ahead decides between an assignment and an expression that starts with a variable, and
whether a conditional goes on; no printed statement starts with a token that would mislead there.
-/

namespace Ifj22

variable {e : Expr} {ts us : List Token} {s : Stmt} {body : List Stmt} {k : TokenKind} {ty : Ty}
  {params : List Param} {f : Token} {parts : List (List Token)} {fuel : Nat} {v l r : Token}
  {q : Param}

/-! ## First tokens -/

/-- The function whose call an expression starts with. -/
def Expr.firstCallee : Expr → Option String
  | .call name _ => some name
  | .binary op left _ => if op.level ≤ left.tightness then left.firstCallee else none
  | _ => none

/-- The function whose call a statement starts with. -/
def Stmt.firstCallee : Stmt → Option String
  | .expr value => value.firstCallee
  | _ => none

/-- An expression that starts with a variable goes on with an operator, if at all, and one that starts
with a name calls that function first. -/
theorem Expr.Prints.front (h : e.Prints (v :: us)) :
    (v.kind = .varName → us = [] ∨ ∃ o vs, us = o :: vs ∧ o.kind.assignForm? = none) ∧
      (v.kind = .identifier → e.firstCallee = some v.lexeme) := by
  induction e generalizing us with
  | constant c =>
    cases h with
    | constant h =>
      refine ⟨fun _ => .inl rfl, fun hf => ?_⟩
      cases c with
      | int | float | str => exact absurd (hf.symm.trans h.1) (by decide)
      | null => exact absurd (hf.symm.trans h) (by decide)
  | var name =>
    cases h with
    | var h => exact ⟨fun _ => .inl rfl, fun hf => absurd (hf.symm.trans h.1) (by decide)⟩
  | unary op operand _ =>
    cases h with
    | unary ho =>
      rw [ho]
      cases op <;> exact ⟨nofun, nofun⟩
  | call name args _ =>
    cases h with
    | callNone hf | call hf =>
      exact ⟨fun hv => absurd (hf.1.symm.trans hv) (by decide), fun _ => by rw [hf.2]; rfl⟩
  | binary op left right ih _ =>
    generalize hts : v :: us = ts at h
    cases h with
    | @binary _ _ _ ts us' o hl ho _ =>
      cases hl with
      | bare hle h =>
        obtain ⟨t, vs, rfl, _⟩ := h.head
        obtain ⟨rfl, rfl⟩ := List.cons.inj hts
        obtain ⟨hsecond, hcallee⟩ := ih h
        refine ⟨fun hv => .inr ?_, fun hf => ?_⟩
        · rcases hsecond hv with rfl | ⟨o', vs', rfl, ho'⟩
          · exact ⟨o, us', rfl, by rw [ho]; cases op <;> rfl⟩
          · exact ⟨o', _, rfl, ho'⟩
        · rw [Expr.firstCallee, if_pos hle]
          exact hcallee hf
      | parens _ hl =>
        obtain ⟨rfl, _⟩ := List.cons.inj hts
        rw [hl]
        exact ⟨nofun, nofun⟩

/-- A token that a statement starts with. -/
def TokenKind.startsStmt : TokenKind → Bool
  | .openBrace | .kwIf | .kwWhile | .kwFunction | .kwReturn | .semicolon => true
  | k => k.startsExpr

theorem Stmt.Prints.head (h : s.Prints ts) : ∃ t us, ts = t :: us ∧ t.kind.startsStmt = true := by
  cases h with
  | assign hv => exact ⟨_, _, rfl, by rw [hv.1]; rfl⟩
  | expr h =>
    obtain ⟨t, us, rfl, ht⟩ := h.head
    refine ⟨t, _, rfl, ?_⟩
    cases hk : t.kind <;> rw [hk] at ht <;> first | rfl | cases ht
  | retNone hk | ret hk | empty hk | block hk | ifThen hk | ifElse hk | whileLoop hk =>
    exact ⟨_, _, rfl, by rw [hk]; rfl⟩

theorem Stmt.PrintsTop.head (h : s.PrintsTop ts) :
    ∃ t us, ts = t :: us ∧ t.kind.startsStmt = true := by
  cases h with
  | stmt h => exact h.head
  | function hk => exact ⟨_, _, rfl, by rw [hk]; rfl⟩

/-- A parameter does not start with a closing parenthesis. -/
theorem Param.Prints.head (h : q.Prints ts) : ∃ t us, ts = t :: us ∧ t.kind ≠ .closeParen := by
  cases h with
  | any h => exact ⟨_, _, rfl, by rw [h.1]; decide⟩
  | typed hty _ =>
    cases hty with
    | @named _ t h =>
      refine ⟨t, _, rfl, fun hk => ?_⟩
      rw [hk] at h
      simp [namedTys] at h
    | nullable hq => exact ⟨_, _, rfl, by rw [hq]; decide⟩

namespace Parser

variable {p p' : Parser} {t : Token} {ts rest : List Token}

/-- The statement stands at the end of the arena, from the end of the parser's arena on. -/
def BuildsStmt (p : Parser) (s : Stmt) (id : Nat) (p' : Parser) : Prop :=
  s.At p'.arena p.arena.size id ∧ p'.arena.size = id + 1

/-- The statement list stands at the end of the arena, from the end of the parser's arena on. -/
def BuildsList (p : Parser) (body : List Stmt) (id : Nat) (p' : Parser) : Prop :=
  ListAt p'.arena body none p.arena.size id ∧ p'.arena.size = id + 1

theorem BuildsList.lt {id : Nat} (h : p.BuildsList body id p') : id < p'.arena.size :=
  Nat.le_of_eq h.2.symm

theorem finds_expr (h : e.Prints ts) (hp : p.ahead = ts ++ t :: rest)
    (ht : t.kind.binaryOp? = none) : p.Finds expr (t :: rest) (p.Builds e) := by
  unfold expr
  refine .get ((readable e).finds h hp ht ?_)
  have hlen := p.ahead_length_le
  omega

/-! ## Simple statements -/

section

variable {s : Token} {e : Expr}

theorem finds_exprStmt (h : e.Prints ts) (hs : s.kind = .semicolon)
    (hp : p.ahead = ts ++ s :: rest) : p.Finds exprStmt rest (p.BuildsStmt (.expr e)) := by
  unfold exprStmt
  refine (finds_expr h hp (by rw [hs]; rfl)).bind fun id p1 h1 hbuilds => ?_
  exact .expect h1.ahead hs (by decide) fun hp => .pure hp hbuilds

theorem finds_assignment {target : String} {a : Token} (hv : v.Spells .varName target)
    (ha : a.kind = .assign) (h : e.Prints ts) (hs : s.kind = .semicolon)
    (hp : p.ahead = v :: a :: (ts ++ s :: rest)) :
    p.Finds (assignment .plain) rest (p.BuildsStmt (.assign target e)) := by
  unfold assignment
  refine .expect hp hv.1 (by decide) fun hp => .advance hp (by rw [ha]; decide) fun hp => ?_
  refine (finds_expr h hp (by rw [hs]; rfl)).bind fun i p1 h1 hbuilds => ?_
  refine .expect h1.ahead hs (by decide) fun hp => ?_
  rw [hv.2]
  refine .pushed _ hp ⟨⟨i, node_grow .., ?_, hbuilds.lt⟩, size_grow ..⟩
  exact (Onward.grow p1.skip _).arena.exprAt hbuilds.1

theorem finds_returnStmt_none {k : Token} (hk : k.kind = .kwReturn) (hs : s.kind = .semicolon)
    (hp : p.ahead = k :: s :: rest) : p.Finds returnStmt rest (p.BuildsStmt (.ret none)) := by
  unfold returnStmt
  refine .expect hp hk (by decide) fun hp => .accept hp hs (by decide) fun hp => .pushed _ hp ?_
  exact ⟨⟨node_grow .., Nat.le_refl p.arena.size⟩, size_grow ..⟩

theorem finds_returnStmt {k : Token} (hk : k.kind = .kwReturn) (h : e.Prints ts)
    (hs : s.kind = .semicolon) (hp : p.ahead = k :: (ts ++ s :: rest)) :
    p.Finds returnStmt rest (p.BuildsStmt (.ret (some e))) := by
  unfold returnStmt
  refine .expect hp hk (by decide) fun hp => ?_
  obtain ⟨u, us, hopen, hu⟩ := h.opens (k := .semicolon) rfl (s :: rest)
  refine .accept_not (hp.trans hopen) hu ?_
  refine (finds_expr h hp (by rw [hs]; rfl)).bind fun i p1 h1 hbuilds => ?_
  refine .expect h1.ahead hs (by decide) fun hp => ?_
  refine .pushed _ hp ⟨⟨i, node_grow .., ?_, hbuilds.lt⟩, size_grow ..⟩
  exact (Onward.grow p1.skip _).arena.exprAt hbuilds.1

theorem finds_condition {o c : Token} (ho : o.kind = .openParen) (h : e.Prints ts)
    (hc : c.kind = .closeParen) (hp : p.ahead = o :: (ts ++ c :: rest)) :
    p.Finds condition rest (p.Builds e) := by
  unfold condition
  refine .expect hp ho (by decide) fun hp => ?_
  refine (finds_expr h hp (by rw [hc]; rfl)).bind fun id p1 h1 hbuilds => ?_
  exact .expect h1.ahead hc (by decide) fun hp => .pure hp hbuilds

end

/-! ## Signatures of functions -/

theorem namedTy?_of_mem (h : (ty, k) ∈ namedTys) :
    namedTy? k = some ty ∧ k ≠ .eof ∧ k ≠ .question ∧ k ≠ .kwVoid := by
  simp only [namedTys, List.mem_cons, Prod.mk.injEq, List.not_mem_nil, or_false] at h
  rcases h with ⟨rfl, rfl⟩ | ⟨rfl, rfl⟩ | ⟨rfl, rfl⟩ <;> exact ⟨rfl, by decide⟩

theorem finds_optionalTy (h : ty.Prints ts) (hp : p.ahead = ts ++ rest) :
    p.Finds optionalTy rest fun r p' => r = some ty ∧ p'.arena = p.arena := by
  unfold optionalTy
  cases h with
  | named h =>
    obtain ⟨hty, heof, hquestion, _⟩ := namedTy?_of_mem h
    refine .accept_not hp hquestion (.get ?_)
    rw [kind_of_ahead hp, hty]
    exact .advance hp heof fun hp => .pure hp ⟨rfl, rfl⟩
  | nullable hq h =>
    obtain ⟨hty, heof, _⟩ := namedTy?_of_mem h
    refine .accept hp hq (by decide) fun hp => .get ?_
    rw [kind_of_ahead hp, hty]
    exact .advance hp heof fun hp => .pure hp ⟨rfl, rfl⟩

theorem finds_optionalTy_none (hp : p.ahead = t :: rest) (ht : t.kind = .varName) :
    p.Finds optionalTy (t :: rest) fun r p' => r = none ∧ p'.arena = p.arena := by
  unfold optionalTy
  refine .accept_not hp (by rw [ht]; decide) (.get ?_)
  rw [kind_of_ahead hp, ht]
  exact .pure hp ⟨rfl, rfl⟩

theorem finds_param (h : q.Prints ts) (hp : p.ahead = ts ++ rest) :
    p.Finds param rest fun r p' => r = q ∧ p'.arena = p.arena := by
  unfold param
  cases h with
  | any h =>
    refine (finds_optionalTy_none hp h.1).bind ?_
    rintro _ p1 h1 ⟨rfl, ha1⟩
    exact .expect h1.ahead h.1 (by decide) fun hp => .pure hp ⟨by rw [h.2]; rfl, ha1⟩
  | typed hty h =>
    rw [List.append_assoc] at hp
    refine (finds_optionalTy hty hp).bind ?_
    rintro _ p1 h1 ⟨rfl, ha1⟩
    exact .expect h1.ahead h.1 (by decide) fun hp => .pure hp ⟨by rw [h.2]; rfl, ha1⟩

theorem finds_moreParams (h : PrintsMoreParams params us) :
    ∀ {p : Parser} {fuel : Nat}, p.ahead = us ++ t :: rest → t.kind = .closeParen →
      p.ahead.length ≤ fuel →
      p.Finds (moreParams fuel) (t :: rest) fun r p' => r = params ∧ p'.arena = p.arena := by
  induction h with
  | nil =>
    intro p fuel hp ht hfuel
    rw [List.nil_append] at hp
    rw [hp, List.length_cons] at hfuel
    obtain ⟨fuel, rfl⟩ := exists_fuel hfuel
    unfold moreParams
    exact .accept_not hp (by rw [ht]; decide) (.pure hp ⟨rfl, rfl⟩)
  | @cons q params c ts us hc hq _ ih =>
    intro p fuel hp ht hfuel
    rw [List.cons_append, List.append_assoc] at hp
    rw [hp, List.length_cons, List.length_append] at hfuel
    obtain ⟨fuel, rfl⟩ := exists_fuel hfuel
    unfold moreParams
    refine .accept hp hc (by decide) fun hp => (finds_param hq hp).bind ?_
    rintro _ p1 h1 ⟨rfl, ha1⟩
    refine (ih h1.ahead ht (by rw [h1.ahead]; omega)).bind ?_
    rintro _ p2 h2 ⟨rfl, ha2⟩
    exact .pure h2.ahead ⟨rfl, ha2.trans ha1⟩

theorem finds_paramList {o c : Token} (ho : o.kind = .openParen) (h : PrintsParams params ts)
    (hc : c.kind = .closeParen) (hp : p.ahead = o :: (ts ++ c :: rest)) :
    p.Finds paramList rest fun r p' => r = params ∧ p'.arena = p.arena := by
  unfold paramList
  refine .expect hp ho (by decide) fun hp => ?_
  cases h with
  | nil => exact .accept hp hc (by decide) fun hp => .pure hp ⟨rfl, rfl⟩
  | @cons first more ts us hfirst hmore =>
    obtain ⟨u, vs, hopen, hu⟩ : ∃ u vs, ts ++ us ++ c :: rest = u :: vs ∧ u.kind ≠ .closeParen := by
      obtain ⟨u, vs, rfl, hu⟩ := hfirst.head
      exact ⟨u, _, rfl, hu⟩
    refine .accept_not (hp.trans hopen) hu ?_
    rw [List.append_assoc] at hp
    refine (finds_param hfirst hp).bind ?_
    rintro _ p1 h1 ⟨rfl, ha1⟩
    refine .get ((finds_moreParams hmore h1.ahead hc ?_).bind ?_)
    · exact Nat.le_succ_of_le p1.ahead_length_le
    · rintro _ p2 h2 ⟨rfl, ha2⟩
      exact .expect h2.ahead hc (by decide) fun hp => .pure hp ⟨rfl, ha2.trans ha1⟩

theorem finds_returnTy (h : ty.Prints ts) (hp : p.ahead = ts ++ rest) :
    p.Finds returnTy rest fun r p' => r = ty ∧ p'.arena = p.arena := by
  obtain ⟨u, us, hopen, hu⟩ : ∃ u us, ts ++ rest = u :: us ∧ u.kind ≠ .kwVoid := by
    cases h with
    | named h => exact ⟨_, _, rfl, (namedTy?_of_mem h).2.2.2⟩
    | nullable hq => exact ⟨_, _, rfl, by rw [hq]; decide⟩
  unfold returnTy
  refine .accept_not (hp.trans hopen) hu ((finds_optionalTy h hp).bind ?_)
  rintro _ p1 h1 ⟨rfl, ha1⟩
  exact .pure h1.ahead ⟨rfl, ha1⟩

theorem finds_returnTy_void (hp : p.ahead = t :: rest) (ht : t.kind = .kwVoid) :
    p.Finds returnTy rest fun r p' => r = .void ∧ p'.arena = p.arena := by
  unfold returnTy
  exact .accept hp ht (by decide) fun hp => .pure hp ⟨rfl, rfl⟩

/-- A function, given that its body is read. -/
theorem finds_functionWith {name : String} {declared : Option Ty} {k o c : Token}
    {block : Parse NodeId} (hk : k.kind = .kwFunction) (hf : f.Spells .identifier name)
    (ho : o.kind = .openParen) (hparams : PrintsParams params ts) (hc : c.kind = .closeParen)
    (hdeclared : PrintsReturn declared us) (hl : l.kind = .openBrace) {vs : List Token}
    (hp : p.ahead = k :: f :: o :: (ts ++ c :: (us ++ l :: vs)))
    (hblock : ∀ q : Parser, q.ahead = l :: vs → q.ahead.length < p.ahead.length →
      q.Finds block rest (q.BuildsList body)) :
    p.Finds (functionWith block) rest (p.BuildsStmt (.function name params declared body)) := by
  have hlen : (l :: vs).length < p.ahead.length := by
    rw [hp]
    simp only [List.length_cons, List.length_append]
    omega
  have hbody (q : Parser) (hq : q.ahead = l :: vs) (hqa : q.arena = p.arena) :
      q.Finds (block >>= fun inner => push (.function name params declared inner)) rest
        (p.BuildsStmt (.function name params declared body)) := by
    refine (hblock q hq (hq ▸ hlen)).bind fun i p1 h1 hbuilds => ?_
    refine .pushed _ h1.ahead ⟨⟨i, node_grow .., ?_, hbuilds.lt⟩, size_grow ..⟩
    exact (Onward.grow p1 _).arena.listAt (hqa ▸ hbuilds.1)
  unfold functionWith
  refine .expect hp hk (by decide) fun hp => .expect hp hf.1 (by decide) fun hp => ?_
  rw [hf.2]
  refine (finds_paramList ho hparams hc hp).bind ?_
  rintro _ p1 h1 ⟨rfl, ha1⟩
  cases hdeclared with
  | none => exact .accept_not h1.ahead (by rw [hl]; decide) (hbody p1 h1.ahead ha1)
  | void hcolon hvoid =>
    refine .accept h1.ahead hcolon (by decide) fun hp => (finds_returnTy_void hp hvoid).bind ?_
    rintro _ p2 h2 ⟨rfl, ha2⟩
    exact hbody p2 h2.ahead (ha2.trans ha1)
  | some hcolon hty =>
    refine .accept h1.ahead hcolon (by decide) fun hp => (finds_returnTy hty hp).bind ?_
    rintro _ p2 h2 ⟨rfl, ha2⟩
    exact hbody p2 h2.ahead (ha2.trans ha1)

/-! ## Branches and loops -/

section

variable {cond : Expr} {body : List Stmt} {k o c : Token} {us vs : List Token} {inner : Parse NodeId}
  (ho : o.kind = .openParen) (hcond : cond.Prints ts) (hc : c.kind = .closeParen)
  (hp : p.ahead = k :: o :: (ts ++ c :: us))
  (hbody : ∀ q : Parser, q.ahead = us → q.ahead.length < p.ahead.length →
    q.Finds inner vs (q.BuildsList body))

include hp in
theorem length_lt_of_head : us.length < p.ahead.length := by
  rw [hp]
  simp only [List.length_cons, List.length_append]
  omega

include ho hcond hc hp hbody

/-- A keyword, a condition and a body. -/
theorem finds_guarded {kind : TokenKind} {f : NodeId → NodeId → Parse NodeId}
    {R : NodeId → Parser → Prop} (hk : k.kind = kind) (hne : kind ≠ .eof)
    (h : ∀ i j p1 p2, p.Builds cond i p1 → p1.Leaves vs p2 → p1.BuildsList body j p2 →
      p2.Finds (f i j) rest R) :
    p.Finds (expect kind >>= fun _ => condition >>= fun i => inner >>= f i) rest R := by
  have hlen := length_lt_of_head hp
  refine .expect hp hk hne fun hp => ?_
  refine (finds_condition ho hcond hc hp).bind fun i p1 h1 hcondition => ?_
  exact (hbody p1 h1.ahead (h1.ahead ▸ hlen)).bind fun j p2 => h i j p1 p2 hcondition

theorem finds_whileLoopWith (hk : k.kind = .kwWhile) :
    p.Finds (whileLoopWith inner) vs (p.BuildsStmt (.whileLoop cond body)) := by
  refine finds_guarded ho hcond hc hp hbody hk (by decide) fun i j p1 p2 hcondition h2 hbuilds => ?_
  have hgrow := (Onward.grow p2 (.whileLoop i j)).arena
  refine .pushed _ h2.ahead ⟨⟨i, j, node_grow .., ?_, ?_, hbuilds.lt⟩, size_grow ..⟩
  · exact (h2.arena.trans hgrow).exprAt hcondition.1
  · exact hgrow.listAt (hcondition.2 ▸ hbuilds.1)

/-- A conditional without a second branch, before a token that does not start one. -/
theorem finds_ifElseWith_none (hk : k.kind = .kwIf) (hvs : vs = t :: rest) (ht : t.kind ≠ .kwElse) :
    p.Finds (ifElseWith inner) vs (p.BuildsStmt (.ifElse cond body none)) := by
  refine finds_guarded ho hcond hc hp hbody hk (by decide) fun i j p1 p2 hcondition h2 hbuilds => ?_
  refine .accept_not (h2.ahead.trans hvs) ht ?_
  have hgrow := (Onward.grow p2 (.ifElse i j none)).arena
  refine .pushed _ h2.ahead ⟨⟨i, j, node_grow .., ?_, ?_, hbuilds.lt⟩, size_grow ..⟩
  · exact (h2.arena.trans hgrow).exprAt hcondition.1
  · exact hgrow.listAt (hcondition.2 ▸ hbuilds.1)

theorem finds_ifElseWith {elseBody : List Stmt} {e : Token} (ws : List Token) (hk : k.kind = .kwIf)
    (hvs : vs = e :: ws) (he : e.kind = .kwElse) (hws : ws.length ≤ us.length)
    (helse : ∀ q : Parser, q.ahead = ws → q.ahead.length < p.ahead.length →
      q.Finds inner rest (q.BuildsList elseBody)) :
    p.Finds (ifElseWith inner) rest (p.BuildsStmt (.ifElse cond body (some elseBody))) := by
  have hlen := length_lt_of_head hp
  refine finds_guarded ho hcond hc hp hbody hk (by decide) fun i j p1 p2 hcondition h2 hbuilds => ?_
  refine .accept (h2.ahead.trans hvs) he (by decide) fun hp => ?_
  refine (helse p2.skip hp (by rw [hp]; omega)).bind fun m p3 h3 hbuilds' => ?_
  have hgrow := (Onward.grow p3 (.ifElse i j (some m))).arena
  have hon := Arena.Extends.trans h3.arena hgrow
  refine .pushed _ h3.ahead ⟨⟨i, j, m, node_grow .., ?_, ?_, ?_, hbuilds'.lt⟩, size_grow ..⟩
  · exact (h2.arena.trans hon).exprAt hcondition.1
  · exact hon.listAt (hcondition.2 ▸ hbuilds.1)
  · exact hgrow.listAt (hbuilds.2 ▸ hbuilds'.1)

end

/-! ## Statement lists -/

/-- The tokens are read as the statement, whatever comes next but `else`. -/
structure ReadsStmt (toplevel : Bool) (s : Stmt) (ts : List Token) : Prop where
  head : ∃ t us, ts = t :: us ∧ t.kind.startsStmt = true
  finds : ∀ ⦃p : Parser⦄ ⦃t : Token⦄ ⦃rest : List Token⦄ ⦃fuel : Nat⦄, p.ahead = ts ++ t :: rest →
    t.kind ≠ .kwElse → 3 * p.ahead.length + 2 ≤ fuel →
    p.Finds (statement fuel toplevel) (t :: rest) (p.BuildsStmt s)

theorem endsList_of_startsStmt (h : k.startsStmt = true) (toplevel : Bool) :
    endsList toplevel k = false := by
  cases k <;> first | rfl | cases h

theorem ne_else_of_endsList {toplevel : Bool} (h : endsList toplevel k = true) : k ≠ .kwElse := by
  rintro rfl
  cases h

/-- Printed statements are read back, up to the token that ends their list. -/
theorem finds_statements {toplevel : Bool} (h : List.Forall₂ (ReadsStmt toplevel) body parts) :
    ∀ {p : Parser} {before : Option Nat} {fuel : Nat}, p.ahead = parts.flatten ++ t :: rest →
      endsList toplevel t.kind = true → 3 * p.ahead.length + 3 ≤ fuel →
      (∀ b, before = some b → p.arena.size = b + 1) →
      p.Finds (statements fuel toplevel before) (t :: rest) fun id p' =>
        ListAt p'.arena body before p.arena.size id ∧ p'.arena.size = id + 1 := by
  induction h with
  | nil =>
    intro p before fuel hp ht hfuel hbefore
    rw [List.flatten_nil, List.nil_append] at hp
    obtain ⟨fuel, rfl⟩ := exists_fuel hfuel
    unfold statements
    refine .get ?_
    rw [kind_of_ahead hp, if_pos ht]
    cases before with
    | some b => exact .pure hp ⟨.inl rfl, hbefore b rfl⟩
    | none =>
      refine .pushed _ hp ⟨.inr ⟨rfl, node_grow .., ?_, Nat.le_refl _⟩, size_grow ..⟩
      rw [size_grow]
      exact Nat.lt_succ_self _
  | @cons s ts body parts hs hrest ih =>
    intro p before fuel hp ht hfuel hbefore
    rw [List.flatten_cons, List.append_assoc] at hp
    -- behind the statement comes another one or the end of the list, and so no `else`
    obtain ⟨u, us, hopen, hu⟩ : ∃ u us, parts.flatten ++ t :: rest = u :: us ∧ u.kind ≠ .kwElse := by
      cases hrest with
      | nil => exact ⟨t, rest, rfl, ne_else_of_endsList ht⟩
      | cons hnext _ =>
        obtain ⟨u, us, rfl, hu⟩ := hnext.head
        refine ⟨u, _, rfl, fun hk => ?_⟩
        rw [hk] at hu
        cases hu
    obtain ⟨v, vs, hv⟩ := hs.head
    rw [hp, hv.1, List.cons_append, List.length_cons, List.length_append] at hfuel
    obtain ⟨fuel, rfl⟩ := exists_fuel hfuel
    unfold statements
    refine .get ?_
    have hkind : p.kind = v.kind := by
      rw [hv.1, List.cons_append] at hp
      exact kind_of_ahead hp
    rw [hkind, endsList_of_startsStmt hv.2, if_neg Bool.false_ne_true]
    have hlen : p.ahead.length = vs.length + 1 + (parts.flatten ++ t :: rest).length := by
      rw [hp, hv.1, List.length_append, List.length_cons]
    rw [hopen] at hp
    refine (hs.finds hp hu (by omega)).bind fun i p1 h1 hbuilds => ?_
    rw [← hopen] at h1
    have hlast := hbuilds.2
    have hgrow := (Onward.grow p1 (.sequence before (some i))).arena
    refine .push _ ((@ih (p1.grow _) _ _ h1.ahead ht ?_ ?_).imp ?_)
    · show 3 * p1.ahead.length + 3 ≤ fuel
      rw [h1.ahead]
      omega
    · intro b hb
      rw [← Option.some.inj hb, size_grow]
    · rintro id p2 h2 ⟨hlist, hend⟩
      refine ⟨⟨i, p1.arena.size, (hgrow.trans h2.arena).stmtAt hbuilds.1, by omega, ?_, ?_⟩, hend⟩
      · rw [h2.arena.node _ (by simp), node_grow]
      · rwa [size_grow] at hlist

theorem finds_block (hl : l.kind = .openBrace) (h : List.Forall₂ (ReadsStmt false) body parts)
    (hr : r.kind = .closeBrace) (hp : p.ahead = l :: (parts.flatten ++ r :: rest))
    (hfuel : 3 * p.ahead.length + 1 ≤ fuel) : p.Finds (block fuel) rest (p.BuildsList body) := by
  rw [hp, List.length_cons] at hfuel
  obtain ⟨fuel, rfl⟩ := exists_fuel hfuel
  unfold block
  refine .expect hp hl (by decide) fun hp => ?_
  refine (@finds_statements body parts r rest false h p.skip none fuel hp (by rw [hr]; rfl)
    (by rw [hp]; omega) (by simp)).bind fun id p1 h1 hbuilds => ?_
  exact .expect h1.ahead hr (by decide) fun hp => .pure hp hbuilds

theorem finds_body (hl : l.kind = .openBrace) (h : List.Forall₂ (ReadsStmt false) body parts)
    (hr : r.kind = .closeBrace) (hp : p.ahead = l :: (parts.flatten ++ r :: rest))
    (hfuel : 3 * p.ahead.length + 2 ≤ fuel) :
    p.Finds (Parser.body fuel) rest (p.BuildsList body) := by
  obtain ⟨fuel, rfl⟩ := exists_fuel hfuel
  unfold Parser.body
  refine .get ?_
  rw [kind_of_ahead hp, if_pos hl]
  exact finds_block hl h hr hp (by omega)

/-! ## Statements -/

/-- A statement that starts with a token of an expression is read as one. -/
theorem finds_statement_expr {s : Token} (toplevel : Bool) (h : e.Prints ts)
    (hs : s.kind = .semicolon) (hp : p.ahead = ts ++ s :: rest) :
    p.Finds (statement (fuel + 1) toplevel) rest (p.BuildsStmt (.expr e)) := by
  have hread := finds_exprStmt h hs hp
  obtain ⟨t, us, rfl, ht⟩ := h.head
  have hkind : p.kind = t.kind := kind_of_ahead hp
  unfold statement
  refine .get ?_
  by_cases hvar : t.kind = .varName
  · rw [hkind, hvar]
    unfold varStmt
    refine .get ?_
    obtain ⟨o, vs, heq, ho⟩ : ∃ o vs, us ++ s :: rest = o :: vs ∧ o.kind.assignForm? = none := by
      rcases h.front.1 hvar with rfl | ⟨o, vs, rfl, ho⟩
      · exact ⟨s, rest, rfl, by rw [hs]; rfl⟩
      · exact ⟨o, _, rfl, ho⟩
    rw [List.cons_append, heq] at hp
    rw [kindAhead_of_ahead hp, ho]
    exact hread
  · rw [hkind]
    split <;> first | exact hread | exact absurd ‹_› hvar | (rename_i hk; rw [hk] at ht; cases ht)

theorem readsStmt_of_all (hall : ∀ s ∈ body, ∀ ts toplevel, s.Prints ts → ReadsStmt toplevel s ts)
    (h : List.Forall₂ Stmt.Prints body parts) : List.Forall₂ (ReadsStmt false) body parts :=
  ((List.forall₂_and_left _ _).mpr ⟨hall, h⟩).imp fun _ ts hs => hs.1 ts false hs.2

/-- Every statement is read as it was printed. -/
theorem readsStmt (s : Stmt) : ∀ (ts : List Token) (toplevel : Bool), s.Prints ts →
    ReadsStmt toplevel s ts := by
  induction s
  case function => exact nofun
  all_goals
    intro ts toplevel h
    refine ⟨h.head, fun p t rest fuel hp ht hfuel => ?_⟩
    obtain ⟨fuel, rfl⟩ := exists_fuel hfuel
  case assign target value =>
    cases h with
    | @assign _ _ v a s ts hv ha h hs =>
      simp only [List.cons_append, List.append_assoc, List.nil_append] at hp
      unfold statement
      refine .get ?_
      rw [kind_of_ahead hp, hv.1]
      unfold varStmt
      refine .get ?_
      rw [kindAhead_of_ahead hp, ha]
      exact finds_assignment hv ha h hs hp
  case expr value =>
    cases h with
    | @expr _ s ts h hs =>
      rw [List.append_assoc, List.singleton_append] at hp
      exact finds_statement_expr toplevel h hs hp
  all_goals
    unfold statement
    refine .get ?_
  case ret value =>
    cases h with
    | retNone hk hs =>
      rw [kind_of_ahead hp, hk]
      exact finds_returnStmt_none hk hs hp
    | @ret _ k s ts hk h hs =>
      simp only [List.cons_append, List.append_assoc, List.nil_append] at hp
      rw [kind_of_ahead hp, hk]
      exact finds_returnStmt hk h hs hp
  case block body ih =>
    cases h with
    | empty hs =>
      rw [kind_of_ahead hp, hs]
      refine .advance hp (by rw [hs]; decide) fun hp => .pushed _ hp ⟨?_, size_grow ..⟩
      exact .inr ⟨rfl, node_grow .., by simp, Nat.le_refl p.arena.size⟩
    | block hl h hr =>
      simp only [List.cons_append, List.append_assoc, List.nil_append] at hp
      rw [kind_of_ahead hp, hl]
      exact finds_block hl (readsStmt_of_all ih h) hr hp (by omega)
  case ifElse cond thenBody elseBody iht ihe =>
    cases h with
    | ifThen hk ho hcond hc hl h hr =>
      simp only [List.cons_append, List.append_assoc, List.nil_append] at hp
      rw [kind_of_ahead hp, hk]
      refine finds_ifElseWith_none ho hcond hc hp (fun q hq hlt => ?_) hk rfl ht
      exact finds_body hl (readsStmt_of_all iht h) hr hq (by omega)
    | @ifElse _ _ _ _ _ _ _ _ _ l' r' _ _ parts' hk ho hcond hc hl h hr hk' hl' h' hr' =>
      simp only [List.cons_append, List.append_assoc, List.nil_append] at hp
      rw [kind_of_ahead hp, hk]
      refine finds_ifElseWith ho hcond hc hp (fun q hq hlt => ?_)
        (l' :: (parts'.flatten ++ r' :: t :: rest)) hk rfl hk' (by simp; omega) fun q hq hlt => ?_
      · exact finds_body hl (readsStmt_of_all iht h) hr hq (by omega)
      · exact finds_body hl' (readsStmt_of_all (ihe _ rfl) h') hr' hq (by omega)
  case whileLoop cond body ih =>
    cases h with
    | whileLoop hk ho hcond hc hl h hr =>
      simp only [List.cons_append, List.append_assoc, List.nil_append] at hp
      rw [kind_of_ahead hp, hk]
      refine finds_whileLoopWith ho hcond hc hp (fun q hq hlt => ?_) hk
      exact finds_body hl (readsStmt_of_all ih h) hr hq (by omega)

/-- A statement of the top level. -/
theorem readsStmt_top (h : s.PrintsTop ts) : ReadsStmt true s ts := by
  refine ⟨h.head, ?_⟩
  cases h with
  | stmt h => exact (readsStmt s ts true h).finds
  | function hk hf ho hparams hc hdeclared hl h hr =>
    intro p t rest fuel hp ht hfuel
    simp only [List.cons_append, List.append_assoc, List.nil_append] at hp
    obtain ⟨fuel, rfl⟩ := exists_fuel hfuel
    unfold statement
    refine .get ?_
    rw [kind_of_ahead hp, hk]
    refine finds_functionWith hk hf ho hparams hc hdeclared hl hp fun q hq hlt => ?_
    exact finds_block hl (readsStmt_of_all (fun s _ => readsStmt s) h) hr hq (by omega)

end Parser

/-! ## Programs -/

theorem Stmt.PrintsTop.firstCallee (h : s.PrintsTop (f :: us)) (hf : f.kind = .identifier) :
    s.firstCallee = some f.lexeme := by
  generalize hts : f :: us = ts at h
  cases h with
  | function hk =>
    obtain ⟨rfl, _⟩ := List.cons.inj hts
    exact absurd (hf.symm.trans hk) (by decide)
  | stmt h =>
    cases h with
    | expr h =>
      obtain ⟨t, vs, rfl, _⟩ := h.head
      obtain ⟨rfl, _⟩ := List.cons.inj hts
      exact h.front.2 hf
    | assign hv =>
      obtain ⟨rfl, _⟩ := List.cons.inj hts
      exact absurd (hf.symm.trans hv.1) (by decide)
    | retNone hk | ret hk | empty hk | block hk | ifThen hk | ifElse hk | whileLoop hk =>
      obtain ⟨rfl, _⟩ := List.cons.inj hts
      exact absurd (hf.symm.trans hk) (by decide)

namespace Parser

theorem finds_prologue {p : Parser} {t : Token} {rest : List Token} (hp : p.ahead = t :: rest)
    (ht : t.kind = .identifier → t.lexeme ≠ "declare") :
    p.Finds prologue (t :: rest) fun _ p' => p'.arena = p.arena := by
  unfold prologue
  refine .get ?_
  rw [if_neg ?_]
  · exact .pure hp rfl
  · rintro ⟨hk, hlexeme⟩
    rw [current?_of_ahead hp] at hlexeme
    exact ht ((kind_of_ahead hp).symm.trans hk) (Option.some.inj hlexeme)

/-- A printed program does not start with the word of a prologue, unless it calls it. -/
theorem prologue_absent {e : Token} (h : List.Forall₂ Stmt.PrintsTop body parts)
    (he : e.kind = .eof) (hfirst : body.head?.bind Stmt.firstCallee ≠ some "declare") :
    ∃ t rest, parts.flatten ++ [e] = t :: rest ∧ (t.kind = .identifier → t.lexeme ≠ "declare") := by
  cases h with
  | nil => exact ⟨e, [], rfl, fun hk => absurd (hk.symm.trans he) (by decide)⟩
  | cons h _ =>
    obtain ⟨t, us, rfl, _⟩ := h.head
    refine ⟨t, _, rfl, fun hk hlexeme => hfirst ?_⟩
    rw [List.head?_cons, Option.bind_some, h.firstCallee hk, hlexeme]

theorem parse_printed {tokens : List Token} (h : PrintsProgram body tokens)
    (hfirst : body.head?.bind Stmt.firstCallee ≠ some "declare") :
    ∃ program p', parse (ofTokens tokens) = .ok program p' ∧ program.Holds body := by
  cases h with
  | @mk o e parts ho hbody he =>
    obtain ⟨t, rest, hopen, ht⟩ := prologue_absent hbody he hfirst
    have hfront : (ofTokens (o :: (parts.flatten ++ [e]))).Finds front [e]
        fun root q => ListAt q.arena body none 0 root := by
      unfold front
      refine .expect rfl ho (by decide) fun hp => ?_
      refine (finds_prologue (hp.trans hopen) ht).bind fun _ p1 h1 ha1 => .get ?_
      rw [← hopen] at h1
      have hfuel := ahead_length_le p1
      refine (finds_statements (hbody.imp fun _ _ h => readsStmt_top h) h1.ahead
        (by rw [he]; rfl) (by omega) (by simp)).imp ?_
      rintro root p2 _ ⟨hlist, _⟩
      rwa [show p1.arena.size = 0 by rw [ha1]; rfl] at hlist
    obtain ⟨root, q, hrun, hleaves, hlist⟩ := hfront
    have hback : q.Finds back [e] fun _ q' => q'.arena = q.arena := by
      unfold back
      refine .accept_not hleaves.ahead (by rw [he]; decide) ?_
      exact .expect_eof hleaves.ahead he fun _ => .pure hleaves.ahead rfl
    obtain ⟨_, q', hrun', _, ha⟩ := hback
    refine ⟨⟨q'.arena, root⟩, { q' with arena := .empty }, ?_, ?_⟩
    · rw [parse_eq]
      exact bind_eq_ok.mpr ⟨root, q, hrun, bind_eq_ok.mpr ⟨(), q', hrun', rfl⟩⟩
    · show ListAt q'.arena body none 0 root
      rwa [ha]

end Parser

/-- A program that was printed is read as it was, unless it starts with a call of `declare`.  With
that name the directive starts that may stand before the statements. -/
theorem parseTokens_printed {body : List Stmt} {tokens : List Token}
    (h : PrintsProgram body tokens) (hfirst : body.head?.bind Stmt.firstCallee ≠ some "declare") :
    ∃ program, parseTokens tokens = .ok program ∧ program.tree? = some body := by
  obtain ⟨program, p', hrun, hholds⟩ := Parser.parse_printed h hfirst
  refine ⟨program, ?_, hholds.tree?_eq⟩
  unfold parseTokens
  rw [show Parser.parse.run (Parser.ofTokens tokens) = .ok program p' from hrun]

/-- A function that uses its parameter twice, and a loop that holds an empty statement. -/
def printedBody : List Stmt :=
  [.function "f" [⟨"$n", Ty.int.nullable⟩] (some .int)
    [.ret (some (.binary .mul (.binary .add (.var "$n") (.constant (.int 1)))
      (.unary .negate (.var "$n"))))],
   .whileLoop (.binary .or (.var "$x") (.binary .sub (.var "$x") (.call "f" [.var "$x"])))
    [.block [], .ifElse (.var "$x") [] (some [.expr (.call "f" [])])]]

/-- The product that the function returns; only the sum stands in parentheses. -/
def productTokens : List Token :=
  [⟨.openParen, "(", 1⟩, ⟨.varName, "$n", 1⟩, ⟨.plus, "+", 1⟩, ⟨.intLiteral, "01", 1⟩,
   ⟨.closeParen, ")", 1⟩, ⟨.star, "*", 1⟩, ⟨.minus, "-", 1⟩, ⟨.varName, "$n", 1⟩]

/-- The parameter of the function. -/
def paramTokens : List Token := [⟨.question, "?", 1⟩, ⟨.kwInt, "int", 1⟩, ⟨.varName, "$n", 1⟩]

/-- The function. -/
def functionTokens : List Token :=
  [⟨.kwFunction, "function", 1⟩, ⟨.identifier, "f", 1⟩, ⟨.openParen, "(", 1⟩] ++ paramTokens ++
  [⟨.closeParen, ")", 1⟩, ⟨.colon, ":", 1⟩, ⟨.kwInt, "int", 1⟩, ⟨.openBrace, "\x7b", 1⟩,
   ⟨.kwReturn, "return", 1⟩] ++ productTokens ++ [⟨.semicolon, ";", 1⟩, ⟨.closeBrace, "\x7d", 1⟩]

/-- The right side of the condition of the loop. -/
def differenceTokens : List Token :=
  [⟨.varName, "$x", 2⟩, ⟨.minus, "-", 2⟩, ⟨.identifier, "f", 2⟩, ⟨.openParen, "(", 2⟩,
   ⟨.varName, "$x", 2⟩, ⟨.closeParen, ")", 2⟩]

/-- The condition of the loop. -/
def conditionTokens : List Token := ⟨.varName, "$x", 2⟩ :: ⟨.orOr, "||", 2⟩ :: differenceTokens

/-- The alternative inside the loop, with an empty first branch. -/
def branchTokens : List Token :=
  [⟨.kwIf, "if", 2⟩, ⟨.openParen, "(", 2⟩, ⟨.varName, "$x", 2⟩, ⟨.closeParen, ")", 2⟩,
   ⟨.openBrace, "\x7b", 2⟩, ⟨.closeBrace, "\x7d", 2⟩, ⟨.kwElse, "else", 2⟩, ⟨.openBrace, "\x7b", 2⟩,
   ⟨.identifier, "f", 2⟩, ⟨.openParen, "(", 2⟩, ⟨.closeParen, ")", 2⟩, ⟨.semicolon, ";", 2⟩,
   ⟨.closeBrace, "\x7d", 2⟩]

/-- The loop. -/
def loopTokens : List Token :=
  [⟨.kwWhile, "while", 2⟩, ⟨.openParen, "(", 2⟩] ++ conditionTokens ++
  [⟨.closeParen, ")", 2⟩, ⟨.openBrace, "\x7b", 2⟩, ⟨.semicolon, ";", 2⟩] ++ branchTokens ++
  [⟨.closeBrace, "\x7d", 2⟩]

/-- The tokens of `printedBody`. -/
def printedTokens : List Token :=
  ⟨.openTag, "<?php", 1⟩ :: (functionTokens ++ loopTokens ++ [⟨.eof, "", 2⟩])

theorem prints_function : Stmt.PrintsTop printedBody[0] functionTokens := by
  have hn : Expr.Prints (.var "$n") [⟨.varName, "$n", 1⟩] := .var ⟨rfl, rfl⟩
  have hone : Expr.Prints (.constant (.int 1)) [⟨.intLiteral, "01", 1⟩] := .constant ⟨rfl, by decide⟩
  have hsum : Expr.Prints (.binary .add (.var "$n") (.constant (.int 1)))
      [⟨.varName, "$n", 1⟩, ⟨.plus, "+", 1⟩, ⟨.intLiteral, "01", 1⟩] :=
    .binary (.bare (by decide) hn) rfl (.bare (by decide) hone)
  have hsum' : Expr.PrintsOperand BinOp.mul.level (.binary .add (.var "$n") (.constant (.int 1)))
      [⟨.openParen, "(", 1⟩, ⟨.varName, "$n", 1⟩, ⟨.plus, "+", 1⟩, ⟨.intLiteral, "01", 1⟩,
        ⟨.closeParen, ")", 1⟩] :=
    .parens (by decide) rfl hsum rfl
  have hnegate : Expr.Prints (.unary .negate (.var "$n")) [⟨.minus, "-", 1⟩, ⟨.varName, "$n", 1⟩] :=
    .unary rfl (.bare (by decide) hn)
  have hproduct : Expr.Prints _ productTokens := .binary hsum' rfl (.bare (by decide) hnegate)
  have hreturn : Stmt.Prints (.ret (some _))
      (⟨.kwReturn, "return", 1⟩ :: (productTokens ++ [⟨.semicolon, ";", 1⟩])) :=
    .ret rfl hproduct rfl
  have hparams : PrintsParams [⟨"$n", Ty.int.nullable⟩] paramTokens :=
    .cons (@Param.Prints.typed "$n" _ ⟨.varName, "$n", 1⟩ [⟨.question, "?", 1⟩, ⟨.kwInt, "int", 1⟩]
      (.nullable rfl (by decide)) ⟨rfl, rfl⟩) .nil
  have hdeclared : PrintsReturn (some .int) [⟨.colon, ":", 1⟩, ⟨.kwInt, "int", 1⟩] :=
    .some rfl (.named (by decide))
  have hname : Token.Spells ⟨.identifier, "f", 1⟩ .identifier "f" := ⟨rfl, rfl⟩
  exact .function rfl hname rfl hparams rfl hdeclared rfl (.cons hreturn .nil) rfl

theorem prints_loop : Stmt.PrintsTop printedBody[1] loopTokens := by
  have hx : Expr.Prints (.var "$x") [⟨.varName, "$x", 2⟩] := .var ⟨rfl, rfl⟩
  have hf : Token.Spells ⟨.identifier, "f", 2⟩ .identifier "f" := ⟨rfl, rfl⟩
  have hcall : Expr.Prints (.call "f" [.var "$x"])
      [⟨.identifier, "f", 2⟩, ⟨.openParen, "(", 2⟩, ⟨.varName, "$x", 2⟩, ⟨.closeParen, ")", 2⟩] :=
    .call hf rfl hx .nil rfl
  have hdifference : Expr.Prints (.binary .sub (.var "$x") (.call "f" [.var "$x"])) differenceTokens :=
    .binary (.bare (by decide) hx) rfl (.bare (by decide) hcall)
  have hor : Expr.Prints (.binary .or (.var "$x") _) conditionTokens :=
    .binary (.bare (by decide) hx) rfl (.bare (by decide) hdifference)
  have hempty : Stmt.Prints (.block []) [⟨.semicolon, ";", 2⟩] := .empty rfl
  have hstmt : Stmt.Prints (.expr (.call "f" []))
      [⟨.identifier, "f", 2⟩, ⟨.openParen, "(", 2⟩, ⟨.closeParen, ")", 2⟩, ⟨.semicolon, ";", 2⟩] :=
    .expr (.callNone hf rfl rfl) rfl
  have hif : Stmt.Prints (.ifElse (.var "$x") [] (some [.expr (.call "f" [])])) branchTokens :=
    .ifElse rfl rfl hx rfl rfl .nil rfl rfl rfl (.cons hstmt .nil) rfl
  exact .stmt (.whileLoop rfl rfl hor rfl rfl (.cons hempty (.cons hif .nil)) rfl)

theorem printsProgram_printedTokens : PrintsProgram printedBody printedTokens :=
  .mk rfl (.cons prints_function (.cons prints_loop .nil)) rfl

theorem parseTokens_printed_sample : PrintsProgram printedBody printedTokens ∧
    ∃ program, parseTokens printedTokens = .ok program ∧ program.tree? = some printedBody :=
  ⟨printsProgram_printedTokens, parseTokens_printed printsProgram_printedTokens (by decide)⟩

end Ifj22
