import Ifj22.Proofs.Parser.Written
import Ifj22.Proofs.Tree.Form
set_option autoImplicit false

/-!
# Parser: what reading a program does

A token list that ends with the end of the text is refused for a fault of the text, or it spells a
program: its arena holds a statement list over the names of the tokens, with functions at the top
level only, and no place of the arena is left out.

Two measures go along.  The recursion is bounded by the tokens that are left, so it never exhausts its
bound.  The arena is paid by the tokens that are passed, at most two places for each, which bounds the
tree by the length of the text.
-/

namespace Ifj22

variable {V : Vocabulary}

/-! ## Names -/

/-- The names of a token are in the vocabulary. -/
def Token.Speaks (V : Vocabulary) (t : Token) : Prop :=
  (t.kind = .identifier → ∀ n, V.callee t.lexeme n) ∧ (t.kind = .varName → V.var t.lexeme)

/-- A program whose names are all in one vocabulary. -/
def Lexicon.over (V : Vocabulary) : Lexicon where
  toplevel := V
  head name params declared :=
    (∀ n, V.callee name n) ∧ (∀ param ∈ params, V.var param.name ∧ param.ty.IsValue) ∧
      ∀ ty, declared = some ty → ty = .void ∨ ty.IsValue
  inside _ := V

theorem Stmt.OverTop.spelled {s : Stmt} (h : s.OverTop (.over .spelled)) : s.OverTop .spelled := by
  cases h with
  | stmt h => exact .stmt h
  | function hh hb => exact .function ⟨hh.1 0, hh.2⟩ hb

mutual

/-- An expression has the names of the tokens that are written for it. -/
theorem Expr.Written.over : ∀ {e : Expr} {w : Bool} {ts : List Token}, e.Written w ts →
    (∀ t ∈ ts, t.Speaks V) → e.Over V
  | .constant c, _, _, .constant _, _ => .constant c
  | .var _, _, _, .var h, hts => .var (h.2 ▸ (hts _ (by simp)).2 h.1)
  | .binary _ _ _, _, _, .binary hl _ hr _ _, hts =>
    .binary (hl.over fun t ht => hts t (by simp [ht])) (hr.over fun t ht => hts t (by simp [ht]))
  | .unary _ _, _, _, .unary _ h _, hts => .unary (h.over fun t ht => hts t (by simp [ht]))
  | .call _ _, _, _, .call hf _ h _, hts =>
    .call (hf.2 ▸ (hts _ (by simp)).1 hf.1 _) (h.over fun t ht => hts t (by simp [ht]))
  | _, _, _, .parens _ h _, hts => h.over fun t ht => hts t (by simp [ht])

theorem WrittenArgs.over : ∀ {args : List Expr} {ts : List Token}, WrittenArgs args ts →
    (∀ t ∈ ts, t.Speaks V) → ∀ e ∈ args, e.Over V
  | [], _, .nil, _ => by simp
  | _ :: _, _, .cons h hmore, hts =>
    List.forall_mem_cons.mpr ⟨h.over fun t ht => hts t (by simp [ht]),
      hmore.over fun t ht => hts t (by simp [ht])⟩

theorem WrittenMore.over : ∀ {args : List Expr} {ts : List Token}, WrittenMore args ts →
    (∀ t ∈ ts, t.Speaks V) → ∀ e ∈ args, e.Over V
  | [], _, .nil, _ => by simp
  | _ :: _, _, .cons _ h hmore, hts =>
    List.forall_mem_cons.mpr ⟨h.over fun t ht => hts t (by simp [ht]),
      hmore.over fun t ht => hts t (by simp [ht])⟩

end

mutual

/-- Two places for each token pay for an expression, and for one place more. -/
theorem Expr.Written.size_lt : ∀ {e : Expr} {w : Bool} {ts : List Token}, e.Written w ts →
    e.size < 2 * ts.length
  | .constant _, _, _, .constant _ => by simp [Expr.size]
  | .var _, _, _, .var _ => by simp [Expr.size]
  | .binary _ _ _, _, _, .binary hl _ hr _ _ => by
    have := hl.size_lt
    have := hr.size_lt
    simp only [Expr.size, List.length_append, List.length_cons]
    omega
  | .unary _ _, _, _, .unary _ h _ => by
    have := h.size_lt
    simp only [Expr.size, List.length_cons]
    omega
  | .call _ _, _, _, .call _ _ h _ => by
    have := h.size_le
    simp only [Expr.size, List.length_cons, List.length_append, List.length_nil]
    omega
  | _, _, _, .parens _ h _ => by
    have := h.size_lt
    simp only [List.length_cons, List.length_append, List.length_nil]
    omega

theorem WrittenArgs.size_le : ∀ {args : List Expr} {ts : List Token}, WrittenArgs args ts →
    argsSize args ≤ 2 * ts.length
  | [], _, .nil => Nat.le_refl _
  | _ :: _, _, .cons h hmore => by
    have := h.size_lt
    have := hmore.size_le
    simp only [argsSize, List.length_append]
    omega

theorem WrittenMore.size_le : ∀ {args : List Expr} {ts : List Token}, WrittenMore args ts →
    argsSize args ≤ 2 * ts.length
  | [], _, .nil => Nat.le_refl _
  | _ :: _, _, .cons _ h hmore => by
    have := h.size_lt
    have := hmore.size_le
    simp only [argsSize, List.length_cons, List.length_append]
    omega

end

namespace Parser

variable {p p' : Parser}

/-- The tokens end with the end of the text, and their names are in the vocabulary. -/
def Good (V : Vocabulary) (p : Parser) : Prop := p.Ends ∧ ∀ t ∈ p.tokens.toList, t.Speaks V

theorem Passes.good {ts : List Token} (h : p.Passes ts p') (hp : p.Good V) : p'.Good V := by
  unfold Good Ends
  rw [h.tokens]
  exact hp

theorem Good.speaks {t : Token} (hp : p.Good V) (h : p.Next t) : t.Speaks V :=
  hp.2 t (List.mem_of_mem_drop (h ▸ (.head _) : t ∈ p.ahead))

/-- The statements of a list: functions stand at the top level only. -/
def Admits (V : Vocabulary) (toplevel : Bool) (s : Stmt) : Prop :=
  if toplevel then s.OverTop (.over V) else s.Over V

theorem Admits.of_over {s : Stmt} (h : s.Over V) (toplevel : Bool) : Admits V toplevel s := by
  cases toplevel with
  | false => exact h
  | true => exact .stmt h

/-! ## What is read -/

/-- An expression of less than `limit` places fills the arena from the end of the parser's arena
on. -/
def Yields (V : Vocabulary) (p : Parser) (limit id : Nat) (p' : Parser) : Prop :=
  ∃ e : Expr, e.At p'.arena p.arena.size id ∧ p'.arena.EndsAt p.arena.size id e.size ∧ e.Over V ∧
    e.size < limit

/-- A statement fills the arena from the end of the parser's arena on. -/
def YieldsStmt (V : Vocabulary) (p : Parser) (toplevel : Bool) (ts : List Token) (id : Nat)
    (p' : Parser) : Prop :=
  ∃ s : Stmt, s.At p'.arena p.arena.size id ∧ p'.arena.EndsAt p.arena.size id s.size ∧
    Admits V toplevel s ∧ s.size < 2 * ts.length

/-- A statement list fills the arena from the end of the parser's arena on; the tokens pay for it and
for `k` more places. -/
def YieldsBody (V : Vocabulary) (p : Parser) (k : Nat) (ts : List Token) (id : Nat) (p' : Parser) :
    Prop :=
  ∃ body : List Stmt, ListAt p'.arena body none p.arena.size id ∧
    p'.arena.EndsAt p.arena.size id (max 1 (linksSize body)) ∧ (∀ s ∈ body, s.Over V) ∧
    max 1 (linksSize body) + k ≤ 2 * ts.length

/-- The body of a statement that the parser stands in front of. -/
def ReadsBody (V : Vocabulary) (p : Parser) (body : Parse NodeId) : Prop :=
  ∀ q : Parser, q.Good V → q.ahead.length < p.ahead.length → q.Takes body (q.YieldsBody V 0)

theorem takes_yields (hp : p.Good V) : p.Takes expr fun ts => p.Yields V (2 * ts.length) := by
  refine (takes_expr hp.1).imp ?_
  rintro ts id p1 h1 ⟨⟨e, w, hwritten, ⟨he, hends⟩, _⟩, _⟩
  exact ⟨e, he, hends, hwritten.over fun t ht => hp.2 t (h1.mem ht), hwritten.size_lt⟩

/-! ## Assignments -/

/-- The value of an assignment may take places for the target and for a number that has no token. -/
theorem takes_assignedValue (hp : p.Good V) {target : String} (ht : V.var target)
    (form : AssignForm) :
    p.Takes (assignedValue target form) fun ts => p.Yields V (2 * ts.length + 4) := by
  have hvar : (Expr.var target).At (p.grow (.var target)).arena p.arena.size p.arena.size :=
    ⟨p.node_grow _, Nat.le_refl _⟩
  cases form with
  | plain =>
    refine (takes_yields hp).imp ?_
    rintro ts id p1 _ ⟨e, he, hends, hov, hsize⟩
    exact ⟨e, he, hends, hov, by omega⟩
  | compound op =>
    refine .push _ ((takes_yields (p := p.grow _) hp).bind ?_)
    rintro ts j p1 h1 ⟨e, he, ⟨hs, hc⟩, hov, hsize⟩
    have hgrow := (Onward.grow p1 (.binary op p.arena.size j)).arena
    refine .pushed _ ⟨.binary op (.var target) e, ⟨p.arena.size, j, p1.node_grow _, ?_, ?_, ?_⟩,
      ⟨size_grow .., ?_⟩, .binary (.var ht) hov, ?_⟩
    · exact (h1.arena.trans hgrow).exprAt hvar
    · exact hgrow.exprAt (size_grow p _ ▸ he)
    · omega
    · simp only [size_grow, Expr.size] at *
      omega
    · simp only [Expr.size, List.append_nil]
      omega
  | step op =>
    refine .push _ (.push _ (.pushed _ ?_))
    have hone := (Onward.grow (p.grow (.var target)) (.int 1)).arena
    have hgrow := (Onward.grow ((p.grow (.var target)).grow (.int 1))
      (.binary op p.arena.size (p.grow (.var target)).arena.size)).arena
    refine ⟨.binary op (.var target) (.constant (.int 1)), ⟨p.arena.size, _, node_grow .., ?_, ?_, ?_⟩,
      ⟨size_grow .., ?_⟩, .binary (.var ht) (.constant _), Nat.le_add_left _ _⟩
    · exact (hone.trans hgrow).exprAt hvar
    · exact hgrow.exprAt ⟨node_grow .., Nat.le_of_eq (size_grow ..).symm⟩
    · exact Nat.lt_of_succ_le (Nat.le_of_eq (size_grow ..).symm)
    · simp [Expr.size]

theorem kind_skip (h : p.kindAhead ≠ .eof) : p.skip.kind = p.kindAhead := by
  unfold kindAhead at *
  cases hget : p.tokens[p.index + 1]? with
  | none =>
    rw [hget] at h
    exact absurd rfl h
  | some t =>
    obtain ⟨hlt, _⟩ := Array.getElem?_eq_some_iff.mp hget
    show (p.tokens[min (p.index + 1) (p.tokens.size - 1)]?.map (·.kind)).getD .eof = _
    rw [show min (p.index + 1) (p.tokens.size - 1) = p.index + 1 by omega, hget]

theorem takes_assignment (hp : p.Good V) {form : AssignForm}
    (hform : p.kindAhead.assignForm? = some form) (toplevel : Bool) :
    p.Takes (assignment form) (p.YieldsStmt V toplevel) := by
  have hahead : p.kindAhead ≠ .eof := by
    intro heof
    rw [heof] at hform
    cases hform
  unfold assignment
  refine .expect hp.1 (by decide) fun v hv hvk => ?_
  have hvar := (hp.speaks hv).2 hvk
  refine .advance (p := p.skip) hp.1 (by rwa [kind_skip hahead]) fun o _ => ?_
  refine (takes_assignedValue (p := p.skip.skip) hp hvar form).bind ?_
  rintro ts i p1 h1 ⟨e, he, ⟨hs, hc⟩, hov, hsize⟩
  refine .expect (h1.good hp).1 (by decide) fun s _ _ => .pushed _ ?_
  refine ⟨.assign v.lexeme e, ⟨i, node_grow .., ?_, ?_⟩, ⟨size_grow .., ?_⟩,
    .of_over (.assign hvar hov) _, ?_⟩
  · exact (Onward.grow p1.skip _).arena.exprAt he
  · exact Nat.lt_of_succ_le (Nat.le_of_eq hs.symm)
  · simp only [size_grow, arena_skip, Stmt.size] at *
    omega
  · simp only [Stmt.size, List.length_cons, List.length_append, List.length_nil]
    omega

/-! ## Signatures of functions -/

theorem isValue_namedTy? {kind : TokenKind} {ty : Ty} (h : namedTy? kind = some ty) :
    kind ≠ .eof ∧ ty.IsValue ∧ ty.nullable.IsValue := by
  unfold namedTy? at h
  split at h <;> cases h <;> exact ⟨by decide, ⟨by decide, by decide⟩, by decide, by decide⟩

theorem takes_optionalTy (hp : p.Ends) :
    p.Takes optionalTy fun _ ty? p' => p'.arena = p.arena ∧ ∀ ty, ty? = some ty → ty.IsValue := by
  unfold optionalTy
  refine .accept hp (by decide) (fun t _ _ => .get ?_) (.get ?_)
  · cases hty : namedTy? p.skip.kind with
    | none => exact .failExpecting _
    | some ty =>
      obtain ⟨hk, _, hnullable⟩ := isValue_namedTy? hty
      refine .advance hp hk fun t _ => .pure ⟨rfl, ?_⟩
      rintro _ ⟨⟩
      exact hnullable
  · cases hty : namedTy? p.kind with
    | none => exact .pure ⟨rfl, nofun⟩
    | some ty =>
      obtain ⟨hk, hplain, _⟩ := isValue_namedTy? hty
      refine .advance hp hk fun t _ => .pure ⟨rfl, ?_⟩
      rintro _ ⟨⟩
      exact hplain

theorem takes_returnTy (hp : p.Ends) :
    p.Takes returnTy fun _ ty p' => p'.arena = p.arena ∧ (ty = .void ∨ ty.IsValue) := by
  unfold returnTy
  refine .accept hp (by decide) (fun t _ _ => .pure ⟨rfl, .inl rfl⟩) ?_
  refine (takes_optionalTy hp).bind ?_
  rintro _ ty p1 _ ⟨ha, hty⟩
  cases ty with
  | none => exact .failExpecting _
  | some ty => exact .pure ⟨ha, .inr (hty ty rfl)⟩

/-- The parameter's name is in the vocabulary, and it has the type of a value. -/
def IsParam (V : Vocabulary) (param : Param) : Prop := V.var param.name ∧ param.ty.IsValue

theorem takes_param (hp : p.Good V) :
    p.Takes param fun _ param p' => p'.arena = p.arena ∧ IsParam V param := by
  unfold param
  refine (takes_optionalTy hp.1).bind ?_
  rintro _ ty p1 h1 ⟨ha, hty⟩
  have hp1 := h1.good hp
  refine .expect hp1.1 (by decide) fun v hv hvk => .pure ⟨ha, (hp1.speaks hv).2 hvk, ?_⟩
  cases ty with
  | none =>
    show Ty.any.IsValue
    exact ⟨by decide, by decide⟩
  | some ty => exact hty ty rfl

theorem takes_moreParams : ∀ (fuel : Nat) {p : Parser}, p.Good V → p.ahead.length < fuel →
    p.Takes (moreParams fuel) fun _ params p' =>
      p'.arena = p.arena ∧ ∀ param ∈ params, IsParam V param := by
  intro fuel
  induction fuel with
  | zero => exact fun _ hfuel => absurd hfuel (Nat.not_lt_zero _)
  | succ fuel ih =>
    intro p hp hfuel
    unfold moreParams
    refine .accept hp.1 (by decide) (fun c hc _ => ?_) (.pure ⟨rfl, by simp⟩)
    have hc := hc.length
    refine (takes_param (p := p.skip) hp).bind ?_
    rintro _ first p1 h1 ⟨ha1, hfirst⟩
    have hl1 := h1.length
    refine (ih (h1.good hp) (by omega)).bind ?_
    rintro _ others p2 _ ⟨ha2, hothers⟩
    exact .pure ⟨ha2.trans ha1, List.forall_mem_cons.mpr ⟨hfirst, hothers⟩⟩

theorem takes_paramList (hp : p.Good V) :
    p.Takes paramList fun _ params p' =>
      p'.arena = p.arena ∧ ∀ param ∈ params, IsParam V param := by
  unfold paramList
  refine .expect hp.1 (by decide) fun o _ _ => ?_
  refine .accept hp.1 (by decide) (fun c _ _ => .pure ⟨rfl, by simp⟩) ?_
  refine (takes_param (p := p.skip) hp).bind ?_
  rintro _ first p1 h1 ⟨ha1, hfirst⟩
  have hp1 := h1.good hp
  refine .get ((takes_moreParams _ hp1 (Nat.lt_succ_of_le p1.ahead_length_le)).bind ?_)
  rintro _ others p2 h2 ⟨ha2, hothers⟩
  refine .expect (h2.good hp1).1 (by decide) fun c _ _ => .pure ?_
  exact ⟨ha2.trans ha1, List.forall_mem_cons.mpr ⟨hfirst, hothers⟩⟩

theorem takes_functionWith (hp : p.Good V) {block : Parse NodeId} (hblock : p.ReadsBody V block) :
    p.Takes (functionWith block) (p.YieldsStmt V true) := by
  unfold functionWith
  refine .expect hp.1 (by decide) fun k hk _ => ?_
  refine .expect (p := p.skip) hp.1 (by decide) fun f hf hfk => ?_
  have hname := (Good.speaks (p := p.skip) hp hf).1 hfk
  have hk := hk.length
  have hf := hf.length
  refine (takes_paramList (p := p.skip.skip) hp).bind ?_
  rintro ts params p1 h1 ⟨ha1, hparams⟩
  have hp1 := h1.good hp
  have hl1 := h1.length
  -- the return type changes no place of the arena, so the body is read alike with and without it
  have hbody (declared : Option Ty) (q : Parser) (vs : List Token) (hq : p1.Passes vs q)
      (hqa : q.arena = p.arena) (hdeclared : ∀ ty, declared = some ty → ty = .void ∨ ty.IsValue) :
      q.Takes (block >>= fun inner => push (.function f.lexeme params declared inner))
        fun us => p.YieldsStmt V true (k :: f :: (ts ++ (vs ++ us))) := by
    have hlq := hq.length
    refine (hblock q (hq.good hp1) (by omega)).bind ?_
    rintro us i p2 _ ⟨body, hb, ⟨hs, hc⟩, hov, hsize⟩
    rw [hqa] at hb hc
    refine .pushed _ ⟨.function f.lexeme params declared body, ⟨i, node_grow .., ?_, by omega⟩,
      ⟨size_grow .., ?_⟩, .function ⟨hname, hparams, hdeclared⟩ hov, ?_⟩
    · exact (Onward.grow p2 _).arena.listAt hb
    · simp only [size_grow, Stmt.size]
      omega
    · simp only [Stmt.size, List.length_cons, List.length_append]
      omega
  refine .accept hp1.1 (by decide) (fun c hc hck => ?_) (hbody none p1 [] (.refl p1) ha1 ?_)
  · refine (takes_returnTy (p := p1.skip) hp1.1).bind ?_
    rintro us ty p2 h2 ⟨ha2, hty⟩
    have hpass := (Passes.skip hc (by rw [hck]; decide)).trans h2
    refine hbody (some ty) p2 _ hpass (ha2.trans ha1) fun ty' hty' => ?_
    rwa [← Option.some.inj hty']
  · exact fun _ h => by cases h

/-! ## Statements -/

/-- The parentheses of a condition pay for four more places. -/
theorem takes_condition (hp : p.Good V) :
    p.Takes condition fun ts => p.Yields V (2 * ts.length - 4) := by
  unfold condition
  refine .expect hp.1 (by decide) fun o _ _ => (takes_yields (p := p.skip) hp).bind ?_
  rintro ts id p1 h1 ⟨e, he, hends, hov, hsize⟩
  refine .expect (h1.good hp).1 (by decide) fun c _ _ => .pure ⟨e, he, hends, hov, ?_⟩
  simp only [List.length_cons, List.length_append, List.length_nil]
  omega

theorem takes_ifElseWith (hp : p.Good V) {body : Parse NodeId} (hbody : p.ReadsBody V body)
    (toplevel : Bool) : p.Takes (ifElseWith body) (p.YieldsStmt V toplevel) := by
  unfold ifElseWith
  refine .expect hp.1 (by decide) fun k hk _ => ?_
  have hk := hk.length
  refine (takes_condition (p := p.skip) hp).bind ?_
  rintro ts c p1 h1 ⟨e, he, ⟨hs1, hc1⟩, hov, hsize⟩
  have hp1 := h1.good hp
  have hl1 := h1.length
  refine (hbody p1 hp1 (by omega)).bind ?_
  rintro us i p2 h2 ⟨body1, hb1, ⟨hs2, hc2⟩, hov1, hsize1⟩
  have hp2 := h2.good hp1
  have hl2 := h2.length
  rw [hs1] at hb1
  refine .accept hp2.1 (by decide) (fun l hl _ => ?_) ?_
  · have hl := hl.length
    refine (hbody p2.skip hp2 (by omega)).bind ?_
    rintro vs j p3 h3 ⟨body2, hb2, ⟨hs3, hc3⟩, hov2, hsize2⟩
    rw [arena_skip, hs2] at hb2
    have hgrow := (Onward.grow p3 (.ifElse c i (some j))).arena
    have hon := Arena.Extends.trans h3.arena hgrow
    refine .pushed _ ⟨.ifElse e body1 (some body2), ⟨c, i, j, node_grow .., ?_, ?_, ?_, by omega⟩,
      ⟨size_grow .., ?_⟩, ?_, ?_⟩
    · exact (h2.arena.trans hon).exprAt he
    · exact hon.listAt hb1
    · exact hgrow.listAt hb2
    · simp only [size_grow, arena_skip, Stmt.size] at *
      omega
    · exact .of_over (.ifElse hov hov1 fun body h => Option.some.inj h ▸ hov2) _
    · simp only [Stmt.size, List.length_cons, List.length_append]
      omega
  · have hgrow := (Onward.grow p2 (.ifElse c i none)).arena
    refine .pushed _ ⟨.ifElse e body1 none, ⟨c, i, node_grow .., ?_, hgrow.listAt hb1, by omega⟩,
      ⟨size_grow .., ?_⟩, ?_, ?_⟩
    · exact (h2.arena.trans hgrow).exprAt he
    · simp only [size_grow, arena_skip, Stmt.size] at *
      omega
    · exact .of_over (.ifElse hov hov1 fun body h => by cases h) _
    · simp only [Stmt.size, List.length_cons, List.length_append]
      omega

theorem takes_whileLoopWith (hp : p.Good V) {body : Parse NodeId} (hbody : p.ReadsBody V body)
    (toplevel : Bool) : p.Takes (whileLoopWith body) (p.YieldsStmt V toplevel) := by
  unfold whileLoopWith
  refine .expect hp.1 (by decide) fun k hk _ => ?_
  have hk := hk.length
  refine (takes_condition (p := p.skip) hp).bind ?_
  rintro ts c p1 h1 ⟨e, he, ⟨hs1, hc1⟩, hov, hsize⟩
  have hl1 := h1.length
  refine (hbody p1 (h1.good hp) (by omega)).bind ?_
  rintro us i p2 h2 ⟨body1, hb1, ⟨hs2, hc2⟩, hov1, hsize1⟩
  rw [hs1] at hb1
  have hgrow := (Onward.grow p2 (.whileLoop c i)).arena
  refine .pushed _ ⟨.whileLoop e body1, ⟨c, i, node_grow .., ?_, hgrow.listAt hb1, by omega⟩,
    ⟨size_grow .., ?_⟩, .of_over (.whileLoop hov hov1) _, ?_⟩
  · exact (h2.arena.trans hgrow).exprAt he
  · simp only [size_grow, arena_skip, Stmt.size] at *
    omega
  · simp only [Stmt.size, List.length_cons, List.length_append]
    omega

theorem takes_returnStmt (hp : p.Good V) (toplevel : Bool) :
    p.Takes returnStmt (p.YieldsStmt V toplevel) := by
  unfold returnStmt
  refine .expect hp.1 (by decide) fun k _ _ => .accept hp.1 (by decide) (fun s _ _ => ?_) ?_
  · refine .pushed _ ⟨.ret none, ⟨node_grow .., Nat.le_refl p.arena.size⟩,
      ⟨size_grow .., size_grow ..⟩, .of_over (.ret fun e h => by cases h) _, ?_⟩
    simp [Stmt.size]
  · refine (takes_yields (p := p.skip) hp).bind ?_
    rintro ts i p1 h1 ⟨e, he, ⟨hs, hc⟩, hov, hsize⟩
    refine .expect (h1.good hp).1 (by decide) fun s _ _ => .pushed _ ?_
    refine ⟨.ret (some e), ⟨i, node_grow .., ?_, ?_⟩, ⟨size_grow .., ?_⟩, ?_, ?_⟩
    · exact (Onward.grow p1.skip _).arena.exprAt he
    · exact Nat.lt_of_succ_le (Nat.le_of_eq hs.symm)
    · simp only [size_grow, arena_skip, Stmt.size] at *
      omega
    · exact .of_over (.ret fun e' h => Option.some.inj h ▸ hov) _
    · simp only [Stmt.size, List.length_cons, List.length_append, List.length_nil]
      omega

theorem takes_exprStmt (hp : p.Good V) (toplevel : Bool) :
    p.Takes exprStmt (p.YieldsStmt V toplevel) := by
  unfold exprStmt
  refine (takes_yields hp).bind ?_
  rintro ts i p1 h1 ⟨e, he, hends, hov, hsize⟩
  refine .expect (h1.good hp).1 (by decide) fun s _ _ => .pure ?_
  refine ⟨.expr e, he, hends, .of_over (.expr hov) _, ?_⟩
  simp only [Stmt.size, List.length_append, List.length_cons, List.length_nil]
  omega

theorem takes_varStmt (hp : p.Good V) (toplevel : Bool) :
    p.Takes varStmt (p.YieldsStmt V toplevel) := by
  unfold varStmt
  refine .get ?_
  split
  · rename_i form hform
    exact takes_assignment hp hform toplevel
  · exact takes_exprStmt hp toplevel

-- A statement list pays for its links; the empty list is a place that nothing pays for yet.
mutual

theorem takes_statements : ∀ (fuel : Nat) (toplevel : Bool) (before : Option Nat) {p : Parser},
    p.Good V → 3 * p.ahead.length + 3 ≤ fuel → (∀ b, before = some b → p.arena.size = b + 1) →
    p.Takes (statements fuel toplevel before) fun ts id p' =>
      ∃ body : List Stmt, ListAt p'.arena body before p.arena.size id ∧ p'.arena.size = id + 1 ∧
        p'.arena.size + before.toList.length =
          p.arena.size + max 1 (linksSize body + before.toList.length) ∧
        (∀ s ∈ body, Admits V toplevel s) ∧ linksSize body ≤ 2 * ts.length ∧
        endsList toplevel p'.kind = true
  | 0, _, _, _, _, hfuel, _ => absurd hfuel (by omega)
  | fuel + 1, toplevel, before, p, hp, hfuel, hbefore => by
    unfold statements
    refine .get (.ite (fun hend => ?_) fun _ => ?_)
    · cases before with
      | some b => exact .pure ⟨[], .inl rfl, hbefore b rfl, rfl, by simp, Nat.le_refl 0, hend⟩
      | none =>
        have hlast : ListAt (p.grow .empty).arena [] none p.arena.size p.arena.size :=
          .inr ⟨rfl, node_grow .., by simp, Nat.le_refl _⟩
        exact .pushed _ ⟨[], hlast, size_grow .., size_grow .., by simp, Nat.le_refl 0, hend⟩
    · refine (takes_statement fuel toplevel hp (by omega)).bind ?_
      rintro ts i p1 h1 ⟨s, hs, ⟨hs1, hc1⟩, hadm, hsize⟩
      have hl1 := h1.length
      have hle := hs.le
      have hgrow := (Onward.grow p1 (.sequence before (some i))).arena
      refine .push _ ?_
      refine (takes_statements fuel toplevel (some p1.arena.size)
        (p := p1.grow (.sequence before (some i))) (h1.good hp)
        (show 3 * p1.ahead.length + 3 ≤ fuel by omega) ?_).imp ?_
      · intro b hb
        rw [← Option.some.inj hb, size_grow]
      · rintro us id p2 h2 ⟨body, hb, hs2, hc2, hadms, hsizes, hend⟩
        refine ⟨s :: body, ⟨i, p1.arena.size, ?_, by omega, ?_, ?_⟩, hs2, ?_, ?_, ?_, hend⟩
        · exact (hgrow.trans h2.arena).stmtAt hs
        · rw [h2.arena.node _ (by simp), node_grow]
        · rw [size_grow] at hb
          exact hb
        · simp only [size_grow, linksSize, Option.toList_some, List.length_singleton] at *
          omega
        · exact List.forall_mem_cons.mpr ⟨hadm, hadms⟩
        · simp only [linksSize, List.length_append]
          omega

theorem takes_statement : ∀ (fuel : Nat) (toplevel : Bool) {p : Parser}, p.Good V →
    3 * p.ahead.length + 2 ≤ fuel →
    p.Takes (statement fuel toplevel) (p.YieldsStmt V toplevel)
  | 0, _, _, _, hfuel => absurd hfuel (by omega)
  | fuel + 1, toplevel, p, hp, hfuel => by
    have hbody : p.ReadsBody V (body fuel) := fun q hq hlt => takes_body fuel hq (by omega)
    have hblock : p.ReadsBody V (block fuel) := by
      intro q hq hlt
      refine (takes_block fuel hq (by omega)).imp ?_
      rintro ts id p' _ ⟨body, hb, hends, hov, hsize⟩
      exact ⟨body, hb, hends, hov, Nat.le_of_lt hsize⟩
    unfold statement
    refine .get ?_
    split
    · refine (takes_block fuel hp (by omega)).imp ?_
      rintro ts id p1 _ ⟨body, hb, hends, hov, hsize⟩
      exact ⟨.block body, hb, hends, .of_over (.block hov) _, hsize⟩
    · exact takes_ifElseWith hp hbody toplevel
    · exact takes_whileLoopWith hp hbody toplevel
    · cases toplevel with
      | true => exact takes_functionWith hp hblock
      | false => exact .fail _
    · exact takes_returnStmt hp toplevel
    · rename_i hk
      refine .advance hp.1 (by rw [hk]; decide) fun s _ => .pushed _ ⟨.block [], ?_, ?_, ?_, ?_⟩
      · exact .inr ⟨rfl, node_grow .., by simp, Nat.le_refl p.arena.size⟩
      · exact ⟨size_grow .., size_grow ..⟩
      · exact .of_over (.block (by simp)) _
      · simp [Stmt.size, linksSize]
    · exact takes_varStmt hp toplevel
    · exact takes_exprStmt hp toplevel

theorem takes_block : ∀ (fuel : Nat) {p : Parser}, p.Good V → 3 * p.ahead.length + 1 ≤ fuel →
    p.Takes (block fuel) (p.YieldsBody V 1)
  | 0, _, _, hfuel => absurd hfuel (by omega)
  | fuel + 1, p, hp, hfuel => by
    unfold block
    refine .expect hp.1 (by decide) fun l hl _ => ?_
    have hl := hl.length
    refine (takes_statements fuel false none (p := p.skip) hp (by omega) (by simp)).bind ?_
    rintro ts id p1 h1 ⟨body, hb, hs, hc, hov, hsize, _⟩
    refine .expect (h1.good hp).1 (by decide) fun r _ _ => .pure ⟨body, hb, ⟨hs, hc⟩, hov, ?_⟩
    simp only [List.length_cons, List.length_append, List.length_nil]
    omega

theorem takes_body : ∀ (fuel : Nat) {p : Parser}, p.Good V → 3 * p.ahead.length + 3 ≤ fuel →
    p.Takes (body fuel) (p.YieldsBody V 0)
  | 0, _, _, hfuel => absurd hfuel (by omega)
  | fuel + 1, p, hp, hfuel => by
    unfold body
    refine .get (.ite (fun _ => ?_) fun _ => .ite (fun _ => .failExpecting _) fun _ => ?_)
    · refine (takes_block fuel hp (by omega)).imp ?_
      rintro ts id p1 _ ⟨body, hb, hends, hov, hsize⟩
      exact ⟨body, hb, hends, hov, Nat.le_of_lt hsize⟩
    · refine (takes_statement fuel false hp (by omega)).bind ?_
      rintro ts i p1 h1 ⟨s, hs, ⟨hs1, hc1⟩, hov, hsize⟩
      have hlink : ListAt (p1.grow (.sequence none (some i))).arena [s] none p.arena.size
          p1.arena.size :=
        ⟨i, _, (Onward.grow p1 _).arena.stmtAt hs, by omega, node_grow .., .inl rfl⟩
      refine .pushed _ ⟨[s], hlink, ⟨size_grow .., ?_⟩, ?_, ?_⟩
      · simp only [size_grow, linksSize]
        omega
      · exact List.forall_mem_singleton.mpr hov
      · simp only [linksSize, List.length_append, List.length_nil]
        omega

end

/-! ## Programs -/

theorem takes_expectWord (hp : p.Ends) (word : String) :
    p.Takes (expectWord word) fun _ _ p' => p'.arena = p.arena := by
  unfold expectWord
  exact .expect hp (by decide) fun t _ _ => .ite (fun _ => .pure rfl) fun _ => .fail _

theorem takes_prologue (hp : p.Ends) : p.Takes prologue fun _ _ p' => p'.arena = p.arena := by
  unfold prologue
  refine .get (.ite (fun h => ?_) fun _ => .pure rfl)
  refine .advance hp (by rw [h.1]; decide) fun _ _ => .expect hp (by decide) fun _ _ _ => ?_
  refine (takes_expectWord (p := p.skip.skip) hp _).bind fun _ _ p1 h1 ha1 => ?_
  have hp1 := h1.ends hp
  refine .expect hp1 (by decide) fun _ _ _ => .expect hp1 (by decide) fun _ _ _ => ?_
  refine .ite (fun _ => ?_) fun _ => .fail _
  exact .expect hp1 (by decide) fun _ _ _ => .expect hp1 (by decide) fun _ _ _ => .pure ha1

theorem takes_front (hp : p.Good V) : p.Takes front fun ts id p' =>
    ∃ body : List Stmt, ListAt p'.arena body none p.arena.size id ∧
      p'.arena.EndsAt p.arena.size id (max 1 (linksSize body)) ∧
      (∀ s ∈ body, s.OverTop (.over V)) ∧ max 1 (linksSize body) ≤ 2 * ts.length ∧
      endsList true p'.kind = true := by
  unfold front
  refine .expect hp.1 (by decide) fun o _ _ => ?_
  refine (takes_prologue (p := p.skip) hp.1).bind fun us _ p1 h1 ha1 => .get ?_
  have hlen := p1.ahead_length_le
  refine (takes_statements _ true none (h1.good hp) (by omega) (by simp)).imp ?_
  rintro ts id p2 _ ⟨body, hb, hs, hc, hov, hsize, hend⟩
  rw [ha1] at hb hc
  refine ⟨body, hb, ⟨hs, hc⟩, hov, ?_, hend⟩
  simp only [List.length_cons, List.length_append]
  omega

/-- Behind the statements stands nothing or one closing tag. -/
theorem takes_back (hp : p.Ends) : p.Takes back fun ts _ p' =>
    p'.arena = p.arena ∧ p'.kind = .eof ∧ (ts = [] ∨ ∃ t, ts = [t] ∧ t.kind = .closeTag) := by
  unfold back
  refine .accept hp (by decide) (fun c _ hc => ?_) ?_
  · exact .expect_eof fun hk _ => .pure ⟨rfl, hk, .inr ⟨c, rfl, hc⟩⟩
  · exact .expect_eof fun hk _ => .pure ⟨rfl, hk, .inl rfl⟩

/-- A program as the parser hands it out. -/
structure Spelled (program : Program) (tokens : Nat) : Prop where
  holds : ∃ body : List Stmt, program.Holds body ∧ ∀ s ∈ body, s.OverTop .spelled
  filled : program.arena.Filled [program.root]
  size : program.arena.size ≤ 2 * tokens

theorem meets_parse (hp : p.Good .spelled) (hempty : p.arena.size = 0) :
    Meets parse p (fun e _ => ¬ e.Internal) fun program _ => Spelled program p.ahead.length := by
  rw [parse_eq, meets_bind]
  refine (takes_front hp).mono (fun e _ he => he.1) ?_
  rintro root q ⟨ts, h, body, hb, ⟨hs, hc⟩, hov, hsize, _⟩
  rw [meets_bind]
  refine (takes_back (h.good hp).1).mono (fun e _ he => he.1) ?_
  rintro _ r ⟨us, _, ha, _⟩
  have hlen := h.length
  rw [hempty] at hb hc
  rw [takeProgram, meets_modifyGet]
  show Spelled ⟨r.arena, root⟩ _
  rw [ha]
  obtain ⟨places, hlaid, hlength⟩ := hb.laid (.nil (Nat.le_refl 0))
  refine ⟨⟨body, hb, fun s hmem => (hov s hmem).spelled⟩, ?_, ?_⟩
  · rw [← hs] at hlaid
    refine hlaid.filled ?_
    rw [hlength, List.length_nil]
    show max 1 (linksSize body) = q.arena.size
    omega
  · show q.arena.size ≤ _
    omega

end Parser

/-- A token list of the lexer is refused for a fault of the text or spells a program. -/
theorem parseTokens_spelled {tokens : List Token} (h : TokenList tokens) :
    match parseTokens tokens with
    | .ok program => Parser.Spelled program tokens.length
    | .error e => ¬ e.Internal := by
  have hgood : (Parser.ofTokens tokens).Good .spelled := by
    refine ⟨?_, fun t ht => ⟨fun hk _ => (h.spelled t ht).1 hk, (h.spelled t ht).2⟩⟩
    obtain ⟨init, last, heq, hlast, _⟩ := h.ends
    exact ⟨init, last, heq, hlast⟩
  have hmeets := Parser.meets_parse hgood rfl
  unfold parseTokens
  split
  · rename_i program hrun
    split at hrun
    · rename_i program' p' heq
      cases hrun
      have hspelled := Meets.of_ok hmeets heq
      exact hspelled
    · simp at hrun
  · rename_i e hrun
    split at hrun
    · simp at hrun
    · rename_i e' p' heq
      cases hrun
      exact Meets.of_error hmeets heq

theorem parseSource_spelled {source : String} {p : Program} (h : parseSource source = .ok p) :
    ∃ n, Parser.Spelled p n := by
  unfold parseSource at h
  cases htok : tokenize source with
  | error e =>
    rw [htok] at h
    cases h
  | ok tokens =>
    rw [htok] at h
    have hspelled := parseTokens_spelled (tokenize_shape htok).1
    dsimp only at h
    rw [h] at hspelled
    exact ⟨_, hspelled⟩

/-- The arena of a parsed program holds statements whose names are spelled as the lexer demands. -/
theorem spelled_of_parseSource {source : String} {p : Program} (h : parseSource source = .ok p) :
    ∃ body, p.Holds body ∧ ∀ s ∈ body, s.OverTop .spelled := by
  obtain ⟨n, hspelled⟩ := parseSource_spelled h
  exact hspelled.holds

/-- The arena of a parsed program holds its tree and nothing else. -/
theorem filled_of_parseSource {source : String} {p : Program} (h : parseSource source = .ok p) :
    p.arena.Filled [p.root] := by
  obtain ⟨n, hspelled⟩ := parseSource_spelled h
  exact hspelled.filled

end Ifj22
