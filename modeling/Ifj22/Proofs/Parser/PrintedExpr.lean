import Ifj22.Proofs.Parser.Print
import Ifj22.Proofs.Parser.Steps
set_option autoImplicit false

/-!
# Parser: reading a printed expression

An expression is read in two moves: its leftmost operand, and then its operators one after the other,
each of which is put around what was read so far.  Reading at a level stops before an operator of a
lower level, and what is printed at a level has no such operator outside parentheses.
-/

namespace Ifj22

variable {e : Expr} {k : TokenKind} {fuel level : Nat} {us : List Token} {name : String}
  {args : List Expr}

/-- The first token of an expression is of none of the other kinds. -/
theorem Expr.Prints.opens {ts : List Token} (h : e.Prints ts) (hk : k.startsExpr = false)
    (rest : List Token) : ∃ u us, ts ++ rest = u :: us ∧ u.kind ≠ k := by
  obtain ⟨u, us, rfl, hu⟩ := h.head
  refine ⟨u, _, rfl, ?_⟩
  rintro rfl
  exact Bool.false_ne_true (hk.symm.trans hu)

namespace Parser

variable {p p' : Parser} {t : Token} {rest : List Token}

/-! ## Expressions -/

/-- The expression stands at the end of the arena, from the end of the parser's arena on. -/
def Builds (p : Parser) (e : Expr) (id : Nat) (p' : Parser) : Prop :=
  e.At p'.arena p.arena.size id ∧ p'.arena.size = id + 1

theorem Builds.lt {id : Nat} (h : p.Builds e id p') : id < p'.arena.size := Nat.le_of_eq h.2.symm

/-- No operator of the level or above comes next. -/
def Stops (level : Nat) (rest : List Token) : Prop :=
  ∀ t us, rest = t :: us → ∀ op, t.kind.binaryOp? = some op → op.precedence < level

theorem Stops.mono {level' : Nat} (h : Stops level rest) (hle : level ≤ level') :
    Stops level' rest :=
  fun t us heq op hop => Nat.lt_of_lt_of_le (h t us heq op hop) hle

theorem stops_of_none (h : t.kind.binaryOp? = none) (level : Nat) (us : List Token) :
    Stops level (t :: us) := by
  intro u vs heq op hop
  obtain ⟨rfl, _⟩ := List.cons.inj heq
  rw [h] at hop
  cases hop

theorem binaryOp?_kind (op : BinOp) : op.kind.binaryOp? = some op := by cases op <;> rfl

theorem unaryOp?_kind (op : UnaryOp) : op.kind.unaryOp? = some op := by cases op <;> rfl

/-- The tokens are read as an operand. -/
def ReadsOperand (e : Expr) (ts : List Token) : Prop :=
  ∀ ⦃p : Parser⦄ ⦃rest : List Token⦄ ⦃fuel : Nat⦄, p.ahead = ts ++ rest →
    2 * p.ahead.length + 2 ≤ fuel → p.Finds (unary fuel) rest (p.Builds e)

/-- Reading at the level goes on with the expression as the left operand of what comes next. -/
def Climbs (p : Parser) (level fuel : Nat) (e : Expr) (rest : List Token) : Prop :=
  ∃ id p' fuel', binaryAt fuel level p = climb fuel' level id p' ∧ p.Leaves rest p' ∧
    p.Builds e id p' ∧ 2 * rest.length + 2 ≤ fuel'

theorem ReadsOperand.climbs {ts : List Token} (h : ReadsOperand e ts) (hp : p.ahead = ts ++ rest)
    (hts : ts ≠ []) (hfuel : 2 * p.ahead.length + 3 ≤ fuel) (level : Nat) :
    p.Climbs level fuel e rest := by
  obtain ⟨fuel, rfl⟩ := exists_fuel hfuel
  obtain ⟨id, p', hrun, hleaves, hbuilds⟩ := @h p rest fuel hp (by omega)
  refine ⟨id, p', fuel, ?_, hleaves, hbuilds, ?_⟩
  · unfold binaryAt
    simp only [Bind.bind, EStateM.bind, hrun]
  · have hpos := List.length_pos_iff.mpr hts
    rw [hp, List.length_append] at hfuel
    omega

/-- Reading stops before what the level does not admit. -/
theorem Climbs.finds (h : p.Climbs level fuel e (t :: rest)) (hstops : Stops level (t :: rest)) :
    p.Finds (binaryAt fuel level) (t :: rest) (p.Builds e) := by
  obtain ⟨id, p', fuel', hrun, hleaves, hbuilds, hfuel⟩ := h
  refine ⟨id, p', ?_, hleaves, hbuilds⟩
  rw [hrun]
  cases fuel' with
  | zero => omega
  | succ fuel' =>
    have hkind := kind_of_ahead hleaves.ahead
    unfold climb
    rw [get_bind, hkind]
    cases hop : t.kind.binaryOp? with
    | none => rfl
    | some op =>
      have hlt := hstops t rest rfl op hop
      dsimp only
      rw [if_pos hlt]
      rfl

/-- An operator and its right operand go around what was read before. -/
theorem Climbs.binary {op : BinOp} {left right : Expr} {o : Token}
    (h : p.Climbs level fuel left (o :: (us ++ rest))) (ho : o.kind = op.kind)
    (hlevel : level ≤ op.precedence)
    (hright : ∀ ⦃q : Parser⦄ ⦃fuel : Nat⦄, q.ahead = us ++ rest → 2 * q.ahead.length + 3 ≤ fuel →
      q.Finds (binaryAt fuel (op.precedence + 1)) rest (q.Builds right)) :
    p.Climbs level fuel (.binary op left right) rest := by
  obtain ⟨i, p1, fuel1, hrun, hleaves1, hbuilds, hfuel⟩ := h
  rw [List.length_cons, List.length_append] at hfuel
  cases fuel1 with
  | zero => omega
  | succ fuel1 =>
    have hkind : p1.kind.binaryOp? = some op := by
      rw [kind_of_ahead hleaves1.ahead, ho, binaryOp?_kind]
    have hne : p1.kind ≠ .eof := TokenKind.ne_eof_of_binaryOp? hkind
    have hahead := ahead_skip hleaves1.ahead
    obtain ⟨j, p2, hrun2, hleaves2, hbuilds2⟩ := @hright p1.skip fuel1 hahead (by
      rw [hahead, List.length_append]
      omega)
    have hgrow := Onward.grow p2 (.binary op i j)
    refine ⟨p2.arena.size, p2.grow (.binary op i j), fuel1, ?_, ?_, ?_, by omega⟩
    · rw [hrun]
      conv => lhs; unfold climb
      rw [get_bind, hkind]
      dsimp only
      rw [if_neg (Nat.not_lt.mpr hlevel), advance_bind hne]
      simp only [Bind.bind, EStateM.bind, hrun2]
      rfl
    · have hskip := hleaves1.toOnward.trans (.skip p1)
      exact ⟨(hskip.trans hleaves2.toOnward).trans hgrow, hleaves2.ahead⟩
    · refine ⟨⟨i, j, p2.node_grow _, ?_, ?_, hbuilds2.lt⟩, p2.size_grow _⟩
      · exact (hleaves2.arena.trans hgrow.arena).exprAt hbuilds.1
      · rw [← hbuilds.2]
        exact hgrow.arena.exprAt hbuilds2.1

/-! ## Operands -/

theorem literal?_denotes {c : Constant} (h : t.Denotes c) : literal? t = some (.ok c.node) := by
  unfold literal?
  cases c with
  | int value => rw [h.1]; simp only [h.2]; rfl
  | float value => rw [h.1]; simp only [h.2]; rfl
  | str value => rw [h.1]; simp only [h.2]; rfl
  | null => rw [show t.kind = .kwNull from h]; rfl

theorem literal?_var (h : t.Spells .varName name) : literal? t = some (.ok (.var name)) := by
  unfold literal?
  rw [h.1, h.2]

/-- A token of a constant or a variable is read as that. -/
theorem readsOperand_leaf {node : Node} (h : literal? t = some (.ok node))
    (he : ∀ (a : Arena) (id : Nat), a.node id = node → e.At a id id) : ReadsOperand e [t] := by
  intro p rest fuel hp hfuel
  rw [List.singleton_append] at hp
  have hkinds : t.kind.unaryOp? = none ∧ t.kind ≠ .openParen ∧ t.kind ≠ .identifier := by
    unfold literal? at h
    split at h <;> rename_i hk <;> first | (rw [hk]; decide) | cases h
  have hne := literal?_ne_eof h
  obtain ⟨fuel, rfl⟩ := exists_fuel hfuel
  unfold unary
  refine .get ?_
  rw [kind_of_ahead hp, hkinds.1]
  show p.Finds (primaryWith _ _) rest _
  unfold primaryWith
  refine .get ?_
  rw [kind_of_ahead hp]
  split
  · exact absurd ‹_› hkinds.2.1
  · exact absurd ‹_› hkinds.2.2
  · unfold leaf
    refine .get ?_
    rw [current?_of_ahead hp]
    dsimp only
    rw [h]
    refine .advance hp hne fun hp => .pushed node hp ⟨?_, size_grow ..⟩
    exact he _ _ (p.skip.node_grow node)

/-- Every part of the expression that is printed without parentheses is read: whole, or as an operand
if it has no operator outside parentheses. -/
structure Readable (e : Expr) : Prop where
  climbs : ∀ ⦃ts : List Token⦄, e.Prints ts → ∀ ⦃p : Parser⦄ ⦃t : Token⦄ ⦃rest : List Token⦄
    ⦃level fuel : Nat⦄, level ≤ e.tightness → Stops (e.tightness + 1) (t :: rest) →
      p.ahead = ts ++ t :: rest → 2 * p.ahead.length + 3 ≤ fuel → p.Climbs level fuel e (t :: rest)
  operand : ∀ ⦃ts : List Token⦄, e.Prints ts → 7 ≤ e.tightness → ReadsOperand e ts

theorem one_le_tightness (e : Expr) : 1 ≤ e.tightness := by
  cases e with
  | binary op left right =>
    show 1 ≤ op.level
    cases op <;> decide
  | _ => exact Nat.succ_le_succ (Nat.zero_le 6)

theorem level_lt_seven (op : BinOp) : op.level < 7 := by cases op <;> decide

namespace Readable

variable {e : Expr} {ts : List Token} {fuel : Nat}

theorem of_operand (h : ∀ ts, e.Prints ts → ReadsOperand e ts) : Readable e := by
  refine ⟨fun ts hts _ _ _ _ _ _ _ hp hfuel => (h ts hts).climbs hp ?_ hfuel _,
    fun ts hts _ => h ts hts⟩
  obtain ⟨t, us, rfl, _⟩ := hts.head
  simp

/-- An expression up to a token that is no operator. -/
theorem finds (h : Readable e) (hts : e.Prints ts) (hp : p.ahead = ts ++ t :: rest)
    (ht : t.kind.binaryOp? = none) (hfuel : 2 * p.ahead.length + 3 ≤ fuel) :
    p.Finds (binaryAt fuel 1) (t :: rest) (p.Builds e) :=
  (h.climbs hts (one_le_tightness e) (stops_of_none ht _ _) hp hfuel).finds (stops_of_none ht _ _)

/-- An expression in parentheses is an operand. -/
theorem parens (h : Readable e) (hts : e.Prints ts) {l r : Token} (hl : l.kind = .openParen)
    (hr : r.kind = .closeParen) : ReadsOperand e (l :: (ts ++ [r])) := by
  intro p rest fuel hp hfuel
  rw [List.cons_append, List.append_assoc, List.singleton_append] at hp
  rw [hp, List.length_cons] at hfuel
  obtain ⟨fuel, rfl⟩ := exists_fuel hfuel
  unfold unary
  refine .get ?_
  rw [kind_of_ahead hp, hl]
  show p.Finds (primaryWith _ _) rest _
  unfold primaryWith
  refine .get ?_
  rw [kind_of_ahead hp, hl]
  refine .advance hp (by rw [hl]; decide) fun hp => ?_
  refine (h.finds hts hp (by rw [hr]; rfl) (by rw [hp]; omega)).bind fun id p1 h1 hbuilds => ?_
  exact .expect h1.ahead hr (by decide) fun hp => .pure hp hbuilds

/-- An operand at the tightest level. -/
theorem tight (h : Readable e) (hts : e.PrintsOperand 7 ts) : ReadsOperand e ts := by
  cases hts with
  | bare hle h' => exact h.operand h' hle
  | parens _ hl h' hr => exact h.parens h' hl hr

/-- An operand at a level, followed by an operator that binds no tighter. -/
theorem climbs_operand (h : Readable e) {level' : Nat} (hts : e.PrintsOperand level ts)
    (hle : level' ≤ level) (hstops : Stops (level + 1) (t :: rest)) (hp : p.ahead = ts ++ t :: rest)
    (hfuel : 2 * p.ahead.length + 3 ≤ fuel) : p.Climbs level' fuel e (t :: rest) := by
  cases hts with
  | bare htight h' =>
    refine h.climbs h' (Nat.le_trans hle htight) (hstops.mono ?_) hp hfuel
    exact Nat.succ_le_succ htight
  | parens _ hl h' hr => exact (h.parens h' hl hr).climbs hp (by simp) hfuel _

end Readable

/-! ## Calls -/

/-- Behind an argument comes a comma or the closing parenthesis. -/
theorem printsMore_head (h : PrintsMore args us) {r : Token} (hr : r.kind = .closeParen)
    (rest : List Token) : ∃ t vs, us ++ r :: rest = t :: vs ∧ t.kind.binaryOp? = none := by
  cases h with
  | nil => exact ⟨r, rest, rfl, by rw [hr]; rfl⟩
  | @cons _ _ c ts us hc _ _ => exact ⟨c, ts ++ us ++ r :: rest, rfl, by rw [hc]; rfl⟩

theorem finds_moreArgs : ∀ {args : List Expr}, (∀ e ∈ args, Readable e) → ∀ {us : List Token},
    PrintsMore args us → ∀ {p : Parser} {r : Token} {rest : List Token} {fuel : Nat},
    p.ahead = us ++ r :: rest → r.kind = .closeParen → 2 * p.ahead.length + 2 ≤ fuel →
    p.Finds (moreArgs fuel) (r :: rest) fun ids p' =>
      Row p'.arena args p.arena.size ids p'.arena.size
  | _, _, _, _, _, _, _, 0, _, _, hfuel => absurd hfuel (by omega)
  | _, _, _, .nil, p, r, rest, fuel + 1, hp, hr, _ => by
    unfold moreArgs
    exact .accept_not hp (by rw [hr]; decide) (.pure hp (Nat.le_refl p.arena.size))
  | e :: args, hall, _, .cons hc he hmore, p, r, rest, fuel + 1, hp, hr, hfuel => by
    rw [List.cons_append, List.append_assoc] at hp
    rw [hp, List.length_cons] at hfuel
    obtain ⟨t, vs, heq, ht⟩ := printsMore_head hmore hr rest
    unfold moreArgs
    refine .accept hp hc (by decide) fun hp => ?_
    rw [heq] at hp hfuel
    refine ((hall e (.head _)).finds he hp ht (by rw [hp]; omega)).bind
      fun i p1 h1 hbuilds => ?_
    rw [List.length_append] at hfuel
    rw [← heq] at h1
    refine (finds_moreArgs (fun e he => hall e (.tail _ he)) hmore h1.ahead hr
      (by rw [h1.ahead, heq]; omega)).bind fun ids p2 h2 hrow => ?_
    exact .pure h2.ahead ⟨h2.arena.exprAt hbuilds.1, hbuilds.2 ▸ hrow⟩

theorem finds_pushArgs {ids : List Nat} {lo : Nat} (h : p.ahead = rest)
    (hrow : Row p.arena args lo ids p.arena.size) :
    p.Finds (pushArgs ids) rest fun link p' => ArgsAt p'.arena args lo p'.arena.size link := by
  obtain ⟨link, a, hrun, hext, hargs, _⟩ := pushArgs_row hrow
  exact ⟨link, { p with arena := a }, hrun, ⟨⟨rfl, hext⟩, h⟩, hargs⟩

theorem finds_unary_name {f : Token} (hp : p.ahead = f :: us) (hf : f.Spells .identifier name)
    (hcall : p.skip.ahead = us →
      p.skip.Finds (callWith (binaryAt fuel 1) (moreArgs fuel) name) rest (p.Builds e)) :
    p.Finds (unary (fuel + 1)) rest (p.Builds e) := by
  unfold unary
  refine .get ?_
  rw [kind_of_ahead hp, hf.1]
  show p.Finds (primaryWith _ _) rest _
  unfold primaryWith
  refine .get ?_
  rw [kind_of_ahead hp, hf.1]
  refine .expect hp hf.1 (by decide) fun hp => ?_
  rw [hf.2]
  exact hcall hp

/-- A call is an operand. -/
theorem readsOperand_call (hall : ∀ e ∈ args, Readable e) {ts : List Token}
    (h : (Expr.call name args).Prints ts) : ReadsOperand (.call name args) ts := by
  intro p rest fuel hp hfuel
  obtain ⟨fuel, rfl⟩ := exists_fuel hfuel
  cases h with
  | callNone hf hl hr =>
    refine finds_unary_name hp hf fun hp => ?_
    unfold callWith
    refine .expect hp hl (by decide) fun hp => .accept hp hr (by decide) fun hp => ?_
    refine .pushed _ hp ⟨⟨none, node_grow .., rfl, ?_⟩, size_grow ..⟩
    exact Nat.le_refl p.arena.size
  | @call _ first more f l r ts us hf hl hfirst hmore hr =>
    simp only [List.cons_append, List.append_assoc, List.nil_append] at hp
    rw [hp, List.length_cons, List.length_cons] at hfuel
    obtain ⟨t, vs, heq, ht⟩ := printsMore_head hmore hr rest
    refine finds_unary_name hp hf fun hp => ?_
    unfold callWith
    refine .expect hp hl (by decide) fun hp => ?_
    obtain ⟨u, ws, hws, hu⟩ := hfirst.opens (k := .closeParen) rfl (us ++ r :: rest)
    refine .accept_not (hp.trans hws) hu ?_
    rw [heq] at hp hfuel
    refine ((hall first (.head _)).finds hfirst hp ht (by rw [hp]; omega)).bind
      fun i p1 h1 hbuilds => ?_
    rw [List.length_append] at hfuel
    rw [← heq] at h1
    refine (finds_moreArgs (fun e he => hall e (.tail _ he)) hmore h1.ahead hr
      (by rw [h1.ahead, heq]; omega)).bind fun ids p2 h2 hrow => ?_
    refine .expect h2.ahead hr (by decide) fun hp => ?_
    have hrow' : Row p2.skip.arena (first :: more) p.arena.size (i :: ids) p2.skip.arena.size :=
      ⟨h2.arena.exprAt hbuilds.1, hbuilds.2 ▸ hrow⟩
    refine (finds_pushArgs hp hrow').bind fun link p3 h3 hargs => ?_
    refine .pushed _ h3.ahead ⟨⟨link, node_grow .., ?_⟩, size_grow ..⟩
    exact hargs.congr (Nat.le_refl _) fun k _ hk => (Onward.grow p3 _).arena.node k hk

/-- Every expression is read as it was printed. -/
theorem readable (e : Expr) : Readable e := by
  induction e with
  | constant c =>
    refine .of_operand fun ts h => ?_
    cases h with
    | constant h =>
      exact readsOperand_leaf (literal?_denotes h) fun a id hn => ⟨hn, Nat.le_refl id⟩
  | var name =>
    refine .of_operand fun ts h => ?_
    cases h with
    | var h => exact readsOperand_leaf (literal?_var h) fun a id hn => ⟨hn, Nat.le_refl id⟩
  | binary op left right hl hr =>
    constructor
    · intro ts h p t rest level fuel hlevel hstops hp hfuel
      cases h with
      | @binary _ _ _ ts us o hleft ho hright =>
        rw [List.append_assoc, List.cons_append] at hp
        change level ≤ op.level at hlevel
        change Stops (op.level + 1) (t :: rest) at hstops
        rw [op.level_eq] at hleft hright hlevel hstops
        have hnext : Stops (op.precedence + 1) (o :: (us ++ t :: rest)) := by
          intro u vs heq op' hop
          obtain ⟨rfl, _⟩ := List.cons.inj heq
          rw [ho, binaryOp?_kind] at hop
          cases hop
          exact Nat.lt_succ_self _
        refine (hl.climbs_operand hleft hlevel hnext hp hfuel).binary ho hlevel
          fun q fuel hq hfuel => ?_
        have hstops' : Stops (op.precedence + 1 + 1) (t :: rest) := hstops.mono (Nat.le_succ _)
        exact (hr.climbs_operand hright (Nat.le_refl _) hstops' hq hfuel).finds hstops
    · intro ts h htight
      exact absurd htight (Nat.not_le.mpr (level_lt_seven op))
  | unary op operand ih =>
    refine .of_operand fun ts h => ?_
    cases h with
    | @unary _ _ ts o ho h =>
      intro p rest fuel hp hfuel
      rw [List.cons_append] at hp
      rw [hp, List.length_cons] at hfuel
      obtain ⟨fuel, rfl⟩ := exists_fuel hfuel
      unfold unary
      refine .get ?_
      rw [kind_of_ahead hp, ho, unaryOp?_kind]
      have hne : o.kind ≠ .eof := TokenKind.ne_eof_of_unaryOp? (ho ▸ unaryOp?_kind op)
      refine .advance hp hne fun hp => ?_
      refine (ih.tight h hp (by rw [hp]; omega)).bind fun i p1 h1 hbuilds => ?_
      refine .pushed _ h1.ahead ⟨⟨i, node_grow .., ?_, hbuilds.lt⟩, size_grow ..⟩
      exact (Onward.grow p1 _).arena.exprAt hbuilds.1
  | call name args ih => exact .of_operand fun ts h => readsOperand_call ih h

end Parser

end Ifj22
