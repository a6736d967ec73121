import Ifj22.Proofs.Simplify.Arena
import Mathlib.Data.List.Induction
set_option autoImplicit false

/-!
# Simplify: constants in place of variables, in an arena

Replacing reads and spreading a constant in an arena do so in its tree.  Spreading stops at a
statement just if the statement may assign the variable.
-/

namespace Ifj22

variable {body : List Stmt} {a : Arena} {id lo : Nat} {s : Stmt}

namespace Stmt

theorem replaceAll_eq (name : String) (c : Constant) (body : List Stmt) :
    replaceAll name c body = body.map (replace name c) := by
  induction body with
  | nil => rfl
  | cons s rest ih => rw [replaceAll, ih, List.map_cons]

theorem writesAny_append (name : String) (body body' : List Stmt) :
    writesAny name (body ++ body') = (writesAny name body || writesAny name body') := by
  induction body with
  | nil => simp [writesAny]
  | cons s rest ih => rw [List.cons_append, writesAny, ih, writesAny, Bool.or_assoc]

end Stmt

/-! ## Replacing reads in statements -/

namespace Edit

open Arena

variable {name : String} {c : Constant}

mutual

/-- Replacing the reads in the list at a place, which is reached from its end. -/
theorem counts_replaceList : ∀ (fuel : Nat) (body : List Stmt) {a : Arena} {lo id : Nat},
    ListAt a body none lo id → id < fuel →
    Counts (ReadOf name c) (replaceReadsAt name c.node fuel id) a lo id
      fun n a' => ListAt a' (body.map (Stmt.replace name c)) none lo id ∧
        (n = 0 ↔ body.map (Stmt.replace name c) = body)
  | 0, _, _, _, _, _, hfuel => absurd hfuel (Nat.not_lt_zero _)
  | fuel + 1, body, a, lo, id, h, hfuel => by
    refine .get ?_
    rcases body.eq_nil_or_concat' with rfl | ⟨body, s, rfl⟩
    · rcases h with h | ⟨hnone, hn, hid, hlo⟩
      · cases h
      · rw [hn]
        exact .pure rfl ⟨.inr ⟨rfl, hn, hid, hlo⟩, iff_of_true rfl rfl⟩
    · obtain ⟨i, lo', prev, hi, hn, hat, hprev⟩ := listAt_concat.mp h
      rw [hn, List.map_append]
      rcases hprev with ⟨rfl, rfl, rfl⟩ | ⟨hne, p, hbody, rfl, rfl⟩
      · refine ((counts_replaceStmt fuel s hat (by omega)).part hn (.head _) (Nat.le_refl _) hi).imp ?_
        rintro n a1 ⟨⟨hs1, hsame⟩, hn1, -⟩
        exact ⟨listAt_concat.mpr ⟨i, lo', none, hi, hn1, hs1, .inl ⟨rfl, rfl, rfl⟩⟩, by simp [hsame]⟩
      · have hlo := hbody.le
        have hpi := hat.le
        refine .pair (counts_replaceList fuel body hbody (by omega)) (fun a1 hd =>
          counts_replaceStmt fuel s (hat.of_differs hd fun k hk => .inl (Nat.lt_succ_of_le hk.2))
            (by omega)) hn (.head _) (.tail _ (.head _)) hlo (by omega) hi ?_
        rintro n1 n2 a1 a2 - ⟨hbody1, hsame1⟩ hd2 ⟨hs2, hsame2⟩ hn2
        refine .pure (by omega) ⟨listAt_concat.mpr ⟨i, p + 1, some p, hi, hn2, hs2,
          .inr ⟨fun hnil => hne (List.map_eq_nil_iff.mp hnil), p, ?_, rfl, rfl⟩⟩, ?_⟩
        · exact hbody1.ahead hd2 (Nat.lt_succ_self p)
        · simp [hsame1, hsame2]

/-- Replacing the reads in the statement at a place replaces them in its tree, which stays as it is
just if no read is counted. -/
theorem counts_replaceStmt : ∀ (fuel : Nat) (s : Stmt) {a : Arena} {lo id : Nat}, s.At a lo id →
    id < fuel → Counts (ReadOf name c) (replaceReadsAt name c.node fuel id) a lo id
      fun n a' => (s.replace name c).At a' lo id ∧ (n = 0 ↔ s.replace name c = s)
  | 0, _, _, _, _, _, hfuel => absurd hfuel (Nat.not_lt_zero _)
  | fuel + 1, .expr value, _, _, _, h, hfuel => by
    simp only [Stmt.replace, Stmt.expr.injEq]
    exact counts_replaceExpr (fuel + 1) value h hfuel
  | fuel + 1, .assign target value, a, lo, id, ⟨i, hn, hv, hi⟩, hfuel => by
    refine .get ?_
    rw [hn, Stmt.replace]
    refine ((counts_replaceExpr fuel value hv (by omega)).part hn (.head _) (Nat.le_refl lo) hi).imp ?_
    rintro n a1 ⟨⟨hv1, hsame⟩, hn1, -⟩
    exact ⟨⟨i, hn1, hv1, hi⟩, by simp [hsame]⟩
  | fuel + 1, .ret none, a, lo, id, h, hfuel => by
    refine .get ?_
    rw [h.1]
    exact .pure rfl ⟨h, iff_of_true rfl rfl⟩
  | fuel + 1, .ret (some value), a, lo, id, ⟨i, hn, hv, hi⟩, hfuel => by
    refine .get ?_
    rw [hn, Stmt.replace]
    refine ((counts_replaceExpr fuel value hv (by omega)).part hn (.head _) (Nat.le_refl lo) hi).imp ?_
    rintro n a1 ⟨⟨hv1, hsame⟩, hn1, -⟩
    exact ⟨⟨i, hn1, hv1, hi⟩, by simp [hsame]⟩
  | fuel + 1, .block body, a, lo, id, h, hfuel => by
    simp only [Stmt.replace, Stmt.replaceAll_eq, Stmt.block.injEq]
    exact counts_replaceList (fuel + 1) body h hfuel
  | fuel + 1, .ifElse cond thenBody none, a, lo, id, ⟨k, i, hn, hc, ht, hi⟩, hfuel => by
    have hck := hc.le
    have hti := ht.le
    refine .get ?_
    simp only [hn, Stmt.replace, Stmt.replaceAll_eq]
    refine .pair (counts_replaceExpr fuel cond hc (by omega)) (fun a1 hd =>
      counts_replaceList fuel thenBody (ht.behind hd (Nat.lt_succ_self k)) (by omega)) hn (.head _)
      (.tail _ (.head _)) hck (by omega) hi ?_
    rintro n1 n2 a1 a2 - ⟨hc1, hsame1⟩ hd2 ⟨ht2, hsame2⟩ hn2
    refine .pure (by omega) ⟨⟨k, i, hn2, hc1.ahead hd2 (Nat.lt_succ_self k), ht2, hi⟩, ?_⟩
    simp [hsame1, hsame2]
  | fuel + 1, .ifElse cond thenBody (some elseBody), a, lo, id, ⟨k, i, j, hn, hc, ht, he, hj⟩,
      hfuel => by
    have hck := hc.le
    have hti := ht.le
    have hej := he.le
    refine .get ?_
    simp only [hn, Stmt.replace, Stmt.replaceAll_eq, Node.children, Option.toList, total, bind_assoc,
      pure_bind]
    refine .pair (counts_replaceExpr fuel cond hc (by omega)) (fun a1 hd =>
      counts_replaceList fuel thenBody (ht.behind hd (Nat.lt_succ_self k)) (by omega)) hn (.head _)
      (.tail _ (.head _)) hck (by omega) (by omega) ?_
    rintro n1 n2 a1 a2 hd1 ⟨hc1, hsame1⟩ hd2 ⟨ht2, hsame2⟩ hn2
    have he2 := (he.behind hd1 (by omega)).behind hd2 (Nat.lt_succ_self i)
    refine ((counts_replaceList fuel elseBody he2 (by omega)).part hn2 (.tail _ (.tail _ (.head _)))
      (by omega) hj).bind ?_
    rintro n3 a3 ⟨⟨he3, hsame3⟩, hn3, hd3⟩
    refine .pure (by omega) ⟨⟨k, i, j, hn3, (hc1.ahead hd2 (Nat.lt_succ_self k)).ahead hd3 (by omega),
      ht2.ahead hd3 (Nat.lt_succ_self i), he3, hj⟩, ?_⟩
    simp [hsame1, hsame2, hsame3]
  | fuel + 1, .whileLoop cond body, a, lo, id, ⟨k, i, hn, hc, hb, hi⟩, hfuel => by
    have hck := hc.le
    have hbi := hb.le
    refine .get ?_
    simp only [hn, Stmt.replace, Stmt.replaceAll_eq]
    refine .pair (counts_replaceExpr fuel cond hc (by omega)) (fun a1 hd =>
      counts_replaceList fuel body (hb.behind hd (Nat.lt_succ_self k)) (by omega)) hn (.head _)
      (.tail _ (.head _)) hck (by omega) hi ?_
    rintro n1 n2 a1 a2 - ⟨hc1, hsame1⟩ hd2 ⟨hb2, hsame2⟩ hn2
    refine .pure (by omega) ⟨⟨k, i, hn2, hc1.ahead hd2 (Nat.lt_succ_self k), hb2, hi⟩, ?_⟩
    simp [hsame1, hsame2]
  | fuel + 1, .function f params declared body, a, lo, id, ⟨i, hn, hb, hi⟩, _ => by
    refine .get ?_
    rw [hn]
    exact .pure rfl ⟨⟨i, hn, hb, hi⟩, iff_of_true rfl rfl⟩

end

theorem counts_replaceReads_expr {e : Expr} (h : e.At a lo id) :
    Counts (ReadOf name c) (replaceReads name c.node id) a lo id
      fun n a' => (e.replace name c).At a' lo id ∧ (n = 0 ↔ e.replace name c = e) :=
  .get (counts_replaceExpr a.size e h h.lt_size)

theorem counts_replaceReads_list (h : ListAt a body none lo id) :
    Counts (ReadOf name c) (replaceReads name c.node id) a lo id
      fun n a' => ListAt a' (body.map (Stmt.replace name c)) none lo id ∧
        (n = 0 ↔ body.map (Stmt.replace name c) = body) :=
  .get (counts_replaceList a.size body h h.lt_size)

theorem counts_replaceReads_stmt (h : s.At a lo id) :
    Counts (ReadOf name c) (replaceReads name c.node id) a lo id
      fun n a' => (s.replace name c).At a' lo id ∧ (n = 0 ↔ s.replace name c = s) :=
  .get (counts_replaceStmt a.size s h h.lt_size)

end Edit

/-! ## Assignments -/

namespace Arena

variable {name : String} {a : Arena}

mutual

/-- An expression assigns nothing. -/
theorem writesAt_expr : ∀ (fuel : Nat) (e : Expr) {lo id : Nat}, e.At a lo id →
    a.writesAt name fuel id = false
  | 0, _, _, _, _ => rfl
  | fuel + 1, .constant k, lo, id, h => by
    rw [writesAt, h.1]
    cases k <;> rfl
  | fuel + 1, .var other, lo, id, h => by rw [writesAt, h.1]; rfl
  | fuel + 1, .binary op left right, lo, id, ⟨i, j, hn, hl, hr, _⟩ => by
    simp [writesAt, hn, Node.children, writesAt_expr fuel left hl, writesAt_expr fuel right hr]
  | fuel + 1, .unary op operand, lo, id, ⟨i, hn, ho, _⟩ => by
    simp [writesAt, hn, Node.children, writesAt_expr fuel operand ho]
  | fuel + 1, .call callee args, lo, id, ⟨link, hn, hargs⟩ => by
    rw [writesAt, hn]
    exact writesAt_args fuel args hargs

theorem writesAt_args : ∀ (fuel : Nat) (args : List Expr) {lo hi : Nat} {link : Option Nat},
    ArgsAt a args lo hi link → link.toList.any (a.writesAt name fuel) = false
  | _, [], lo, hi, link, h => by rw [h.1]; rfl
  | 0, _ :: _, lo, hi, link, _ => by cases link <;> rfl
  | fuel + 1, e :: rest, lo, hi, link, ⟨l, i, next, hlink, hl, hn, he, hrest⟩ => by
    simp only [hlink, Option.toList_some, List.any_cons, List.any_nil, Bool.or_false, writesAt, hn,
      Node.children, writesAt_expr fuel e he, writesAt_args fuel rest hrest]

end

mutual

theorem writesAt_list : ∀ (fuel : Nat) (body : List Stmt) {lo id : Nat}, ListAt a body none lo id →
    id < fuel → a.writesAt name fuel id = Stmt.writesAny name body
  | 0, _, _, _, _, hfuel => absurd hfuel (Nat.not_lt_zero _)
  | fuel + 1, body, lo, id, h, hfuel => by
    rcases body.eq_nil_or_concat' with rfl | ⟨body, s, rfl⟩
    · rcases h with h | ⟨_, hn, _, _⟩
      · cases h
      · rw [writesAt, hn]
        rfl
    · obtain ⟨i, lo', prev, hi, hn, hat, hprev⟩ := listAt_concat.mp h
      rw [writesAt, hn, Stmt.writesAny_append]
      have hlast := writesAt_stmt fuel s hat (by omega)
      rcases hprev with ⟨rfl, rfl, rfl⟩ | ⟨_, p, hbody, rfl, rfl⟩
      · simp [Node.children, Stmt.writesAny, hlast]
      · have hp := hat.le
        simp [Node.children, Stmt.writesAny, hlast, writesAt_list fuel body hbody (by omega)]

theorem writesAt_stmt : ∀ (fuel : Nat) (s : Stmt) {lo id : Nat}, s.At a lo id → id < fuel →
    a.writesAt name fuel id = s.writes name
  | 0, _, _, _, _, hfuel => absurd hfuel (Nat.not_lt_zero _)
  | fuel + 1, .assign target value, lo, id, ⟨i, hn, hv, _⟩, _ => by
    rw [writesAt, hn, Stmt.writes]
    simp only [writesAt_expr fuel value hv, Bool.or_false]
  | fuel + 1, .expr value, lo, id, h, _ => writesAt_expr (fuel + 1) value h
  | fuel + 1, .ret none, lo, id, h, _ => by rw [writesAt, h.1]; rfl
  | fuel + 1, .ret (some value), lo, id, ⟨i, hn, hv, _⟩, _ => by
    simp [writesAt, hn, Node.children, writesAt_expr fuel value hv, Stmt.writes]
  | fuel + 1, .block body, lo, id, h, hfuel => writesAt_list (fuel + 1) body h hfuel
  | fuel + 1, .ifElse cond thenBody none, lo, id, ⟨k, i, hn, hc, ht, hi⟩, hfuel => by
    have hthen := writesAt_list fuel thenBody ht (by omega)
    simp [writesAt, hn, Node.children, writesAt_expr fuel cond hc, hthen, Stmt.writes]
  | fuel + 1, .ifElse cond thenBody (some elseBody), lo, id, ⟨k, i, j, hn, hc, ht, he, hj⟩,
      hfuel => by
    have hij := he.le
    have hthen := writesAt_list fuel thenBody ht (by omega)
    have helse := writesAt_list fuel elseBody he (by omega)
    simp [writesAt, hn, Node.children, writesAt_expr fuel cond hc, hthen, helse, Stmt.writes]
  | fuel + 1, .whileLoop cond body, lo, id, ⟨k, i, hn, hc, hb, hi⟩, hfuel => by
    have hbody := writesAt_list fuel body hb (by omega)
    simp [writesAt, hn, Node.children, writesAt_expr fuel cond hc, hbody, Stmt.writes]
  | fuel + 1, .function f params declared body, lo, id, ⟨i, hn, _⟩, _ => by
    rw [writesAt, hn]
    rfl

end

/-- A list in an arena assigns a variable just if one of its statements does. -/
theorem writes_eq (h : ListAt a body none lo id) : a.writes name id = Stmt.writesAny name body :=
  writesAt_list a.size body h h.lt_size

end Arena

/-! ## Spreading -/

namespace Edit

open Arena

variable {name : String} {c : Constant}

/-- Spreading over statements in slots. -/
theorem untilStop_slots (name : String) (c : Constant) (step : Nat → Edit Spread) {root : Nat}
    {slots : List Slot} :
    ∀ {body : List Stmt} {a : Arena}, List.Forall₂ (fun s t => t.At a s.lo s.id) slots body →
      slots.Pairwise Slot.Before → a.Linked root slots →
      (∀ t ∈ body, ∀ (a : Arena), ∀ s ∈ slots, t.At a s.lo s.id →
        Makes (ReadOf name c) Spread.replaced 0 (step s.id) a s.lo s.id fun r a' =>
          (t.spread name c).At a' s.lo s.id ∧ r.stop = t.writes name ∧
            (r.replaced = 0 ↔ t.spread name c = t)) →
      let ran := untilStop step (slots.map (·.id)) a
      (ran.1.stop = Stmt.writesAny name body ∧
        (ran.1.replaced = 0 ↔ Stmt.spreadAll name c body = body)) ∧
        List.Forall₂ (fun s t => t.At ran.2 s.lo s.id) slots (Stmt.spreadAll name c body) ∧
        Overwrites (ReadOf name c) root (fun i => ∃ s ∈ slots, s.Has i) ran.1.replaced a ran.2 := by
  induction slots with
  | nil =>
    intro body a heach _ _ _
    cases heach
    exact ⟨⟨rfl, iff_of_true rfl rfl⟩, .nil, .refl a⟩
  | cons s slots ih =>
    intro body a heach hpair hlinked hstep
    obtain ⟨hbefore, hpair⟩ := List.pairwise_cons.mp hpair
    cases heach with
    | @cons _ t _ body ht hrest =>
      obtain ⟨hover1, ht1, hstop1, hsame1⟩ := (hstep t (.head _) a s (.head _) ht).overwrites
      have hd1 := hover1.differs
      have hrest1 := local_stmt.behind hrest hd1 hbefore
      have hrun : untilStop step ((s :: slots).map (·.id)) a =
        (if (step s.id a).1.stop then _ else _ : Edit Spread) (step s.id a).2 := rfl
      dsimp only
      rw [hrun, Stmt.writesAny, Stmt.spreadAll]
      cases hstop : t.writes name with
      | true =>
        rw [if_pos (hstop1.trans hstop)]
        refine ⟨⟨hstop1.trans hstop, hsame1.trans ?_⟩,
          (local_stmt.cons ht1 hd1 hrest1 (.refl _ _) hbefore).1, hlinked.overwrites hover1 (.refl _)⟩
        simp
      | false =>
        rw [if_neg (by rw [hstop1, hstop]; exact Bool.false_ne_true)]
        obtain ⟨⟨hstop2, hsame2⟩, heach2, hover2⟩ := ih hrest1 hpair (hlinked.tail hd1)
          fun u hu a r hr => hstep u (.tail t hu) a r (.tail s hr)
        refine ⟨⟨hstop2, Nat.add_eq_zero_iff.trans ((and_congr hsame1 hsame2).trans ?_)⟩,
          (local_stmt.cons ht1 hd1 heach2 hover2.differs hbefore).1, hlinked.overwrites hover1 hover2⟩
        simp

/-- A statement that is no assignment and has no statements in it. -/
theorem makes_spread_simple (name : String) (c : Constant) (h : s.At a lo id) :
    Makes (ReadOf name c) Spread.replaced 0 (do
      let n ← replaceReads name c.node id
      pure (⟨false, n⟩ : Spread)) a lo id fun r a' => (s.replace name c).At a' lo id ∧
        r.stop = false ∧ (r.replaced = 0 ↔ s.replace name c = s) :=
  (counts_replaceReads_stmt h).bind fun n _ h1 => .pure (Nat.zero_add n).symm ⟨h1.1, rfl, h1.2⟩

mutual

theorem makes_spreadList : ∀ (fuel : Nat) (body : List Stmt) {a : Arena} {lo id : Nat},
    ListAt a body none lo id → id < fuel →
    Makes (ReadOf name c) Spread.replaced 0 (spreadAt name c.node fuel id) a lo id
      fun r a' => ListAt a' (Stmt.spreadAll name c body) none lo id ∧
        r.stop = Stmt.writesAny name body ∧ (r.replaced = 0 ↔ Stmt.spreadAll name c body = body)
  | 0, _, _, _, _, _, hfuel => absurd hfuel (Nat.not_lt_zero _)
  | fuel + 1, body, a, lo, id, h, hfuel => by
    have hsize := h.lt_size
    obtain ⟨prev, last, hn⟩ := h.isLink
    obtain ⟨slots, hlinks, heach⟩ := listAt_iff.mp h
    have hbounds := hlinks.bounds
    refine .get ?_
    rw [hn]
    refine .get ?_
    rw [hlinks.statements_eq hsize]
    obtain ⟨hcount, heach', hover⟩ := untilStop_slots name c (spreadAt name c.node fuel)
      heach hlinks.pairwise hlinks.linked fun t _ a s hs hat =>
        makes_spreadStmt fuel t hat (by have := (hbounds s hs).2; omega)
    refine ⟨_, hover.lift hlinks.inside fun _ _ => .refl, (Nat.zero_add _).symm,
      listAt_iff.mpr ⟨slots, ?_, heach'⟩, hcount⟩
    exact hlinks.of_differs hover.differs fun k hk _ _ => hk

/-- Spreading over the statement at a place spreads over its tree.  It stops just if the statement may
assign the variable, and the tree stays as it is just if no read is counted. -/
theorem makes_spreadStmt : ∀ (fuel : Nat) (s : Stmt) {a : Arena} {lo id : Nat}, s.At a lo id →
    id < fuel → Makes (ReadOf name c) Spread.replaced 0 (spreadAt name c.node fuel id) a lo id
      fun r a' => (s.spread name c).At a' lo id ∧ r.stop = s.writes name ∧
        (r.replaced = 0 ↔ s.spread name c = s)
  | 0, _, _, _, _, _, hfuel => absurd hfuel (Nat.not_lt_zero _)
  | fuel + 1, .assign target value, a, lo, id, ⟨i, hn, hv, hi⟩, hfuel => by
    refine .get ?_
    rw [hn, Stmt.spread]
    refine ((counts_replaceReads_expr hv).part hn (.head _) (Nat.le_refl lo) hi).bind ?_
    rintro n a1 ⟨⟨hv1, hsame⟩, hn1, -⟩
    exact .pure (Nat.zero_add n).symm ⟨⟨i, hn1, hv1, hi⟩, rfl, by simp [hsame]⟩
  | fuel + 1, .expr value, a, lo, id, h, _ => by
    have hkind := h.kind_eq
    have hsimple := makes_spread_simple name c h
    refine .get ?_
    generalize a.node id = n at hkind ⊢
    cases n <;> first | exact hsimple | cases hkind
  | fuel + 1, .ret value, a, lo, id, h, _ => by
    have hkind := h.kind_eq
    have hsimple := makes_spread_simple name c h
    refine .get ?_
    generalize a.node id = n at hkind ⊢
    cases n <;> first | exact hsimple | cases hkind
  | fuel + 1, .block body, _, _, _, h, hfuel => by
    simp only [Stmt.spread, Stmt.block.injEq]
    exact makes_spreadList (fuel + 1) body h hfuel
  | fuel + 1, .ifElse cond thenBody none, a, lo, id, ⟨k, i, hn, hc, ht, hi⟩, hfuel => by
    have hck := hc.le
    have hti := ht.le
    refine .get ?_
    rw [hn, Stmt.spread, Stmt.writes]
    refine .pair (counts_replaceReads_expr hc) (fun a1 hd =>
      makes_spreadList fuel thenBody (ht.behind hd (Nat.lt_succ_self k)) (by omega)) hn (.head _)
      (.tail _ (.head _)) hck (by omega) hi ?_
    rintro n yes a1 a2 - ⟨hc1, hsame1⟩ hd2 ⟨ht2, hyes, hsame2⟩ hn2
    refine .pure (by simp) ⟨⟨k, i, hn2, hc1.ahead hd2 (Nat.lt_succ_self k), ht2, hi⟩, hyes, ?_⟩
    simp [hsame1, hsame2]
  | fuel + 1, .ifElse cond thenBody (some elseBody), a, lo, id, ⟨k, i, j, hn, hc, ht, he, hj⟩,
      hfuel => by
    have hck := hc.le
    have hti := ht.le
    have hej := he.le
    refine .get ?_
    rw [hn, Stmt.spread, Stmt.writes]
    refine .pair (counts_replaceReads_expr hc) (fun a1 hd =>
      makes_spreadList fuel thenBody (ht.behind hd (Nat.lt_succ_self k)) (by omega)) hn (.head _)
      (.tail _ (.head _)) hck (by omega) (by omega) ?_
    rintro n yes a1 a2 hd1 ⟨hc1, hsame1⟩ hd2 ⟨ht2, hyes, hsame2⟩ hn2
    have he2 := (he.behind hd1 (by omega)).behind hd2 (Nat.lt_succ_self i)
    refine ((makes_spreadList fuel elseBody he2 (by omega)).part hn2 (.tail _ (.tail _ (.head _)))
      (by omega) hj).bind ?_
    rintro no a3 ⟨⟨he3, hno, hsame3⟩, hn3, hd3⟩
    refine .pure (by simp) ⟨⟨k, i, j, hn3, (hc1.ahead hd2 (Nat.lt_succ_self k)).ahead hd3 (by omega),
      ht2.ahead hd3 (Nat.lt_succ_self i), he3, hj⟩, congrArg₂ (· || ·) hyes hno, ?_⟩
    simp [hsame1, hsame2, hsame3, and_assoc]
  | fuel + 1, .whileLoop cond body, a, lo, id, h, _ => by
    have ⟨k, i, hn, hc, hb, hi⟩ := h
    have hck := hc.le
    have hbi := hb.le
    refine .get ?_
    rw [hn]
    refine .get ?_
    rw [Arena.writes_eq hb, Stmt.writes, Stmt.spread, Stmt.replaceAll_eq]
    cases hwrites : Stmt.writesAny name body with
    | true => exact .pure rfl ⟨h, rfl, iff_of_true rfl rfl⟩
    | false =>
      refine .pair (counts_replaceReads_expr hc) (fun a1 hd =>
        counts_replaceReads_list (hb.behind hd (Nat.lt_succ_self k))) hn (.head _)
        (.tail _ (.head _)) hck (by omega) hi ?_
      rintro n1 n2 a1 a2 - ⟨hc1, hsame1⟩ hd2 ⟨hb2, hsame2⟩ hn2
      refine .pure (by simp) ⟨⟨k, i, hn2, hc1.ahead hd2 (Nat.lt_succ_self k), hb2, hi⟩, rfl, ?_⟩
      simp [hsame1, hsame2]
  | fuel + 1, .function f params declared body, a, lo, id, ⟨i, hn, hb, hi⟩, _ => by
    refine .get ?_
    rw [hn]
    exact .pure rfl ⟨⟨i, hn, hb, hi⟩, rfl, iff_of_true rfl rfl⟩

end

end Edit

end Ifj22
