import Ifj22.Proofs.Simplify.Substitute
set_option autoImplicit false

/-!
# Simplify: passes over an arena

A pass over an arena that holds a list of statements leaves an arena that holds what the pass makes
of them, and counts the places that it overwrites.  If it counts no change, there is nothing for a pass
to do in them.  So a simplified program holds a list that passes make of its statements.
-/

namespace Ifj22

variable {a : Arena} {fuel id lo : Nat} {body thenBody : List Stmt} {t : Stmt} {cond : Expr}
  {elseBody : Option (List Stmt)}

theorem Node.truth?_eq (n : Node) : n.truth? = n.constant?.bind Constant.truth? := by
  cases n <;> rfl

theorem Expr.At.truth?_eq {e : Expr} (h : e.At a lo id) : (a.node id).truth? = e.truth? := by
  rw [Node.truth?_eq, h.constant?_eq, Expr.truth?]

/-- A list whose last link is copied to a later place stands there too. -/
theorem ListAt.moveRoot {i : Nat} (h : ListAt a body none lo i) (hi : i < id) (hid : id < a.size) :
    ListAt (a.set id (a.node i)) body none lo id := by
  have hd := Arena.Differs.set a id (a.node i)
  have hroot : (a.set id (a.node i)).node id = a.node i := by
    rw [Arena.node_set, if_pos ⟨rfl, hid⟩]
  rcases body.eq_nil_or_concat' with rfl | ⟨init, s, rfl⟩
  · rcases h with h | ⟨_, hn, _, hlo⟩
    · cases h
    · exact .inr ⟨rfl, hroot.trans hn, by rwa [Arena.size_set], by omega⟩
  · obtain ⟨k, lo', prev, hk, hn, hs, hprev⟩ := listAt_concat.mp h
    have hs' : s.At (a.set id (a.node i)) lo' k := hs.of_differs hd fun j hj => .inr (by omega)
    refine listAt_concat.mpr ⟨k, lo', prev, by omega, hroot.trans hn, hs', ?_⟩
    rcases hprev with hnil | ⟨hne, p, hbody, hp, hlo'⟩
    · exact .inl hnil
    · have := hs.le
      exact .inr ⟨hne, p, hbody.of_differs hd fun j hj => .inr (by omega), hp, hlo'⟩

namespace Edit

open Arena

/-! ## Spreading what a statement assigns -/

/-- Only an assignment has the node of one. -/
theorem node_ne_assign (h : t.At a lo id) (ht : ∀ target value, t ≠ .assign target value)
    (target : String) (value : NodeId) : a.node id ≠ .assign target value := by
  intro hn
  have hkind := h.kind_eq
  rw [hn] at hkind
  cases t with
  | assign target value => exact ht target value rfl
  | _ => cases hkind

theorem spreadAssigned_of_ne (h : ∀ target value, a.node id ≠ .assign target value)
    (later : List NodeId) : spreadAssigned id later a = (0, a) := by
  unfold spreadAssigned
  rw [get_bind]
  cases hn : a.node id with
  | assign target value => exact absurd hn (h target value)
  | _ => rfl

/-- What a statement assigns is spread over the slots behind it, which stay as they are just if no
change is counted. -/
theorem spreadAssigned_slots {s : Slot} {slots : List Slot} {later : List Stmt} {root : Nat}
    (ht : t.At a s.lo s.id) (heach : List.Forall₂ (fun s t => t.At a s.lo s.id) slots later)
    (hpair : slots.Pairwise Slot.Before) (hlinked : a.Linked root slots) :
    let ran := spreadAssigned s.id (slots.map (·.id)) a
    (ran.1 = 0 ↔ t.spreadBehind later = later) ∧
      List.Forall₂ (fun s t => t.At ran.2 s.lo s.id) slots (t.spreadBehind later) ∧
      Overwrites GivesWay root (fun i => ∃ s ∈ slots, s.Has i) ran.1 a ran.2 := by
  dsimp only
  cases t with
  | assign target value =>
    obtain ⟨i, hn, hv, hi⟩ := ht
    have hconst := hv.constant?_eq
    unfold spreadAssigned
    rw [get_bind, hn]
    dsimp only
    cases value with
    | constant c =>
      rw [if_pos ((Node.isLiteral_iff _).mpr ⟨c, hv.1⟩), hv.1]
      obtain ⟨hcount, hspread, hover⟩ := untilStop_slots target c (spread target c.node) heach hpair
        hlinked fun u _ a r _ hat => .get (makes_spreadStmt a.size u hat hat.lt_size)
      exact ⟨hcount.2, hspread, hover.imp ReadOf.givesWay⟩
    | _ =>
      have hliteral : ¬ (a.node i).isLiteral = true := by
        intro h
        obtain ⟨c, hc⟩ := (Node.isLiteral_iff _).mp h
        rw [hc, Constant.constant?_node] at hconst
        cases hconst
      rw [if_neg hliteral]
      exact ⟨iff_of_true rfl rfl, heach, .refl a⟩
  | _ =>
    rw [spreadAssigned_of_ne (node_ne_assign ht (by simp))]
    exact ⟨iff_of_true rfl rfl, heach, .refl a⟩

/-! ## Passes -/

/-- A pass makes the second statement of the first one. -/
def SweepsTo (s s' : Stmt) : Prop :=
  ∀ {later rest : List Stmt}, Sweeps (s'.spreadBehind later) rest → Sweeps (s :: later) (s' :: rest)

/-- What a pass with `n` changes makes of the statement stands from `lo` to `id`. -/
def Simplified (s : Stmt) (lo id n : Nat) (a' : Arena) : Prop :=
  ∃ s', Stmt.At a' s' lo id ∧ SweepsTo s s' ∧ (n = 0 → s' = s ∧ s.Normal)

/-- What a pass with `n` changes makes of the list stands from `lo` to `id`. -/
def Swept (body : List Stmt) (lo id n : Nat) (a' : Arena) : Prop :=
  ∃ body', ListAt a' body' none lo id ∧ Sweeps body body' ∧
    (n = 0 → body' = body ∧ Stmt.NormalList body)

/-- The statement at any place below `fuel` is simplified as its tree is. -/
def SimplifiesAt (fuel : Nat) : Prop :=
  ∀ (s : Stmt) (a : Arena) (lo id : Nat), s.At a lo id → id < fuel →
    Counts GivesWay (stmtAt fuel id) a lo id (Simplified s lo id)

/-- A pass over statements, each in a slot of its own: what is done in one leaves the others. -/
theorem sweep_slots (hstep : SimplifiesAt fuel) {root : Nat} {slots : List Slot} :
    ∀ {body : List Stmt} {a : Arena}, List.Forall₂ (fun s t => t.At a s.lo s.id) slots body →
      slots.Pairwise Slot.Before → a.Linked root slots → (∀ s ∈ slots, s.id < fuel) →
      let ran := sweep (stmtAt fuel) (slots.map (·.id)) a
      Overwrites GivesWay root (fun i => ∃ s ∈ slots, s.Has i) ran.1 a ran.2 ∧
        ∃ body', List.Forall₂ (fun s t => t.At ran.2 s.lo s.id) slots body' ∧ Sweeps body body' ∧
          (ran.1 = 0 → body' = body ∧ Stmt.NormalList body) := by
  induction slots with
  | nil =>
    intro body a heach _ _ _
    cases heach
    exact ⟨.refl a, [], .nil, .nil, fun _ => ⟨rfl, .nil⟩⟩
  | cons s slots ih =>
    intro body a heach hpair hlinked hfuel
    obtain ⟨hbefore, hpair⟩ := List.pairwise_cons.mp hpair
    cases heach with
    | @cons _ t _ later ht hrest =>
      obtain ⟨hover1, t', ht1, hsweeps, hidle1⟩ :=
        (hstep t a s.lo s.id ht (hfuel s (.head _))).overwrites
      have hd1 := hover1.differs
      have hlinked1 := hlinked.tail hd1
      obtain ⟨hspent, hrest2, hover2⟩ :=
        spreadAssigned_slots ht1 (local_stmt.behind hrest hd1 hbefore) hpair hlinked1
      obtain ⟨hover3, rest, hrest3, hsweep, hidle3⟩ := ih hrest2 hpair
        (hlinked1.of_differs hover2.differs) fun r hr => hfuel r (.tail s hr)
      have hover := hover2.trans hover3
      refine ⟨?_, t' :: rest, (local_stmt.cons ht1 hd1 hrest3 hover.differs hbefore).1,
        hsweeps hsweep, fun hzero => ?_⟩
      · have hall := hlinked.overwrites hover1 hover
        rwa [← Nat.add_assoc] at hall
      obtain ⟨hzero, hzero3⟩ := Nat.add_eq_zero_iff.mp hzero
      obtain ⟨hzero1, hzero2⟩ := Nat.add_eq_zero_iff.mp hzero
      obtain ⟨rfl, hnormal⟩ := hidle1 hzero1
      rw [hspent.mp hzero2] at hidle3
      obtain ⟨rfl, hlater⟩ := hidle3 hzero3
      exact ⟨rfl, .cons hnormal (hspent.mp hzero2) hlater⟩

/-- The list at a place, with its statements below `fuel`, is swept as its tree is. -/
theorem counts_sweepList (hstep : SimplifiesAt fuel) (h : ListAt a body none lo id)
    (hfuel : id ≤ fuel) :
    Counts GivesWay (sweepList (stmtAt fuel) id) a lo id (Swept body lo id) := by
  have hsize := h.lt_size
  obtain ⟨slots, hlinks, heach⟩ := listAt_iff.mp h
  refine .get ?_
  rw [hlinks.statements_eq hsize]
  obtain ⟨hover, body', heach', hsweeps⟩ := sweep_slots hstep heach hlinks.pairwise hlinks.linked
    fun s hs => Nat.lt_of_lt_of_le (hlinks.bounds s hs).2 hfuel
  refine ⟨_, hover.lift hlinks.inside fun _ _ => .refl, (Nat.zero_add _).symm, body',
    listAt_iff.mpr ⟨slots, ?_, heach'⟩, hsweeps⟩
  exact hlinks.of_differs hover.differs fun k hk _ _ => hk

/-- The branch that a decided condition takes stands in the place of the conditional. -/
theorem taken_at (h : (Stmt.ifElse cond thenBody elseBody).At a lo id) :
    ∃ (k i : Nat) (other : Option Nat), a.node id = .ifElse k i other ∧ cond.At a lo k ∧ k < id ∧
      ∀ a1, a.Differs (Slot.mk lo k).Has a1 → ∀ b : Bool, GivesWay a1 id (taken a1 i other b) ∧
        ListAt (a1.set id (taken a1 i other b)) (if b then thenBody else elseBody.getD []) none
          lo id := by
  have hid := h.lt_size
  -- a branch is a list, so its root is a link
  have hgives : ∀ {a1 : Arena} {k i b lo : Nat} {other : Option Nat} {body : List Stmt},
      a1.node id = .ifElse k i other → b ∈ i :: other.toList → ListAt a1 body none lo b →
      GivesWay a1 id (a1.node b) := by
    intro a1 k i b lo other body hn hb hlist
    obtain ⟨prev, last, hlink⟩ := hlist.isLink
    refine ⟨by rw [hn]; rfl, by rw [hlink]; rfl, fun c hc => ?_⟩
    exact .head (by rw [Arena.children, hn]; exact .tail _ hb) (.single hc)
  cases elseBody with
  | none =>
    obtain ⟨k, i, hn, hc, ht, hi⟩ := h
    have hck := hc.le
    have hti := ht.le
    refine ⟨k, i, none, hn, hc, by omega, fun a1 hd1 b => ?_⟩
    have hid1 : id < a1.size := by rwa [hd1.size_eq]
    have hn1 := (hd1.node_behind (by omega)).trans hn
    cases b with
    | true =>
      have ht1 := ht.behind hd1 (Nat.lt_succ_self k)
      exact ⟨hgives hn1 (.head _) ht1, (ht1.moveRoot hi hid1).mono (by omega)⟩
    | false =>
      refine ⟨⟨by rw [hn1]; rfl, rfl, nofun⟩, .inr ⟨rfl, ?_, by rwa [Arena.size_set], by omega⟩⟩
      rw [Arena.node_set, if_pos ⟨rfl, hid1⟩]
      rfl
  | some elseBody =>
    obtain ⟨k, i, j, hn, hc, ht, he, hj⟩ := h
    have hck := hc.le
    have hti := ht.le
    have hej := he.le
    refine ⟨k, i, some j, hn, hc, by omega, fun a1 hd1 b => ?_⟩
    have hid1 : id < a1.size := by rwa [hd1.size_eq]
    have hn1 := (hd1.node_behind (by omega)).trans hn
    cases b with
    | true =>
      have ht1 := ht.behind hd1 (Nat.lt_succ_self k)
      exact ⟨hgives hn1 (.head _) ht1, (ht1.moveRoot (by omega) hid1).mono (by omega)⟩
    | false =>
      have he1 := he.behind hd1 (by omega)
      exact ⟨hgives hn1 (.tail _ (.head _)) he1, (he1.moveRoot hj hid1).mono (by omega)⟩

theorem simplifies_assign {target : String} {value : Expr}
    (h : (Stmt.assign target value).At a lo id) :
    Counts GivesWay (stmtAt (fuel + 1) id) a lo id (Simplified (.assign target value) lo id) := by
  obtain ⟨i, hn, hv, hi⟩ := h
  refine .get ?_
  rw [hn]
  refine ((counts_fold hv).part hn (.head _) (Nat.le_refl lo) hi).imp ?_
  rintro n a1 ⟨⟨hv1, hsame⟩, hn1, -⟩
  exact ⟨.assign target value.fold, ⟨i, hn1, hv1, hi⟩, fun hrest => .assign hrest,
    fun hzero => ⟨by rw [hsame hzero], .assign (hsame hzero)⟩⟩

theorem stmtAt_expr {e : Expr} (h : e.At a lo id) : stmtAt (fuel + 1) id a = fold id a := by
  have hkind := h.kind_eq
  unfold stmtAt
  rw [get_bind]
  generalize a.node id = n at hkind ⊢
  cases n <;> first | rfl | cases hkind

theorem simplifies_expr {value : Expr} (h : (Stmt.expr value).At a lo id) :
    Counts GivesWay (stmtAt (fuel + 1) id) a lo id (Simplified (.expr value) lo id) := by
  unfold Counts Makes
  rw [stmtAt_expr (e := value) h]
  refine (counts_fold (e := value) h).imp ?_
  rintro n a1 ⟨h1, hsame⟩
  exact ⟨.expr value.fold, h1, fun hrest => .expr hrest,
    fun hzero => ⟨by rw [hsame hzero], .expr (hsame hzero)⟩⟩

theorem simplifies_ret {value : Option Expr} (h : (Stmt.ret value).At a lo id) :
    Counts GivesWay (stmtAt (fuel + 1) id) a lo id (Simplified (.ret value) lo id) := by
  refine .get ?_
  cases value with
  | none =>
    rw [h.1]
    exact .pure rfl ⟨.ret none, h, fun hrest => .ret hrest, fun _ => ⟨rfl, .ret rfl⟩⟩
  | some value =>
    obtain ⟨i, hn, hv, hi⟩ := h
    rw [hn]
    refine ((counts_fold hv).part hn (.head _) (Nat.le_refl lo) hi).imp ?_
    rintro n a1 ⟨⟨hv1, hsame⟩, hn1, -⟩
    exact ⟨.ret (some value.fold), ⟨i, hn1, hv1, hi⟩,
      fun hrest => .ret hrest,
      fun hzero => ⟨by rw [hsame hzero], .ret (congrArg some (hsame hzero))⟩⟩

theorem simplifies_whileLoop (hstep : SimplifiesAt fuel) (h : (Stmt.whileLoop cond body).At a lo id)
    (hfuel : id < fuel + 1) :
    Counts GivesWay (stmtAt (fuel + 1) id) a lo id (Simplified (.whileLoop cond body) lo id) := by
  obtain ⟨k, i, hn, hc, hb, hi⟩ := h
  have hck := hc.le
  have hbi := hb.le
  refine .get ?_
  rw [hn]
  refine ((counts_fold hc).part hn (.head _) (Nat.le_refl lo) (by omega)).bind ?_
  rintro n1 a1 ⟨⟨hc1, hsame⟩, hn1, hd1⟩
  have htruth := hc1.truth?_eq
  refine .get ?_
  by_cases hfalse : cond.fold.truth? = some false
  · rw [if_pos (htruth.trans hfalse)]
    have hsize := lt_size_of_node hn1 nofun
    have hgives : GivesWay a1 id .empty := ⟨by rw [hn1]; rfl, rfl, nofun⟩
    refine (makes_set lo hgives (by omega) hsize).bind ?_
    rintro _ _ ⟨rfl, hn2⟩
    exact .pure (by omega) ⟨.block [], .inr ⟨rfl, hn2, by rwa [Arena.size_set], by omega⟩,
      fun hrest => .skipped hfalse hrest, nofun⟩
  · rw [if_neg (by rwa [htruth])]
    have hb1 := hb.behind hd1 (Nat.lt_succ_self k)
    refine ((counts_sweepList hstep hb1 (by omega)).part hn1 (.tail _ (.head _)) (by omega) hi).bind ?_
    rintro n2 a2 ⟨⟨body', hb2, hsweeps, hidle⟩, hn2, hd2⟩
    refine .pure (by omega) ⟨.whileLoop cond.fold body',
      ⟨k, i, hn2, hc1.ahead hd2 (Nat.lt_succ_self k), hb2, hi⟩,
      fun hrest => .whileLoop hfalse hsweeps hrest, fun hzero => ?_⟩
    obtain ⟨hzero1, hzero2⟩ := Nat.add_eq_zero_iff.mp hzero
    obtain ⟨rfl, hnormal⟩ := hidle hzero2
    rw [hsame hzero1] at hfalse ⊢
    exact ⟨rfl, .whileLoop (hsame hzero1) hfalse hnormal⟩

/-- A conditional whose condition is decided. -/
theorem simplifies_taken (hstep : SimplifiesAt fuel) {b : Bool}
    (h : (Stmt.ifElse cond thenBody elseBody).At a lo id) (hfuel : id < fuel + 1)
    (hb : cond.fold.truth? = some b) :
    Counts GivesWay (stmtAt (fuel + 1) id) a lo id
      (Simplified (.ifElse cond thenBody elseBody) lo id) := by
  obtain ⟨k, i, other, hn, hc, hk, htaken⟩ := taken_at h
  have hck := hc.le
  refine .get ?_
  rw [hn]
  refine ((counts_fold hc).part hn (.head _) (Nat.le_refl lo) hk).bind ?_
  rintro n1 a1 ⟨⟨hc1, -⟩, hn1, hd1⟩
  refine .get ?_
  rw [hc1.truth?_eq.trans hb]
  obtain ⟨hgives, hbranch⟩ := htaken a1 hd1 b
  refine (makes_set lo hgives (by omega) (lt_size_of_node hn1 nofun)).bind ?_
  rintro _ _ ⟨rfl, -⟩
  refine (counts_sweepList hstep hbranch (Nat.le_of_lt_succ hfuel)).bind ?_
  rintro n2 a2 ⟨body', h2, hsweeps, -⟩
  refine .pure (by omega) ⟨.block body', h2, fun hrest => .taken hb hsweeps hrest, fun hzero => ?_⟩
  exact absurd (Nat.add_eq_zero_iff.mp hzero).1 (Nat.succ_ne_zero n1)

/-- A conditional that stays: condition and branches are simplified where they are. -/
theorem simplifies_ifElse (hstep : SimplifiesAt fuel)
    (h : (Stmt.ifElse cond thenBody elseBody).At a lo id) (hfuel : id < fuel + 1)
    (hnone : cond.fold.truth? = none) :
    Counts GivesWay (stmtAt (fuel + 1) id) a lo id
      (Simplified (.ifElse cond thenBody elseBody) lo id) := by
  cases elseBody with
  | none =>
    obtain ⟨k, i, hn, hc, ht, hi⟩ := h
    have hck := hc.le
    have hti := ht.le
    refine .get ?_
    rw [hn]
    refine ((counts_fold hc).part hn (.head _) (Nat.le_refl lo) (by omega)).bind ?_
    rintro n1 a1 ⟨⟨hc1, hsame⟩, hn1, hd1⟩
    refine .get ?_
    rw [hc1.truth?_eq.trans hnone]
    have ht1 := ht.behind hd1 (Nat.lt_succ_self k)
    refine ((counts_sweepList hstep ht1 (by omega)).part hn1 (.tail _ (.head _)) (by omega) hi).bind ?_
    rintro n2 a2 ⟨⟨body', ht2, hsweeps, hidle⟩, hn2, hd2⟩
    refine .pure (by omega) ⟨.ifElse cond.fold body' none,
      ⟨k, i, hn2, hc1.ahead hd2 (Nat.lt_succ_self k), ht2, hi⟩,
      fun hrest => .ifElse hnone hsweeps rfl .nil hrest, fun hzero => ?_⟩
    obtain ⟨hzero1, hzero2⟩ := Nat.add_eq_zero_iff.mp (show n1 + n2 = 0 from hzero)
    obtain ⟨rfl, hnormal⟩ := hidle hzero2
    rw [hsame hzero1] at hnone ⊢
    exact ⟨rfl, .ifElse (hsame hzero1) hnone hnormal .nil⟩
  | some elseBody =>
    obtain ⟨k, i, j, hn, hc, ht, he, hj⟩ := h
    have hck := hc.le
    have hti := ht.le
    have hej := he.le
    refine .get ?_
    rw [hn]
    refine ((counts_fold hc).part hn (.head _) (Nat.le_refl lo) (by omega)).bind ?_
    rintro n1 a1 ⟨⟨hc1, hsame⟩, hn1, hd1⟩
    refine .get ?_
    rw [hc1.truth?_eq.trans hnone]
    have ht1 := ht.behind hd1 (Nat.lt_succ_self k)
    refine ((counts_sweepList hstep ht1 (by omega)).part hn1 (.tail _ (.head _)) (by omega)
      (by omega)).bind ?_
    rintro n2 a2 ⟨⟨body', ht2, hsweeps, hidle⟩, hn2, hd2⟩
    have he2 := (he.behind hd1 (by omega)).behind hd2 (Nat.lt_succ_self i)
    refine ((counts_sweepList hstep he2 (by omega)).part hn2 (.tail _ (.tail _ (.head _))) (by omega)
      hj).bind ?_
    rintro n3 a3 ⟨⟨body'', he3, hsweeps', hidle'⟩, hn3, hd3⟩
    refine .pure (by omega) ⟨.ifElse cond.fold body' (some body''),
      ⟨k, i, j, hn3, (hc1.ahead hd2 (Nat.lt_succ_self k)).ahead hd3 (by omega),
        ht2.ahead hd3 (Nat.lt_succ_self i), he3, hj⟩,
      fun hrest => .ifElse hnone hsweeps rfl hsweeps' hrest, fun hzero => ?_⟩
    obtain ⟨hzero, hzero3⟩ := Nat.add_eq_zero_iff.mp (show n1 + n2 + n3 = 0 from hzero)
    obtain ⟨hzero1, hzero2⟩ := Nat.add_eq_zero_iff.mp hzero
    obtain ⟨rfl, hnormal⟩ := hidle hzero2
    obtain ⟨rfl, hnormal'⟩ := hidle' hzero3
    rw [hsame hzero1] at hnone ⊢
    exact ⟨rfl, .ifElse (hsame hzero1) hnone hnormal hnormal'⟩

/-- Statements at all places are simplified as their trees are. -/
theorem simplifiesAt (fuel : Nat) : SimplifiesAt fuel := by
  induction fuel with
  | zero => exact fun s a lo id _ hfuel => absurd hfuel (Nat.not_lt_zero id)
  | succ fuel ih =>
    intro s a lo id h hfuel
    cases s with
    | assign target value => exact simplifies_assign h
    | expr value => exact simplifies_expr h
    | ret value => exact simplifies_ret h
    | block body =>
      obtain ⟨prev, last, hn⟩ := ListAt.isLink h
      refine .get ?_
      rw [hn]
      refine (counts_sweepList ih h (Nat.le_of_lt_succ hfuel)).imp ?_
      rintro n a1 ⟨body', hb1, hsweeps, hidle⟩
      refine ⟨.block body', hb1, fun hrest => .block hsweeps hrest, fun hzero => ?_⟩
      obtain ⟨rfl, hnormal⟩ := hidle hzero
      exact ⟨rfl, .block hnormal⟩
    | ifElse cond thenBody elseBody =>
      cases hb : cond.fold.truth? with
      | some b => exact simplifies_taken ih h hfuel hb
      | none => exact simplifies_ifElse ih h hfuel hb
    | whileLoop cond body => exact simplifies_whileLoop ih h hfuel
    | function name params declared body =>
      obtain ⟨i, hn, hb, hi⟩ := h
      refine .get ?_
      rw [hn]
      refine ((counts_sweepList ih hb (by omega)).part hn (.head _) (Nat.le_refl lo) hi).imp ?_
      rintro n a1 ⟨⟨body', hb1, hsweeps, hidle⟩, hn1, -⟩
      refine ⟨.function name params declared body', ⟨i, hn1, hb1, hi⟩,
        fun hrest => .function hsweeps hrest, fun hzero => ?_⟩
      obtain ⟨rfl, hnormal⟩ := hidle hzero
      exact ⟨rfl, .function hnormal⟩

theorem counts_pass {root : NodeId} (h : ListAt a body none 0 root) :
    Counts GivesWay (pass root) a 0 root (Swept body 0 root) :=
  .get (counts_sweepList (simplifiesAt a.size) h (Nat.le_of_lt h.lt_size))

theorem passes_holds {root : NodeId} : ∀ (fuel : Nat) {a : Arena} {body : List Stmt},
    ListAt a body none 0 root → ∃ body', ListAt (passes root fuel a) body' none 0 root ∧
      Simplifies body body'
  | 0, a, body, h => ⟨body, h, .refl body⟩
  | fuel + 1, a, body, h => by
    obtain ⟨_, _, _, body', hbody', hsweeps, _⟩ := counts_pass h
    have hpass : passes root (fuel + 1) a =
      if (pass root a).1 = 0 then (pass root a).2 else passes root fuel (pass root a).2 := rfl
    rw [hpass]
    split
    · exact ⟨body', hbody', .step hsweeps (.refl body')⟩
    · obtain ⟨body'', hbody'', hrest⟩ := passes_holds fuel hbody'
      exact ⟨body'', hbody'', .step hsweeps hrest⟩

end Edit

/-- A simplified program holds what passes make of its statements. -/
theorem Program.Holds.simplify {p : Program} (h : p.Holds body) :
    ∃ body', p.simplify.Holds body' ∧ Simplifies body body' := Edit.passes_holds _ h

end Ifj22
