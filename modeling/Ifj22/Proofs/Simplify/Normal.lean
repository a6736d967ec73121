import Ifj22.Proofs.Simplify.Loop
set_option autoImplicit false

/-!
# Simplify: normal forms

A program is in normal form if nothing in it can be folded, decided or spread.  `Stmt.Normal` says so
of trees, `Arena.Normal` of the nodes that the root of an arena reaches.  A pass that counts no change
is a pass over a tree in normal form; so the passes end in a normal form, and more of them change
nothing.
-/

namespace Ifj22

variable {x : String} {c : Constant} {body later rest : List Stmt} {s : Stmt} {a : Arena}
  {root lo : Nat}

/-! ## Trees -/

theorem Expr.normal_binary {op : BinOp} {left right : Expr}
    (h : (Expr.binary op left right).fold = .binary op left right) :
    left.fold = left ∧ right.fold = right ∧ Expr.foldBinary? op left right = none := by
  rw [Expr.fold] at h
  cases hfold : Expr.foldBinary? op left.fold right.fold with
  | some c => rw [hfold] at h; cases h
  | none =>
    rw [hfold] at h
    obtain ⟨_, hl, hr⟩ := Expr.binary.inj h
    rw [hl, hr] at hfold
    exact ⟨hl, hr, hfold⟩

theorem Expr.normal_unary {op : UnaryOp} {operand : Expr}
    (h : (Expr.unary op operand).fold = .unary op operand) :
    operand.fold = operand ∧ Expr.foldUnary? op operand = none := by
  rw [Expr.fold] at h
  cases hfold : Expr.foldUnary? op operand.fold with
  | some c => rw [hfold] at h; cases h
  | none =>
    rw [hfold] at h
    obtain ⟨_, ho⟩ := Expr.unary.inj h
    rw [ho] at hfold
    exact ⟨ho, hfold⟩

namespace Stmt

theorem spreadAll_of_append (h : spreadAll x c (body ++ rest) = body ++ rest) :
    spreadAll x c body = body := by
  induction body with
  | nil => rfl
  | cons s body ih =>
    obtain ⟨hs, htail⟩ := List.cons.inj h
    rw [spreadAll, hs]
    split
    · rfl
    · rename_i hwrites
      rw [if_neg hwrites] at htail
      rw [ih htail]

theorem NormalList.of_append (h : NormalList (body ++ rest)) : NormalList body ∧ NormalList rest := by
  induction body with
  | nil => exact ⟨.nil, h⟩
  | cons s body ih =>
    cases h with
    | cons hs hspent h =>
      refine ⟨.cons hs ?_ (ih h).1, (ih h).2⟩
      unfold spreadBehind at hspent ⊢
      split at hspent
      · exact spreadAll_of_append hspent
      · rfl

end Stmt

/-- The parts of a tree in normal form are in normal form. -/
theorem inherits_normal :
    Inherits (fun _ s => s.Normal) (fun _ body => Stmt.NormalList body) where
  binary h := by
    cases h with
    | expr h => exact ⟨.expr (Expr.normal_binary h).1, .expr (Expr.normal_binary h).2.1⟩
  unary h := by cases h with | expr h => exact .expr (Expr.normal_unary h).1
  call {f name args} h e he := by
    cases h with
    | expr h =>
      have hargs : args.map Expr.fold = args.map id := by
        rw [← Expr.foldAll_eq, List.map_id]
        exact (Expr.call.inj h).2
      exact .expr (List.map_inj_left.mp hargs e he)
  assign h := by cases h with | assign h => exact .expr h
  ret h := by cases h with | ret h => exact .expr (Option.some.inj h)
  block h := by cases h with | block h => exact h
  ifElse h := by
    cases h with
    | ifElse hc _ ht he => exact ⟨.expr hc, ht, fun b hb => by subst hb; exact he⟩
  whileLoop h := by cases h with | whileLoop hc _ h => exact ⟨.expr hc, h⟩
  function h := by cases h with | function h => exact h
  concat h := by
    obtain ⟨hinit, hlast⟩ := h.of_append
    cases hlast with
    | cons hs => exact ⟨hinit, hs⟩

/-! ## Arenas -/

/-- Nothing that the root reaches can be folded, decided or spread.  This is said of the nodes and
not of what a pass does to them: if a pass overlooked a kind of node, what it leaves would not be
normal. -/
structure Arena.Normal (a : Arena) (root : Nat) : Prop where
  binary : ∀ {i : Nat} {op : BinOp} {l r : NodeId}, a.Reaches root i → a.node i = .binary op l r →
    Node.foldBinary? op (a.node l) (a.node r) = none
  unary : ∀ {i : Nat} {op : UnaryOp} {o : NodeId}, a.Reaches root i → a.node i = .unary op o →
    Node.foldUnary? op (a.node o) = none
  ifElse : ∀ {i : Nat} {c t : NodeId} {e : Option NodeId}, a.Reaches root i →
    a.node i = .ifElse c t e → (a.node c).isNumeric = false
  /-- No condition of a loop is zero. -/
  whileLoop : ∀ {i : Nat} {c b : NodeId}, a.Reaches root i → a.node i = .whileLoop c b →
    (∀ v, a.node c = .int v → v ≠ 0) ∧ ∀ v, a.node c = .float v → (v == 0.0) = false
  /-- An assigned constant replaces no read in the statements behind it. -/
  assign : ∀ {i s : Nat} {prev last : Option NodeId} {before later : List NodeId} {x : String}
    {v : NodeId}, a.Reaches root i → a.node i = .sequence prev last →
    a.statements i = before ++ s :: later → a.node s = .assign x v →
    (a.node v).isLiteral = true →
    ((Edit.untilStop (Edit.spread x (a.node v)) later).run a).1.replaced = 0

namespace Edit

/-- The list at a place: spreading what one of its statements assigns counts a change just if it
changes the tree. -/
theorem spreadAssigned_of_listAt {i s : Nat} {before later : List NodeId}
    (hat : ListAt a body none lo i) (hsplit : a.statements i = before ++ s :: later) :
    ∃ front t rest, body = front ++ t :: rest ∧
      ((spreadAssigned s later a).1 = 0 ↔ t.spreadBehind rest = rest) := by
  obtain ⟨slots, hlinks, heach⟩ := listAt_iff.mp hat
  rw [hlinks.statements_eq hat.lt_size] at hsplit
  obtain ⟨slots1, slots2, rfl, hbefore, hs⟩ := List.map_eq_append_iff.mp hsplit
  obtain ⟨slot, slots3, rfl, rfl, rfl⟩ := List.map_eq_cons_iff.mp hs
  have hdrop := List.forall₂_drop_append _ _ _ heach.flip
  obtain ⟨t, rest, ht, hrest, htail⟩ := List.forall₂_cons_right_iff.mp hdrop
  have hpair := (List.pairwise_append.mp hlinks.pairwise).2.1
  have hlinked : a.Linked i slots3 := hlinks.linked.mono fun _ hs => by simp [hs]
  refine ⟨body.take slots1.length, t, rest, ?_,
    (spreadAssigned_slots ht hrest.flip (List.pairwise_cons.mp hpair).2 hlinked).1⟩
  rw [← htail, List.take_append_drop]

theorem spreadAssigned_fst {s : Nat} {later : List NodeId} {v : NodeId}
    (hn : a.node s = .assign x v) (hliteral : (a.node v).isLiteral = true) :
    (spreadAssigned s later a).1 =
      ((untilStop (spread x (a.node v)) later).run a).1.replaced := by
  unfold spreadAssigned
  rw [get_bind, hn]
  show ((if (a.node v).isLiteral then _ else _ : Edit Nat) a).1 = _
  rw [if_pos hliteral]
  rfl

end Edit

theorem Node.isNumeric_eq (n : Node) : n.isNumeric = n.truth?.isSome := by
  cases n <;> rfl

/-- An arena that holds a list in normal form is in normal form. -/
theorem ListAt.normal (hat : ListAt a body none lo root) (h : Stmt.NormalList body) :
    a.Normal root := by
  have hshows : ∀ {i : Nat}, a.Reaches root i → ∃ f,
      a.Shows (fun _ s => s.Normal) (fun _ body => Stmt.NormalList body) f i := fun hreach =>
    hreach.stands.imp fun _ hstands => hstands.shows inherits_normal hat h
  refine ⟨fun hreach hn => ?_, fun hreach hn => ?_, fun hreach hn => ?_, fun hreach hn => ?_,
    fun hreach hlink hsplit hn hliteral => ?_⟩
  · obtain ⟨f, hshow⟩ := hshows hreach
    rw [Arena.Shows, hn] at hshow
    obtain ⟨left, right, lo, hl, hr, hs⟩ := hshow
    cases hs with
    | expr h =>
      rw [Node.foldBinary?_eq, hl.constant?_eq, hr.constant?_eq]
      exact congrArg (Option.map Constant.node) (Expr.normal_binary h).2.2
  · obtain ⟨f, hshow⟩ := hshows hreach
    rw [Arena.Shows, hn] at hshow
    obtain ⟨operand, lo, ho, hs⟩ := hshow
    cases hs with
    | expr h =>
      rw [Node.foldUnary?_eq, ho.constant?_eq]
      exact congrArg (Option.map Constant.node) (Expr.normal_unary h).2
  · obtain ⟨f, hshow⟩ := hshows hreach
    rw [Arena.Shows, hn] at hshow
    obtain ⟨cond, thenBody, elseBody, lo, hc, _, _, hs⟩ := hshow
    cases hs with
    | ifElse _ hopen => rw [Node.isNumeric_eq, hc.truth?_eq, hopen]; rfl
  · obtain ⟨f, hshow⟩ := hshows hreach
    rw [Arena.Shows, hn] at hshow
    obtain ⟨cond, body, lo, hc, _, hs⟩ := hshow
    cases hs with
    | whileLoop _ hopen =>
      rw [← hc.truth?_eq] at hopen
      refine ⟨fun v hv hzero => ?_, fun v hv => ?_⟩
      · rw [hv, hzero] at hopen
        exact hopen rfl
      · rw [hv] at hopen
        cases hzero : v == 0.0 with
        | false => rfl
        | true => exact absurd (by simp [Node.truth?, bne, hzero]) hopen
  · obtain ⟨f, hshow⟩ := hshows hreach
    rw [Arena.Shows, hlink] at hshow
    obtain ⟨body, lo, hlist, hnormal⟩ := hshow
    obtain ⟨front, t, rest, rfl, hcount⟩ := Edit.spreadAssigned_of_listAt hlist hsplit
    rw [← Edit.spreadAssigned_fst hn hliteral, hcount]
    cases hnormal.of_append.2 with
    | cons _ hspent => exact hspent

/-! ## Simplified programs -/

open Edit

/-- Another pass over a simplified program counts no change, and makes none. -/
theorem Program.Holds.pass_simplify {p : Program} (h : p.Holds body) :
    (pass p.root).run p.simplify.arena = (0, p.simplify.arena) := by
  obtain ⟨n, _, _, hlast, hends⟩ := h.simplify_ends
  have hidle := rewrites_pass ⟨body, h⟩ n
  rw [hlast] at hidle
  have hsame := hidle.eq_of_zero
  rw [hends, hsame]
  exact Prod.ext hlast ((after_succ p.root n p.arena).symm.trans hsame)

theorem Edit.passes_eq_self (h : (pass root).run a = (0, a)) (fuel : Nat) :
    passes root fuel a = a := by
  cases fuel with
  | zero => rfl
  | succ fuel =>
    rw [passes, h]
    rfl

/-- A list over which a pass counts no change is in normal form. -/
theorem ListAt.normalList_of_pass (h : ListAt a body none 0 root)
    (hzero : ((pass root).run a).1 = 0) : Stmt.NormalList body := by
  obtain ⟨_, _, _, _, _, _, hidle⟩ := counts_pass h
  rw [StateT.run] at hzero
  exact (hidle hzero).2

/-- A simplified program is in normal form, and simplifying it again changes nothing. -/
theorem simplify_normal_form {source : String} {p : Program} (h : p.OfText source) :
    p.simplify.arena.Normal p.simplify.root ∧ p.simplify.simplify = p.simplify := by
  obtain ⟨body, hbody⟩ := h.holds
  obtain ⟨body', hbody', _⟩ := hbody.simplify
  have hidle := hbody.pass_simplify
  refine ⟨ListAt.normal hbody' (ListAt.normalList_of_pass hbody' (congrArg Prod.fst hidle)), ?_⟩
  exact congrArg (fun a => (⟨a, p.root⟩ : Program)) (passes_eq_self hidle _)

/-- A program with a sum that does not fit, an endless loop and a constant to spread. -/
theorem simplify_normal_form_sample : ∃ p,
    parseSource "<?php $x = 3 * 3; if ($x < 9) { $y = 1; } else { }
      $z = 9223372036854775807 + $x; while (1) { $x = $x + 1; } write(!$x);" = .ok p ∧
    p.simplify.arena ≠ p.arena ∧ p.simplify.arena.Normal p.simplify.root ∧
    p.simplify.simplify = p.simplify := by
  obtain ⟨p, hp, hchanged⟩ : ∃ p,
      parseSource "<?php $x = 3 * 3; if ($x < 9) { $y = 1; } else { }
      $z = 9223372036854775807 + $x; while (1) { $x = $x + 1; } write(!$x);" = .ok p ∧
      p.simplify.arena ≠ p.arena := by decide +kernel
  exact ⟨p, hp, hchanged, simplify_normal_form (.parsed hp)⟩

end Ifj22
