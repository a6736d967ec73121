import Ifj22.Proofs.Simplify.Loop
set_option autoImplicit false

/-!
# Simplify: spreading a constant and looking for assignments agree

Spreading a constant over a statement and looking for assignments in it go through the statement in
different ways: spreading leaves a list at the first statement that assigns the variable, and passes
over a loop that does.  They agree on whether the variable is assigned.  What spreading overwrites are
reads of the variable, each of which it counts, and where nothing is assigned none is left.
-/

namespace Ifj22

variable {name : String} {c : Constant}

/-! ## The places that are overwritten -/

theorem Constant.node_ne_var (c : Constant) : c.node ≠ .var name := by
  cases c <;> nofun

namespace Arena.Overwrites

variable {root n : Nat} {R : Nat → Prop} {a a' : Arena} (h : Overwrites (ReadOf name c) root R n a a')

include h

/-- A read and the constant in its place have no children: every place reaches what it did. -/
theorem reaches_eq : a'.Reaches = a.Reaches := by
  have hchildren : a'.children = a.children := by
    induction h with
    | refl => rfl
    | @tail _ i _ a a' _ _ _ hE ih =>
      obtain ⟨hn, rfl⟩ := hE
      rw [← ih]
      funext p
      rw [children_set (lt_size_of_node hn nofun)]
      split
      · rename_i heq
        rw [c.children_node, heq, Arena.children, hn]
        rfl
      · rfl
  unfold Arena.Reaches
  rw [hchildren]

/-- A place that has changed was a read and is the constant now. -/
theorem of_ne {i : Nat} (hne : a'.node i ≠ a.node i) :
    a.Reaches root i ∧ a.node i = .var name ∧ a'.node i = c.node := by
  induction h with
  | refl => exact absurd rfl hne
  | @tail _ k _ a a' h _ hreach hE ih =>
    obtain ⟨hn, rfl⟩ := hE
    by_cases hsame : a'.node i = a.node i
    · rw [node_set] at hne ⊢
      split at hne
      · rename_i hi
        rw [if_pos hi]
        obtain ⟨rfl, _⟩ := hi
        exact ⟨h.reaches_eq ▸ hreach, hsame ▸ hn, rfl⟩
      · exact absurd hsame hne
    · obtain ⟨hi, hvar, hconst⟩ := ih hsame
      refine ⟨hi, hvar, ?_⟩
      rw [node_set]
      split
      · rfl
      · exact hconst

theorem finite : {i | a'.node i ≠ a.node i}.Finite := by
  refine (Set.finite_lt_nat a.size).subset fun i hi => ?_
  exact lt_size_of_node (h.of_ne hi).2.1 nofun

/-- No place is overwritten twice: the constant is no read. -/
theorem ncard_eq : {i | a'.node i ≠ a.node i}.ncard = n := by
  induction h with
  | refl => simp
  | @tail n k _ a a' h _ _ hE ih =>
    obtain ⟨hn, rfl⟩ := hE
    have hsize : k < a'.size := lt_size_of_node hn nofun
    have hk : a'.node k = a.node k := by
      by_contra hne
      exact c.node_ne_var ((h.of_ne hne).2.2.symm.trans hn)
    have hset : {i | (a'.set k c.node).node i ≠ a.node i} =
        insert k {i | a'.node i ≠ a.node i} := by
      ext i
      show (a'.set k c.node).node i ≠ a.node i ↔ i = k ∨ a'.node i ≠ a.node i
      rw [node_set]
      by_cases hi : i = k
      · rw [if_pos ⟨hi, hsize⟩, hi, ← hk, hn]
        exact iff_of_true c.node_ne_var (.inl rfl)
      · rw [if_neg fun h => hi h.1, or_iff_right hi]
    have hfresh : k ∉ {i | a'.node i ≠ a.node i} := fun hmem => hmem hk
    rw [hset, Set.ncard_insert_of_notMem hfresh h.finite, ih]

end Arena.Overwrites

/-! ## Statements that do not assign the variable -/

theorem Expr.replace_replace (name : String) (c : Constant) (e : Expr) :
    (e.replace name c).replace name c = e.replace name c := by
  induction e with
  | constant k => rfl
  | var other =>
    rw [Expr.replace]
    split
    · rfl
    · rename_i hne
      rw [Expr.replace, if_neg hne]
  | binary op left right ihl ihr => rw [Expr.replace, Expr.replace, ihl, ihr]
  | unary op operand ih => rw [Expr.replace, Expr.replace, ih]
  | call callee args ih =>
    rw [Expr.replace, Expr.replaceAll_eq, Expr.replace, Expr.replaceAll_eq, List.map_map]
    exact congrArg _ (List.map_congr_left ih)

/-- Replacing the reads of a variable leaves none to replace. -/
theorem Stmt.replace_replace (name : String) (c : Constant) (s : Stmt) :
    (s.replace name c).replace name c = s.replace name c := by
  have hall : ∀ body : List Stmt, (∀ s ∈ body, (s.replace name c).replace name c = s.replace name c) →
      (body.map (Stmt.replace name c)).map (Stmt.replace name c) = body.map (Stmt.replace name c) :=
    fun body h => (List.map_map).trans (List.map_congr_left h)
  induction s with
  | assign target value => rw [replace, replace, value.replace_replace]
  | expr value => rw [replace, replace, value.replace_replace]
  | ret value => cases value <;> simp [replace, Expr.replace_replace]
  | block body ih => simp only [replace, replaceAll_eq, hall body ih]
  | ifElse cond thenBody elseBody iht ihe =>
    cases elseBody with
    | none => simp only [replace, replaceAll_eq, cond.replace_replace, hall thenBody iht]
    | some elseBody =>
      simp only [replace, replaceAll_eq, cond.replace_replace, hall thenBody iht,
        hall elseBody (ihe _ rfl)]
  | whileLoop cond body ih =>
    simp only [replace, replaceAll_eq, cond.replace_replace, hall body ih]
  | function => rfl

/-- The parts of a statement without reads of the variable have none, outside functions. -/
theorem inherits_unread (name : String) (c : Constant) :
    Inherits (fun f s => f = none → s.replace name c = s)
      fun f body => f = none → Stmt.replaceAll name c body = body where
  binary h := ⟨fun hf => by simp_all [Stmt.replace, Expr.replace],
    fun hf => by simp_all [Stmt.replace, Expr.replace]⟩
  unary h hf := by simp_all [Stmt.replace, Expr.replace]
  call {f callee args} h e he hf := by
    have hargs : args.map (Expr.replace name c) = args.map id := by
      rw [← Expr.replaceAll_eq, List.map_id]
      exact (Expr.call.inj (Stmt.expr.inj (h hf))).2
    exact congrArg Stmt.expr (List.map_inj_left.mp hargs e he)
  assign h hf := by simp_all [Stmt.replace]
  ret h hf := by simp_all [Stmt.replace]
  block h hf := by simp_all [Stmt.replace]
  ifElse {f cond thenBody elseBody} h := by
    cases elseBody <;> simp_all [Stmt.replace]
  whileLoop h := ⟨fun hf => by simp_all [Stmt.replace], fun hf => by simp_all [Stmt.replace]⟩
  function _ := nofun
  concat {f body s} h := ⟨fun hf => by simp_all [Stmt.replaceAll_eq],
    fun hf => by simp_all [Stmt.replaceAll_eq]⟩

/-- A statement without reads of the variable shows none outside functions. -/
theorem Stmt.At.no_read {a : Arena} {s : Stmt} {lo id i : Nat} (h : s.At a lo id)
    (hunread : s.replace name c = s) (hstands : a.Stands id none i) : a.node i ≠ .var name := by
  intro hn
  have hshow := (h.shows (f := none) (inherits_unread name c) fun _ => hunread).stands
    (inherits_unread name c) hstands
  rw [Arena.Shows, hn] at hshow
  have hvar : (Expr.var name).replace name c = .var name := Stmt.expr.inj (hshow rfl)
  rw [Expr.replace, if_pos rfl] at hvar
  cases hvar

/-- Every place of a program of a text that is no link of an argument list holds a statement. -/
theorem Program.OfText.stmtAt {source : String} {p : Program} (h : p.OfText source) {id : Nat}
    (hid : p.arena.Reaches p.root id)
    (hlink : ∀ value next, p.arena.node id ≠ .argument value next) :
    ∃ s lo, Stmt.At p.arena s lo id := by
  obtain ⟨body, hbody⟩ := h.holds
  have hall : Inherits (fun _ _ => True) fun _ _ => True := by constructor <;> simp
  obtain ⟨f, hstands⟩ := hid.stands
  exact (hstands.shows hall hbody trivial).stmtAt (fun k hk => hbody.isTree.below id k hid hk) hlink

/-- Spreading a constant over a statement of a program stops just if the statement assigns the
variable.  It overwrites reads of the variable in the statement by the constant, and nothing else,
and counts them.  If it does not stop, no read is left outside the functions of the statement.  A
link of an argument list is left out, since it is no statement and no expression. -/
theorem spread_agrees_with_writes {source : String} {p : Program} (h : p.OfText source) {id : Nat}
    (hid : p.arena.Reaches p.root id)
    (hlink : ∀ value next, p.arena.node id ≠ .argument value next) (name : String) (c : Constant) :
    let r := Edit.spread name c.node id p.arena
    r.1.stop = p.arena.writes name id ∧ r.2.size = p.arena.size ∧
      (∀ i, r.2.node i ≠ p.arena.node i →
        p.arena.Reaches id i ∧ p.arena.node i = .var name ∧ r.2.node i = c.node) ∧
      r.1.replaced = {i | r.2.node i ≠ p.arena.node i}.ncard ∧
      (r.1.stop = false → ∀ i, r.2.Stands id none i → r.2.node i ≠ .var name) := by
  intro r
  obtain ⟨s, lo, hat⟩ := h.stmtAt hid hlink
  have hmakes : Edit.Makes (Arena.ReadOf name c) Spread.replaced 0 (Edit.spread name c.node id) _ _ _
    _ := .get (Edit.makes_spreadStmt p.arena.size s hat hat.lt_size)
  obtain ⟨hover, hat', hstop, _⟩ := hmakes.overwrites
  refine ⟨?_, hover.differs.size_eq, fun i hi => hover.of_ne hi, hover.ncard_eq.symm,
    fun hfalse i hstands => ?_⟩
  · exact hstop.trans (Arena.writesAt_stmt p.arena.size s hat hat.lt_size).symm
  · rw [Stmt.spread_eq_replace c (hstop.symm.trans hfalse)] at hat'
    exact hat'.no_read (s.replace_replace name c) hstands

/-- A conditional whose first branch assigns one variable behind a read, and leaves another alone. -/
theorem spread_agrees_with_writes_branches : ∃ p id,
    parseSource "<?php $x = 1; if ($x) { write($x); $x = 2; write($x); }
      else { while ($x) { write($x + $y); } }" = .ok p ∧
    p.arena.Reaches p.root id ∧ (∀ value next, p.arena.node id ≠ .argument value next) ∧
    (let r := Edit.spread "$x" (Constant.int 7).node id p.arena
     p.arena.writes "$x" id = true ∧ {i | r.2.node i ≠ p.arena.node i}.ncard = 4) ∧
    (let r := Edit.spread "$y" (Constant.int 7).node id p.arena
     r.1 = ⟨false, 1⟩ ∧ ∀ i, r.2.Stands id none i → r.2.node i ≠ .var "$y") := by
  obtain ⟨p, hp, hbranch, hif, hx, hy⟩ : ∃ p,
      parseSource "<?php $x = 1; if ($x) { write($x); $x = 2; write($x); }
      else { while ($x) { write($x + $y); } }" = .ok p ∧
      24 ∈ p.arena.children p.root ∧ p.arena.node 24 = .ifElse 3 14 (some 23) ∧
      (Edit.spread "$x" (Constant.int 7).node 24 p.arena).1 = ⟨true, 4⟩ ∧
      (Edit.spread "$y" (Constant.int 7).node 24 p.arena).1 = ⟨false, 1⟩ := by decide +kernel
  have hid : p.arena.Reaches p.root 24 := .single hbranch
  have hlink : ∀ value next, p.arena.node 24 ≠ .argument value next := by
    intro value next hn
    cases hn.symm.trans hif
  obtain ⟨hstop, _, _, hcount, _⟩ := spread_agrees_with_writes (.parsed hp) hid hlink "$x" (.int 7)
  obtain ⟨_, _, _, _, hleft⟩ := spread_agrees_with_writes (.parsed hp) hid hlink "$y" (.int 7)
  rw [hx] at hstop hcount
  exact ⟨p, 24, hp, hid, hlink, ⟨hstop.symm, hcount.symm⟩, hy, hleft (by rw [hy])⟩

end Ifj22
