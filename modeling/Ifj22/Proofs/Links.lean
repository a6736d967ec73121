import Ifj22.Proofs.Parser.Program
import Ifj22.Proofs.Simplify.Pass
import Ifj22.Proofs.Typing.Tree
set_option autoImplicit false

/-!
# Links: the arena of a program is a tree all along

A parsed program fills its arena with one tree.  Checking overwrites constants by constants, whether
it succeeds or not, so no link changes (`Arena.Retouched`).  Simplification leaves places behind that
the root does not reach any more; what the root does reach is a tree still.
-/

namespace Ifj22

/-! ## Arenas that differ in constants only -/

/-- The arenas differ in constants only.  Converting constants is all that checking does to an
arena. -/
structure Arena.Retouched (a a' : Arena) : Prop where
  size_eq : a'.size = a.size
  node : ∀ i, a'.node i = a.node i ∨ ∃ c d : Constant, a.node i = c.node ∧ a'.node i = d.node

theorem Constant.node_children (c : Constant) : c.node.children = [] := by
  cases c <;> rfl

theorem Constant.node_isLiteral (c : Constant) : c.node.isLiteral = true := by
  cases c <;> rfl

namespace Arena.Retouched

variable {a a' a'' : Arena}

theorem refl (a : Arena) : a.Retouched a := ⟨rfl, fun _ => .inl rfl⟩

theorem trans (h : a.Retouched a') (h' : a'.Retouched a'') : a.Retouched a'' := by
  refine ⟨h'.size_eq.trans h.size_eq, fun i => ?_⟩
  rcases h'.node i with h2 | ⟨d, e, hd, he⟩
  · rw [h2]
    exact h.node i
  rcases h.node i with h1 | ⟨b, c, hb, _⟩
  · exact .inr ⟨d, e, h1 ▸ hd, he⟩
  · exact .inr ⟨b, e, hb, he⟩

theorem set {id : Nat} {c d : Constant} (h : a.node id = c.node) :
    a.Retouched (a.set id d.node) := by
  refine ⟨size_set a id _, fun i => ?_⟩
  rw [node_set]
  split
  · rename_i hi
    exact .inr ⟨c, d, hi.1 ▸ h, rfl⟩
  · exact .inl rfl

theorem children_eq (h : a.Retouched a') (id : Nat) : a'.children id = a.children id := by
  unfold Arena.children
  rcases h.node id with h | ⟨c, d, hc, hd⟩
  · rw [h]
  · rw [hc, hd, c.node_children, d.node_children]

/-- A node that is not a constant stays. -/
theorem node_eq (h : a.Retouched a') {id : Nat} {n : Node} (hn : a.node id = n)
    (hlit : n.isLiteral = false) : a'.node id = n := by
  rcases h.node id with h | ⟨c, _, hc, _⟩
  · exact h.trans hn
  · rw [← hn, hc, c.node_isLiteral] at hlit
    cases hlit

theorem laid (h : a.Retouched a') {lo hi : Nat} {ids places : List Nat}
    (hlaid : a.Laid lo hi ids places) : a'.Laid lo hi ids places := by
  induction hlaid with
  | nil h => exact .nil h
  | @cons lo hi id rest inner outer _ _ ih1 ih2 =>
    rw [← h.children_eq id] at ih1
    exact .cons ih1 ih2

theorem filled (h : a.Retouched a') {roots : List Nat} (hfilled : a.Filled roots) :
    a'.Filled roots := by
  unfold Filled at *
  rw [h.size_eq]
  exact h.laid hfilled

end Arena.Retouched

section Retouched

variable {a a' : Arena} (h : a.Retouched a')
include h

mutual

theorem Expr.At.retouched {lo id : Nat} : ∀ {e : Expr}, e.At a lo id → ∃ e' : Expr, e'.At a' lo id
  | .constant c, ⟨hn, hle⟩ => by
    rcases h.node id with hsame | ⟨_, d, _, hd⟩
    · exact ⟨.constant c, hsame.trans hn, hle⟩
    · exact ⟨.constant d, hd, hle⟩
  | .var name, ⟨hn, hle⟩ => ⟨.var name, h.node_eq hn rfl, hle⟩
  | .binary op _ _, ⟨i, j, hn, hl, hr, hj⟩ => by
    obtain ⟨l, hl⟩ := hl.retouched
    obtain ⟨r, hr⟩ := hr.retouched
    exact ⟨.binary op l r, i, j, h.node_eq hn rfl, hl, hr, hj⟩
  | .unary op _, ⟨i, hn, ho, hi⟩ => by
    obtain ⟨o, ho⟩ := ho.retouched
    exact ⟨.unary op o, i, h.node_eq hn rfl, ho, hi⟩
  | .call name _, ⟨link, hn, hargs⟩ => by
    obtain ⟨args, hargs⟩ := hargs.retouched
    exact ⟨.call name args, link, h.node_eq hn rfl, hargs⟩

theorem ArgsAt.retouched {lo hi : Nat} {link : Option Nat} : ∀ {args : List Expr},
    ArgsAt a args lo hi link → ∃ args' : List Expr, ArgsAt a' args' lo hi link
  | [], hargs => ⟨[], hargs⟩
  | _ :: _, ⟨l, i, next, hlink, hl, hn, he, hrest⟩ => by
    obtain ⟨e, he⟩ := he.retouched
    obtain ⟨rest, hrest⟩ := hrest.retouched
    exact ⟨e :: rest, l, i, next, hlink, hl,
      h.node_eq hn rfl, he, hrest⟩

end

mutual

theorem Stmt.At.retouched {lo id : Nat} : ∀ {s : Stmt}, s.At a lo id → ∃ s' : Stmt, s'.At a' lo id
  | .assign target _, ⟨i, hn, hv, hi⟩ => by
    obtain ⟨v, hv⟩ := hv.retouched h
    exact ⟨.assign target v, i, h.node_eq hn rfl, hv, hi⟩
  | .expr _, hs => by
    obtain ⟨e, he⟩ := Expr.At.retouched h hs
    exact ⟨.expr e, he⟩
  | .ret none, ⟨hn, hle⟩ => ⟨.ret none, h.node_eq hn rfl, hle⟩
  | .ret (some _), ⟨i, hn, hv, hi⟩ => by
    obtain ⟨v, hv⟩ := hv.retouched h
    exact ⟨.ret (some v), i, h.node_eq hn rfl, hv, hi⟩
  | .block _, hs => by
    obtain ⟨body, hbody⟩ := ListAt.retouched hs
    exact ⟨.block body, hbody⟩
  | .ifElse _ _ none, ⟨c, i, hn, hc, ht, hi⟩ => by
    obtain ⟨cond, hc⟩ := hc.retouched h
    obtain ⟨thenBody, ht⟩ := ht.retouched
    exact ⟨.ifElse cond thenBody none, c, i,
      h.node_eq hn rfl, hc, ht, hi⟩
  | .ifElse _ _ (some _), ⟨c, i, j, hn, hc, ht, he, hj⟩ => by
    obtain ⟨cond, hc⟩ := hc.retouched h
    obtain ⟨thenBody, ht⟩ := ht.retouched
    obtain ⟨elseBody, he⟩ := he.retouched
    exact ⟨.ifElse cond thenBody (some elseBody), c, i, j,
      h.node_eq hn rfl, hc, ht, he, hj⟩
  | .whileLoop _ _, ⟨c, i, hn, hc, hb, hi⟩ => by
    obtain ⟨cond, hc⟩ := hc.retouched h
    obtain ⟨body, hb⟩ := hb.retouched
    exact ⟨.whileLoop cond body, c, i,
      h.node_eq hn rfl, hc, hb, hi⟩
  | .function name params declared _, ⟨i, hn, hb, hi⟩ => by
    obtain ⟨body, hb⟩ := hb.retouched
    exact ⟨.function name params declared body, i,
      h.node_eq hn rfl, hb, hi⟩

theorem ListAt.retouched {id : Nat} : ∀ {body : List Stmt} {before : Option Nat} {lo : Nat},
    ListAt a body before lo id → ∃ body' : List Stmt, ListAt a' body' before lo id
  | [], before, lo, hlist => by
    refine ⟨[], ?_⟩
    rcases hlist with hlast | ⟨hb, hn, hid, hle⟩
    · exact .inl hlast
    · exact .inr ⟨hb, h.node_eq hn rfl,
        h.size_eq ▸ hid, hle⟩
  | _ :: _, before, lo, ⟨i, link, hs, hi, hn, hrest⟩ => by
    obtain ⟨s, hs⟩ := hs.retouched
    obtain ⟨rest, hrest⟩ := hrest.retouched
    exact ⟨s :: rest, i, link, hs, hi, h.node_eq hn rfl, hrest⟩

end

end Retouched

/-! ## Checking keeps the links -/

namespace Checker

variable {α β : Type} {a : Arena}

/-- Whatever the step ends in, it leaves an arena that differs from `a` in constants only, if it
finds one. -/
def Retouches (a : Arena) (m : Check α) : Prop :=
  ∀ c : Checker, a.Retouched c.arena →
    Meets m c (fun _ c' => a.Retouched c'.arena) fun _ c' => a.Retouched c'.arena

namespace Retouches

theorem pure (x : α) : Retouches a (Pure.pure x) := fun _ hc => hc

theorem throw (e : CompileError) : Retouches a (MonadExcept.throw e : Check α) := fun _ hc => hc

theorem bind {m : Check α} {f : α → Check β} (hm : Retouches a m) (hf : ∀ x, Retouches a (f x)) :
    Retouches a (m >>= f) := by
  intro c hc
  rw [meets_bind]
  exact (hm c hc).imp fun x c' hc' => hf x c' hc'

theorem get {f : Checker → Check β} (hf : ∀ c, Retouches a (f c)) :
    Retouches a (MonadState.get >>= f) :=
  fun c hc => hf c c hc

theorem modify {f : Checker → Checker} (hf : ∀ c : Checker, c.arena.Retouched (f c).arena) :
    Retouches a (modify f) :=
  fun c hc => hc.trans (hf c)

theorem ite {p : Prop} [Decidable p] {m m' : Check α} (ht : Retouches a m) (hf : Retouches a m') :
    Retouches a (if p then m else m') := by
  split
  · exact ht
  · exact hf

theorem forM {ι : Type} {f : ι → Check PUnit} (hf : ∀ i, Retouches a (f i)) :
    ∀ items : List ι, Retouches a (items.forM f)
  | [] => .pure _
  | i :: rest => (hf i).bind fun _ => forM hf rest

theorem mapM {ι : Type} {f : ι → Check β} (hf : ∀ i, Retouches a (f i)) :
    ∀ items : List ι, Retouches a (items.mapM f)
  | [] => by
    rw [List.mapM_nil]
    exact .pure _
  | i :: rest => by
    rw [List.mapM_cons]
    exact (hf i).bind fun _ => (mapM hf rest).bind fun _ => .pure _

end Retouches

theorem Passive.retouches {m : Check α} (h : Passive m) : Retouches a m := by
  intro c hc
  have hrun : m c = _ := h c.arena c
  unfold Meets
  rw [hrun]
  cases m c with
  | ok x c' => exact hc
  | error e c' => exact hc

theorem retouches_hoist (root : NodeId) : Retouches a (hoist root) := by
  refine .get fun c => .forM (fun stmt => ?_) _
  split
  · exact (passive_declareFunction _ _ _).retouches
  · exact .pure _

theorem retouches_used {m : Check Ty} (h : Retouches a m) : Retouches a (used m) :=
  h.bind fun _ => .ite (.throw _) (.pure _)

/-- A conversion puts a constant in the place of a constant. -/
theorem retouches_coerceAt (target : Ty) (id : NodeId) : Retouches a (coerceAt target id) := by
  refine .modify fun c => ?_
  split
  · rename_i node hnode
    obtain ⟨k, d, hk, rfl⟩ := constant_of_coerce? hnode
    exact .set hk
  · exact .refl _

theorem retouches_binary (op : BinOp) (left right : NodeId) (leftTy rightTy : Ty) :
    Retouches a (binary op left right leftTy rightTy) := by
  unfold binary
  refine .ite (.throw _) ?_
  dsimp only
  split
  · rename_i target _
    refine (retouches_coerceAt target left).bind fun _ => ?_
    exact (retouches_coerceAt target right).bind fun _ => .pure _
  · exact .pure _

theorem retouches_expr : ∀ (fuel : Nat) (id : NodeId), Retouches a (expr fuel id)
  | 0, _ => .pure _
  | fuel + 1, id => by
    unfold expr
    refine .get fun c => ?_
    split
    · exact .pure _
    · exact .pure _
    · exact .pure _
    · exact .pure _
    · refine .get fun c => ?_
      split
      · exact .pure _
      · exact .throw _
    · refine (retouches_used (retouches_expr fuel _)).bind fun leftTy => ?_
      refine (retouches_used (retouches_expr fuel _)).bind fun rightTy => ?_
      exact retouches_binary _ _ _ _ _
    · refine (retouches_used (retouches_expr fuel _)).bind fun ty => ?_
      exact .ite (.throw _) (.pure _)
    · refine .get fun c => ?_
      refine (Retouches.mapM (fun value => ?_) _).bind fun tys => (passive_call _ tys).retouches
      exact retouches_used (retouches_expr fuel value)
    · exact .throw _

theorem retouches_stmt : ∀ (fuel : Nat) (id : NodeId), Retouches a (stmt fuel id)
  | 0, _ => .pure _
  | fuel + 1, id => by
    unfold stmt
    refine .get fun c => ?_
    dsimp only
    split
    · exact .forM (retouches_stmt fuel) _
    · refine (retouches_used (retouches_expr fuel _)).bind fun ty => ?_
      exact (passive_assigned _ ty).retouches
    · rename_i cond thenBody elseBody _
      refine (retouches_used (retouches_expr fuel cond)).bind fun _ => ?_
      refine (retouches_stmt fuel thenBody).bind fun _ => ?_
      cases elseBody with
      | none => exact .pure _
      | some elseBody => exact retouches_stmt fuel elseBody
    · refine (retouches_used (retouches_expr fuel _)).bind fun _ => ?_
      exact retouches_stmt fuel _
    · refine (passive_enter _ _).retouches.bind fun _ => ?_
      exact (retouches_stmt fuel _).bind fun _ => (passive_leave _ _).retouches
    · rename_i value _
      cases value with
      | none => exact (passive_returned none).retouches
      | some value =>
        rw [Option.mapM_some, bind_map_left]
        refine (retouches_used (retouches_expr fuel value)).bind fun ty => ?_
        exact (passive_returned (some ty)).retouches
    · exact (retouches_expr (fuel + 1) id).bind fun _ => .pure _

/-- Checking a program, whatever comes of it, changes constants only. -/
theorem retouches_program (root : NodeId) : Retouches a (program root) := by
  unfold program
  refine (retouches_hoist root).bind fun _ => .get fun c => ?_
  refine (retouches_stmt _ root).bind fun _ => ?_
  exact fun c hc => hc

end Checker

/-! ## The arena of a program -/

/-- A parsed program is held by its arena. -/
theorem holds_of_parseSource {source : String} {p : Program} (h : parseSource source = .ok p) :
    ∃ body, p.Holds body := by
  obtain ⟨body, hbody, _⟩ := spelled_of_parseSource h
  exact ⟨body, hbody⟩

/-- Checking a program from `c` ends in `c'`, with success or without. -/
def Checker.Ends (c : Checker) (root : NodeId) (c' : Checker) : Prop :=
  (∃ table, Checker.program root c = .ok table c') ∨ ∃ e, Checker.program root c = .error e c'

theorem Checker.Ends.retouched {c c' : Checker} {root : NodeId} (h : c.Ends root c') :
    c.arena.Retouched c'.arena := by
  have hmeets := Checker.retouches_program root c (.refl _)
  rcases h with ⟨table, hrun⟩ | ⟨e, hrun⟩
  · exact hmeets.of_ok hrun
  · exact hmeets.of_error hrun

/-- The arena of a parsed program is a tree over all its places.  It still is when the program has
been checked, by any checker and with any outcome; and when it has been simplified after that, the
places that the root reaches are a tree. -/
theorem isTree_parse_check_simplify {source : String} {p : Program}
    (h : parseSource source = .ok p) :
    p.arena.IsTree p.root (· < p.arena.size) ∧
      ∀ c c' : Checker, (c.withArena p.arena).Ends p.root c' →
        c'.arena.IsTree p.root (· < c'.arena.size) ∧
        (Program.simplify ⟨c'.arena, p.root⟩).arena.IsTree p.root
          ((Program.simplify ⟨c'.arena, p.root⟩).arena.Reaches p.root) := by
  have hfilled := filled_of_parseSource h
  obtain ⟨body, hbody⟩ := holds_of_parseSource h
  refine ⟨hfilled.isTree, fun c c' hends => ?_⟩
  have hretouched : p.arena.Retouched c'.arena := hends.retouched
  obtain ⟨body', hbody'⟩ := ListAt.retouched hretouched hbody
  obtain ⟨_, hsimplified, _⟩ := Program.Holds.simplify (p := ⟨c'.arena, p.root⟩) hbody'
  exact ⟨(hretouched.filled hfilled).isTree, hsimplified.isTree⟩

/-- A program that checking refuses after it has converted a constant, and in which simplification
decides a branch. -/
theorem isTree_parse_check_simplify_refused : ∃ p e c',
    parseSource "<?php $x = 1 + 2.5; if (1 < 2) { $y = $x; } else { $y = 4; } write($z);" = .ok p ∧
    Checker.program p.root ((Checker.start .builtins).withArena p.arena) = .error e c' ∧
    c'.arena ≠ p.arena ∧ (Program.simplify ⟨c'.arena, p.root⟩).arena ≠ c'.arena ∧
    p.arena.IsTree p.root (· < p.arena.size) ∧
    (Program.simplify ⟨c'.arena, p.root⟩).arena.IsTree p.root
      ((Program.simplify ⟨c'.arena, p.root⟩).arena.Reaches p.root) := by
  obtain ⟨p, hp, hrefused⟩ : ∃ p, parseSource
      "<?php $x = 1 + 2.5; if (1 < 2) { $y = $x; } else { $y = 4; } write($z);" = .ok p ∧
      Meets (Checker.program p.root) ((Checker.start .builtins).withArena p.arena)
        (fun _ c' => c'.arena ≠ p.arena ∧ (Program.simplify ⟨c'.arena, p.root⟩).arena ≠ c'.arena)
        fun _ _ => False := by decide +kernel
  cases hrun : Checker.program p.root ((Checker.start .builtins).withArena p.arena) with
  | ok _ c' => exact (hrefused.of_ok hrun).elim
  | error e c' =>
    obtain ⟨htree, hends⟩ := isTree_parse_check_simplify hp
    obtain ⟨hcast, hsimplified⟩ := hrefused.of_error hrun
    exact ⟨p, e, c', hp, hrun, hcast, hsimplified, htree, (hends _ c' (.inr ⟨e, hrun⟩)).2⟩

end Ifj22
