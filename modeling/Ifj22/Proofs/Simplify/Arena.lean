import Ifj22.Proofs.Simplify.Rewrites
import Ifj22.Proofs.Simplify.Tree
import Ifj22.Proofs.Tree.Read
set_option autoImplicit false

/-!
# Simplify: edits of an arena are edits of its tree

Each edit of an arena that holds a tree leaves an arena that holds the edited tree.  It overwrites as
many places as it counts, and only places of the tree (`Edit.Makes`); so an edit that counts none
leaves the arena as it is.
-/

namespace Ifj22

variable {op : BinOp} {x : Node} {e : Expr} {name : String} {c : Constant}

/-! ## Constants in an arena -/

/-- A result of an operation, if there is one, is a constant. -/
theorem map_node_bind_constant? {n : Option Node} (h : ∀ x, n = some x → x.isLiteral = true) :
    (n.bind Node.constant?).map Constant.node = n := by
  cases n with
  | none => rfl
  | some x =>
    obtain ⟨c, rfl⟩ := (Node.isLiteral_iff x).mp (h x rfl)
    simp

theorem Node.isLiteral_foldInts? {a b : Int64} (h : Node.foldInts? op a b = some x) :
    x.isLiteral = true := by
  unfold foldInts? ofBool at h
  cases op <;> simp only [Option.map_eq_some_iff, Option.some.injEq, reduceCtorEq] at h <;>
    first
    | exact h ▸ rfl
    | (obtain ⟨_, _, rfl⟩ := h; rfl)

theorem Node.isLiteral_finite? {value : Float} (h : finite? value = some x) :
    x.isLiteral = true := by
  unfold finite? at h
  split at h
  · exact Option.some.inj h ▸ rfl
  · cases h

theorem Node.isLiteral_foldFloats? {sameKind : Bool} {a b : Float}
    (h : Node.foldFloats? op sameKind a b = some x) : x.isLiteral = true := by
  unfold foldFloats? ofBool at h
  cases op <;> simp only [Option.some.injEq, reduceCtorEq] at h <;>
    first
    | exact h ▸ rfl
    | exact isLiteral_finite? h
    | (split at h
       · cases h
       · exact isLiteral_finite? h)

theorem Node.isLiteral_foldBinary? {left right : Node}
    (h : Node.foldBinary? op left right = some x) : x.isLiteral = true := by
  unfold foldBinary? at h
  split at h
  · split at h
    · exact isLiteral_foldFloats? h
    · exact isLiteral_foldInts? h
  · exact isLiteral_foldFloats? h
  · exact isLiteral_foldFloats? h
  · exact isLiteral_foldFloats? h
  · cases h

theorem Node.isLiteral_foldUnary? {op : UnaryOp} {operand : Node}
    (h : Node.foldUnary? op operand = some x) : x.isLiteral = true := by
  unfold foldUnary? ofBool at h
  split at h
  · obtain ⟨_, _, rfl⟩ := Option.map_eq_some_iff.mp h
    rfl
  · exact Option.some.inj h ▸ rfl
  · cases h
  · obtain ⟨_, _, rfl⟩ := Option.map_eq_some_iff.mp h
    rfl

/-- The node of an expression is a constant just if the expression is. -/
theorem Expr.At.constant?_eq {a : Arena} {lo id : Nat} (h : e.At a lo id) :
    (a.node id).constant? = e.constant? := by
  cases e with
  | constant c => rw [h.1, Constant.constant?_node]; rfl
  | var name => rw [h.1]; rfl
  | binary op left right => obtain ⟨i, j, hn, _⟩ := h; rw [hn]; rfl
  | unary op operand => obtain ⟨i, hn, _⟩ := h; rw [hn]; rfl
  | call name args => obtain ⟨link, hn, _⟩ := h; rw [hn]; rfl

theorem Node.foldBinary?_eq (op : BinOp) (left right : Node) : Node.foldBinary? op left right =
    (left.constant?.bind fun a => right.constant?.bind fun b =>
      Constant.foldBinary? op a b).map Constant.node := by
  have hliteral := map_node_bind_constant? (n := Node.foldBinary? op left right)
    fun _ h => isLiteral_foldBinary? h
  cases hl : left.constant? with
  | none => cases left <;> first | rfl | cases hl
  | some a =>
    cases hr : right.constant? with
    | none => cases left <;> cases right <;> first | rfl | cases hr
    | some b =>
      rw [Node.eq_node_of_constant? hl, Node.eq_node_of_constant? hr] at hliteral ⊢
      exact hliteral.symm

theorem Node.foldUnary?_eq (op : UnaryOp) (operand : Node) : Node.foldUnary? op operand =
    (operand.constant?.bind (Constant.foldUnary? op)).map Constant.node := by
  have hliteral := map_node_bind_constant? (n := Node.foldUnary? op operand)
    fun _ h => isLiteral_foldUnary? h
  cases ho : operand.constant? with
  | none => cases op <;> cases operand <;> first | rfl | cases ho
  | some a =>
    rw [Node.eq_node_of_constant? ho] at hliteral ⊢
    exact hliteral.symm

/-! ## Edits of a tree -/

namespace Edit

open Arena

variable {α β γ : Type} {E : Arena → Nat → Node → Prop} {a : Arena} {lo id start : Nat}

theorem get_bind (f : Arena → Edit α) (a : Arena) : (get >>= f) a = f a a := rfl

/-- Of the places from `lo` to `id` that `id` reaches, the step overwrites as many as it adds to the
count `start`, and what it yields and leaves has `P`. -/
def Makes (E : Arena → Nat → Node → Prop) (count : α → Nat) (start : Nat) (m : Edit α) (a : Arena)
    (lo id : Nat) (P : α → Arena → Prop) : Prop :=
  ∃ n, Overwrites E id (Slot.mk lo id).Has n a (m a).2 ∧ count (m a).1 = start + n ∧
    P (m a).1 (m a).2

/-- The step counts what it overwrites. -/
abbrev Counts (E : Arena → Nat → Node → Prop) (m : Edit Nat) (a : Arena) (lo id : Nat)
    (P : Nat → Arena → Prop) : Prop :=
  Makes E (fun n => n) 0 m a lo id P

namespace Makes

variable {count : α → Nat} {count' : β → Nat} {count'' : γ → Nat} {P P' : α → Arena → Prop}
  {Q : β → Arena → Prop} {R : γ → Arena → Prop} {m : Edit α} {node : Node}

theorem pure {x : α} (hx : count x = start) (h : P x a) :
    Makes E count start (Pure.pure x) a lo id P :=
  ⟨0, .refl a, hx, h⟩

theorem get {f : Arena → Edit β} (h : Makes E count' start (f a) a lo id Q) :
    Makes E count' start (MonadState.get >>= f) a lo id Q := h

theorem overwrites (h : Makes E count 0 m a lo id P) :
    Overwrites E id (Slot.mk lo id).Has (count (m a).1) a (m a).2 ∧ P (m a).1 (m a).2 := by
  obtain ⟨n, hover, hcount, hx⟩ := h
  rw [hcount, Nat.zero_add]
  exact ⟨hover, hx⟩

theorem imp (h : Makes E count start m a lo id P) (hP : ∀ x a', P x a' → P' x a') :
    Makes E count start m a lo id P' := by
  obtain ⟨n, hover, hcount, hx⟩ := h
  exact ⟨n, hover, hcount, hP _ _ hx⟩

/-- A step, and the rest. -/
theorem bind {f : α → Edit β} (h : Makes E count 0 m a lo id P)
    (hf : ∀ x a', P x a' → Makes E count' (start + count x) (f x) a' lo id Q) :
    Makes E count' start (m >>= f) a lo id Q := by
  obtain ⟨n, hover, hn, hx⟩ := h
  obtain ⟨k, hover', hk, hy⟩ := hf _ _ hx
  refine ⟨n + k, hover.trans hover', hk.trans ?_, hy⟩
  rw [hn, Nat.zero_add, Nat.add_assoc]

/-- A step in the part of a tree at a child of its root, which stays as it is. -/
theorem part {lo' id' : Nat} (h : Makes E count start m a lo' id' P) (hn : a.node id = node)
    (hmem : id' ∈ node.children) (hlo : lo ≤ lo') (hid : id' < id) :
    Makes E count start m a lo id
      fun x a' => P x a' ∧ a'.node id = node ∧ a.Differs (Slot.mk lo' id').Has a' := by
  obtain ⟨n, hover, hcount, hx⟩ := h
  refine ⟨n, hover.lift ?_ fun a' hd => .single ?_, hcount, hx, ?_, hover.differs⟩
  · exact fun i hi => ⟨Nat.le_trans hlo hi.1, Nat.le_trans hi.2 (Nat.le_of_lt hid)⟩
  · rw [Arena.children, hd.node_behind hid, hn]
    exact hmem
  · rw [hover.differs.node_behind hid, hn]

/-- A step at each of two children, the second of which comes behind the first. -/
theorem pair {m' : Edit β} {f : α → β → Edit γ} {k i : Nat} (h : Makes E count 0 m a lo k P)
    (h' : ∀ a1, a.Differs (Slot.mk lo k).Has a1 → Makes E count' 0 m' a1 (k + 1) i Q)
    (hn : a.node id = node) (hk : k ∈ node.children) (hi : i ∈ node.children) (hlo : lo ≤ k)
    (hki : k ≤ i) (hlt : i < id)
    (hf : ∀ x y a1 a2, a.Differs (Slot.mk lo k).Has a1 → P x a1 →
      a1.Differs (Slot.mk (k + 1) i).Has a2 → Q y a2 → a2.node id = node →
        Makes E count'' (start + count x + count' y) (f x y) a2 lo id R) :
    Makes E count'' start (m >>= fun x => m' >>= fun y => f x y) a lo id R := by
  refine (h.part hn hk (Nat.le_refl lo) (by omega)).bind ?_
  rintro x a1 ⟨hx, hn1, hd1⟩
  refine ((h' a1 hd1).part hn1 hi (by omega) hlt).bind ?_
  rintro y a2 ⟨hy, hn2, hd2⟩
  exact hf x y a1 a2 hd1 hx hd2 hy hn2

end Makes

/-- Overwriting the root of a tree. -/
theorem makes_set (lo : Nat) {node : Node} (hE : E a id node) (hlo : lo ≤ id) (hid : id < a.size) :
    Makes E (fun _ => 1) 0 (modify (·.set id node)) a lo id
      fun _ a' => a' = a.set id node ∧ a'.node id = node :=
  ⟨1, .tail (.refl a) ⟨hlo, Nat.le_refl id⟩ .refl hE, rfl, rfl,
    (Arena.node_set ..).trans (if_pos ⟨rfl, hid⟩)⟩

/-- Overwriting the root of a tree by a constant, if there is one for it. -/
theorem counts_replace? {P : Nat → Arena → Prop} (lo : Nat) (o : Option Constant)
    (hE : ∀ c, o = some c → E a id c.node) (hlo : lo ≤ id) (hid : id < a.size)
    (hsome : ∀ c a', o = some c → (Expr.constant c).At a' lo id → P 1 a') (hnone : o = none → P 0 a) :
    Counts E (replace? id (o.map Constant.node)) a lo id P := by
  cases o with
  | none => exact .pure rfl (hnone rfl)
  | some c =>
    refine (makes_set lo (hE c rfl) hlo hid).bind fun _ a' h => .pure rfl ?_
    exact hsome c a' rfl ⟨h.2, hlo⟩

/-- A step on each item of a list, slot by slot. -/
theorem total_slots {ι : Type} {H : Arena → Slot → ι → Prop} (hlocal : Local H)
    (step : Nat → Edit Nat) (turn : ι → ι) {root : Nat} {slots : List Slot} :
    ∀ {items : List ι} {a : Arena}, List.Forall₂ (H a) slots items →
      slots.Pairwise Slot.Before → a.Linked root slots →
      (∀ x ∈ items, ∀ (a : Arena), ∀ s ∈ slots, H a s x →
        Counts E (step s.id) a s.lo s.id fun _ a' => H a' s (turn x)) →
      let ran := total step (slots.map (·.id)) a
      Overwrites E root (fun i => ∃ s ∈ slots, s.Has i) ran.1 a ran.2 ∧
        List.Forall₂ (H ran.2) slots (items.map turn) := by
  induction slots with
  | nil =>
    intro items a heach _ _ _
    cases heach
    exact ⟨.refl a, .nil⟩
  | cons s slots ih =>
    intro items a heach hpair hlinked hstep
    obtain ⟨hbefore, hpair⟩ := List.pairwise_cons.mp hpair
    cases heach with
    | @cons _ x _ items hx hrest =>
      obtain ⟨hover1, hx1⟩ := (hstep x (.head _) a s (.head _) hx).overwrites
      have hd1 := hover1.differs
      obtain ⟨hover2, heach2⟩ := ih (hlocal.behind hrest hd1 hbefore) hpair (hlinked.tail hd1)
        fun y hy a t ht => hstep y (.tail x hy) a t (.tail s ht)
      exact ⟨hlinked.overwrites hover1 hover2,
        (hlocal.cons hx1 hd1 heach2 hover2.differs hbefore).1⟩

end Edit

/-! ## Folding -/

theorem Expr.foldAll_eq (args : List Expr) : Expr.foldAll args = args.map Expr.fold := by
  induction args with
  | nil => rfl
  | cons e rest ih => rw [Expr.foldAll, List.map_cons, ih]

namespace Edit

open Arena

/-- Folding the expression at a place folds its tree. -/
theorem counts_foldAt : ∀ (fuel : Nat) (e : Expr) {a : Arena} {lo id : Nat}, e.At a lo id →
    id < fuel → Counts GivesWay (foldAt fuel id) a lo id fun _ a' => e.fold.At a' lo id
  | 0, _, _, _, _, _, hfuel => absurd hfuel (Nat.not_lt_zero _)
  | fuel + 1, .constant c, a, lo, id, h, _ => by
    refine .get ?_
    rw [h.1]
    cases c <;> exact .pure rfl h
  | fuel + 1, .var name, a, lo, id, h, _ => by
    refine .get ?_
    rw [h.1]
    exact .pure rfl h
  | fuel + 1, .binary op left right, a, lo, id, ⟨i, j, hn, hl, hr, hj⟩, hfuel => by
    have hli := hl.le
    have hrj := hr.le
    refine .get ?_
    rw [hn]
    refine .pair (counts_foldAt fuel left hl (by omega)) (fun a1 hd =>
      counts_foldAt fuel right (hr.behind hd (Nat.lt_succ_self i)) (by omega)) hn (.head _)
      (.tail _ (.head _)) hli (by omega) hj fun n1 n2 a1 a2 _ hl1 hd2 hr2 hn2 => .get ?_
    have hl2 := hl1.ahead hd2 (Nat.lt_succ_self i)
    rw [Node.foldBinary?_eq, hl2.constant?_eq, hr2.constant?_eq]
    refine (counts_replace? lo (Expr.foldBinary? op left.fold right.fold)
      (fun c _ => givesWay_constant (by rw [hn2]; rfl) c) (by omega) (lt_size_of_node hn2 nofun)
      (P := fun _ a' => (Expr.binary op left right).fold.At a' lo id) ?_ ?_).bind
      fun n3 a3 h3 => .pure (by omega) h3
    · intro c a' hc hat
      rwa [Expr.fold, hc]
    · intro hc
      rw [Expr.fold, hc]
      exact ⟨i, j, hn2, hl2, hr2, hj⟩
  | fuel + 1, .unary op operand, a, lo, id, ⟨i, hn, ho, hi⟩, hfuel => by
    have hle := ho.le
    refine .get ?_
    rw [hn]
    refine ((counts_foldAt fuel operand ho (by omega)).part hn (.head _) (Nat.le_refl lo) hi).bind ?_
    rintro n1 a1 ⟨ho1, hn1, -⟩
    refine .get ?_
    rw [Node.foldUnary?_eq, ho1.constant?_eq]
    refine (counts_replace? lo (Expr.foldUnary? op operand.fold)
      (fun c _ => givesWay_constant (by rw [hn1]; rfl) c) (by omega) (lt_size_of_node hn1 nofun)
      (P := fun _ a' => (Expr.unary op operand).fold.At a' lo id) ?_ ?_).bind
      fun n2 a2 h2 => .pure (by omega) h2
    · intro c a' hc hat
      rwa [Expr.fold, hc]
    · intro hc
      rw [Expr.fold, hc]
      exact ⟨i, hn1, ho1, hi⟩
  | fuel + 1, .call name args, a, lo, id, h, hfuel => by
    have hid := h.lt_size
    obtain ⟨link, hn, hargs⟩ := h
    obtain ⟨slots, hlinks, heach⟩ := argsAt_iff.mp hargs
    have hbounds := hlinks.bounds
    have hslots : ∀ k, (∃ s ∈ slots, s.Has k) → lo ≤ k ∧ k < id := by
      rintro k ⟨s, hs, hhas⟩
      have hb := hbounds s hs
      unfold Slot.Has at hhas
      omega
    have hkept : ∀ a', a.Differs (fun i => ∃ s ∈ slots, s.Has i) a' →
        a'.node id = .call name link ∧ ArgLinks a' slots lo id link := fun a' hd =>
      ⟨(hd.node_eq id fun hk => Nat.lt_irrefl id (hslots id hk).2).trans hn,
        hlinks.of_differs hd fun k hk _ _ => hk⟩
    have hlinked : a.Linked id slots := by
      intro a' hd s hs
      obtain ⟨hn', hlinks'⟩ := hkept a' hd
      obtain ⟨l, rfl, hreach⟩ := hlinks'.reaches s hs
      exact .head (by rw [Arena.children, hn']; exact .head _) hreach
    refine .get ?_
    rw [hn]
    refine .get ?_
    rw [hlinks.arguments_eq (Nat.le_of_lt hid)]
    obtain ⟨hover, heach'⟩ := total_slots (H := fun a s (e : Expr) => e.At a s.lo s.id) local_expr
      (foldAt fuel) Expr.fold heach hlinks.pairwise hlinked
      fun e _ a s hs hat => counts_foldAt fuel e hat (by have := hbounds s hs; omega)
    obtain ⟨hn', hlinks'⟩ := hkept _ hover.differs
    refine ⟨_, hover.lift (fun k hk => ?_) fun _ _ => .refl, (Nat.zero_add _).symm, ?_⟩
    · exact ⟨(hslots k hk).1, Nat.le_of_lt (hslots k hk).2⟩
    · rw [Expr.fold, Expr.foldAll_eq]
      exact ⟨link, hn', argsAt_iff.mpr ⟨slots, hlinks', heach'⟩⟩

/-- The tree stays as it is if no change is counted: the arena is the same then. -/
theorem counts_fold {a : Arena} {lo id : Nat} (h : e.At a lo id) :
    Counts GivesWay (fold id) a lo id
      fun n a' => e.fold.At a' lo id ∧ (n = 0 → e.fold = e) := by
  obtain ⟨hover, hat⟩ := (counts_foldAt a.size e h h.lt_size).overwrites
  refine .get ⟨_, hover, (Nat.zero_add _).symm, hat, fun hzero => ?_⟩
  rw [hzero] at hover
  rw [hover.eq_of_zero] at hat
  exact Option.some.inj (hat.expr?_eq.symm.trans h.expr?_eq)

/-! ## Replacing reads -/

mutual

/-- Replacing the reads in the expression at a place replaces them in its tree, which stays as it is
just if no read is counted. -/
theorem counts_replaceExpr : ∀ (fuel : Nat) (e : Expr) {a : Arena} {lo id : Nat}, e.At a lo id →
    id < fuel → Counts (ReadOf name c) (replaceReadsAt name c.node fuel id) a lo id
      fun n a' => (e.replace name c).At a' lo id ∧ (n = 0 ↔ e.replace name c = e)
  | 0, _, _, _, _, _, hfuel => absurd hfuel (Nat.not_lt_zero _)
  | fuel + 1, .constant k, a, lo, id, h, _ => by
    refine .get ?_
    rw [h.1]
    cases k <;> exact .pure rfl ⟨h, iff_of_true rfl rfl⟩
  | fuel + 1, .var other, a, lo, id, h, _ => by
    refine .get ?_
    rw [h.1, Expr.replace]
    dsimp only
    by_cases ho : other = name
    · rw [if_pos ho, if_pos ho]
      refine counts_replace? lo (some c) (fun c' hc => ?_) h.2 h.lt_size (fun c' _ hc hat => ?_) nofun
      · exact Option.some.inj hc ▸ ⟨ho ▸ h.1, rfl⟩
      · exact ⟨Option.some.inj hc ▸ hat, nofun, nofun⟩
    · rw [if_neg ho, if_neg ho]
      exact .pure rfl ⟨h, iff_of_true rfl rfl⟩
  | fuel + 1, .binary op left right, a, lo, id, ⟨i, j, hn, hl, hr, hj⟩, hfuel => by
    have hli := hl.le
    have hrj := hr.le
    refine .get ?_
    rw [hn]
    refine .pair (counts_replaceExpr fuel left hl (by omega)) (fun a1 hd =>
      counts_replaceExpr fuel right (hr.behind hd (Nat.lt_succ_self i)) (by omega)) hn (.head _)
      (.tail _ (.head _)) hli (by omega) hj ?_
    rintro n1 n2 a1 a2 - ⟨hl1, hsame1⟩ hd2 ⟨hr2, hsame2⟩ hn2
    refine .pure (by omega) ⟨⟨i, j, hn2, hl1.ahead hd2 (Nat.lt_succ_self i), hr2, hj⟩, ?_⟩
    simp [Expr.replace, hsame1, hsame2]
  | fuel + 1, .unary op operand, a, lo, id, ⟨i, hn, ho, hi⟩, hfuel => by
    refine .get ?_
    rw [hn]
    refine ((counts_replaceExpr fuel operand ho (by omega)).part hn (.head _) (Nat.le_refl lo)
      hi).imp ?_
    rintro n a1 ⟨⟨ho1, hsame⟩, hn1, -⟩
    exact ⟨⟨i, hn1, ho1, hi⟩, by simp [Expr.replace, hsame]⟩
  | fuel + 1, .call callee args, a, lo, id, ⟨link, hn, hargs⟩, hfuel => by
    refine .get ?_
    rw [hn]
    cases args with
    | nil =>
      obtain ⟨rfl, hle⟩ := hargs
      exact .pure rfl ⟨⟨none, hn, rfl, hle⟩, iff_of_true rfl rfl⟩
    | cons e rest =>
      have ⟨l, _, _, hlink, hl, _⟩ := hargs
      subst hlink
      refine ((counts_replaceArgs fuel (e :: rest) hargs (by omega)).part hn (.head _)
        (Nat.le_refl lo) hl).imp ?_
      rintro n a' ⟨⟨hargs', hsame⟩, hn', -⟩
      exact ⟨⟨some l, hn', hargs'⟩, by simp [Expr.replace, hsame]⟩

/-- The arguments of a call, reached over their links. -/
theorem counts_replaceArgs : ∀ (fuel : Nat) (args : List Expr) {a : Arena} {lo hi l : Nat},
    ArgsAt a args lo hi (some l) → l < fuel →
    Counts (ReadOf name c) (replaceReadsAt name c.node fuel l) a lo l
      fun n a' => ArgsAt a' (Expr.replaceAll name c args) lo hi (some l) ∧
        (n = 0 ↔ Expr.replaceAll name c args = args)
  | 0, _, _, _, _, _, _, hfuel => absurd hfuel (Nat.not_lt_zero _)
  | fuel + 1, [e], a, lo, hi, l, ⟨_, i, next, rfl, hl, hn, he, hrest⟩, hfuel => by
    obtain ⟨rfl, hil⟩ := hrest
    refine .get ?_
    rw [hn]
    refine ((counts_replaceExpr fuel e he (by omega)).part hn (.head _) (Nat.le_refl lo) hil).imp ?_
    rintro n a1 ⟨⟨he1, hsame⟩, hn1, -⟩
    exact ⟨⟨l, i, none, rfl, hl, hn1, he1, rfl, hil⟩, by simp [Expr.replaceAll, hsame]⟩
  | fuel + 1, e :: e' :: rest, a, lo, hi, l, ⟨_, i, next, rfl, hl, hn, he, hrest⟩, hfuel => by
    have ⟨l', _, _, hlink, hl', _, he', hrest'⟩ := hrest
    subst hlink
    have hlo := he.le
    have hlo' := he'.le
    have hle := hrest'.le
    refine .get ?_
    rw [hn]
    refine .pair (counts_replaceExpr fuel e he (by omega)) (fun a1 hd =>
      counts_replaceArgs fuel (e' :: rest)
        (hrest.congr (Nat.le_refl _) fun k hk _ => hd.node_behind hk) (by omega)) hn (.head _)
      (.tail _ (.head _)) hlo (by omega) hl' ?_
    rintro n1 n2 a1 a2 - ⟨he1, hsame1⟩ hd2 ⟨hrest2, hsame2⟩ hn2
    refine .pure (by omega) ⟨⟨l, i, some l', rfl, hl, hn2,
      he1.ahead hd2 (Nat.lt_succ_self i), hrest2⟩, ?_⟩
    rw [Expr.replaceAll]
    simp [hsame1, hsame2]

end

end Edit

end Ifj22
