import Ifj22.Proofs.Tree.Layout
import Ifj22.Proofs.Tree.Slot
import Mathlib.Data.Set.Card
set_option autoImplicit false

/-!
# Simplify: places that are overwritten

The work of a program is the number of operations, reads of variables, conditionals and loops among
the nodes that its root reaches.  A rewrite overwrites one place and leaves less work
(`Arena.Rewrites`).

An edit of a tree overwrites places of the tree, one after the other, each of which the root of the
tree reaches at that moment (`Arena.Overwrites`).  What is done in a part of a tree is done in the tree,
since the way from the root to the part lies outside the part.
-/

namespace Ifj22

/-! ## Work -/

/-- The node is an operation, a read of a variable, a conditional or a loop.  These are the nodes
that give way to others; none of them comes in for another. -/
def Node.isWork : Node → Bool
  | .binary _ _ _ | .unary _ _ | .var _ | .ifElse _ _ _ | .whileLoop _ _ => true
  | _ => false

theorem Constant.isWork_node (c : Constant) : c.node.isWork = false := by
  cases c <;> rfl

theorem Constant.children_node (c : Constant) : c.node.children = [] := by
  cases c <;> rfl

namespace Arena

/-- The number of places that the root reaches. -/
noncomputable def extent (a : Arena) (root : Nat) : Nat := {i | a.Reaches root i}.ncard

/-- The number of places with work among those that the root reaches. -/
noncomputable def work (a : Arena) (root : Nat) : Nat :=
  {i | a.Reaches root i ∧ (a.node i).isWork = true}.ncard

/-- Rewrites lead from the first arena to the second, that many of them: each overwrites one place
and leaves less work.  So the work that there is bounds their number, whatever the passes are. -/
inductive Rewrites (root : Nat) : Nat → Arena → Arena → Prop
  | refl (a : Arena) : Rewrites root 0 a a
  | tail {n : Nat} {a a' : Arena} {id : Nat} {node : Node} (h : Rewrites root n a a')
      (hless : (a'.set id node).work root < a'.work root) :
      Rewrites root (n + 1) a (a'.set id node)

variable {root id : Nat} {a a' a'' : Arena} {node : Node} {m n : Nat}

theorem Rewrites.trans (h : Rewrites root m a a') (h' : Rewrites root n a' a'') :
    Rewrites root (m + n) a a'' := by
  induction h' with
  | refl => exact h
  | tail _ hless ih => exact (ih h).tail hless

/-- Each rewrite takes something from the work. -/
theorem Rewrites.work_le (h : Rewrites root n a a') : a'.work root + n ≤ a.work root := by
  induction h with
  | refl a => exact le_rfl
  | tail _ hless ih => omega

theorem Rewrites.eq_of_zero (h : Rewrites root 0 a a') : a' = a := by
  cases h
  rfl

theorem children_set (hid : id < a.size) (p : Nat) :
    (a.set id node).children p = if p = id then node.children else a.children p := by
  unfold Arena.children
  rw [node_set]
  by_cases hp : p = id
  · rw [if_pos ⟨hp, hid⟩, if_pos hp]
  · rw [if_neg fun h => hp h.1, if_neg hp]

/-- Overwriting a place by a node whose children it reaches makes the root reach nothing new. -/
theorem reaches_of_set (hid : id < a.size) (hchildren : ∀ c ∈ node.children, a.Reaches id c)
    {i : Nat} (h : (a.set id node).Reaches root i) : a.Reaches root i := by
  induction h with
  | refl => exact .refl
  | @tail p c _ hc ih =>
    rw [children_set hid] at hc
    split at hc
    · rename_i hp
      exact Relation.ReflTransGen.trans (hp ▸ ih) (hchildren c hc)
    · exact ih.tail hc

theorem finite_work (a : Arena) (root : Nat) :
    {i | a.Reaches root i ∧ (a.node i).isWork = true}.Finite := by
  refine (Set.finite_lt_nat a.size).subset fun i ⟨_, hi⟩ => lt_size_of_node rfl fun hempty => ?_
  rw [hempty] at hi
  cases hi

theorem work_set_lt (hreach : a.Reaches root id) (hwork : (a.node id).isWork = true)
    (hnode : node.isWork = false) (hchildren : ∀ c ∈ node.children, a.Reaches id c) :
    (a.set id node).work root < a.work root := by
  have hid : id < a.size := lt_size_of_node rfl fun hempty => by rw [hempty] at hwork; cases hwork
  refine Set.ncard_lt_ncard ⟨fun i hi => ?_, fun hsub => ?_⟩ (finite_work a root)
  · obtain ⟨hi, hiw⟩ := hi
    refine ⟨reaches_of_set hid hchildren hi, ?_⟩
    rw [node_set] at hiw
    split at hiw
    · rw [hnode] at hiw
      cases hiw
    · exact hiw
  · have hmem := (hsub ⟨hreach, hwork⟩).2
    rw [node_set, if_pos ⟨rfl, hid⟩, hnode] at hmem
    cases hmem

section

variable (h : a.IsTree root (a.Reaches root))

include h

theorem IsTree.le_root {i : Nat} (hi : a.Reaches root i) : i ≤ root := by
  induction hi with
  | refl => exact le_rfl
  | @tail p c hp hc ih => exact Nat.le_trans (Nat.le_of_lt (h.below p c hp hc)) ih

theorem IsTree.work_le_extent : a.work root ≤ a.extent root :=
  Set.ncard_le_ncard (fun _ hi => hi.1) ((Set.finite_le_nat root).subset fun _ hi => h.le_root hi)

theorem IsTree.extent_le : a.extent root ≤ root + 1 := by
  have hcard : {i | i ≤ root}.ncard = root + 1 := by
    rw [show {i | i ≤ root} = ↑(Finset.range (root + 1)) by ext; simp, Set.ncard_coe_finset,
      Finset.card_range]
  rw [← hcard]
  exact Set.ncard_le_ncard (fun _ hi => h.le_root hi) (Set.finite_le_nat root)

end

/-! ## Overwriting -/

/-- Places of `R` that `root` reaches have been overwritten one after the other, that many of
them, each by a node that `E` admits there.  `E` is what the rewrites of a walk have in common,
and `R` are the places that it keeps to. -/
inductive Overwrites (E : Arena → Nat → Node → Prop) (root : Nat) (R : Nat → Prop) :
    Nat → Arena → Arena → Prop
  | refl (a : Arena) : Overwrites E root R 0 a a
  | tail {n i : Nat} {node : Node} {a a' : Arena} (h : Overwrites E root R n a a') (hR : R i)
      (hreach : a'.Reaches root i) (hE : E a' i node) :
      Overwrites E root R (n + 1) a (a'.set i node)

/-- Work gives way to a node that is none, and whose children the place reaches already. -/
def GivesWay (a : Arena) (i : Nat) (node : Node) : Prop :=
  (a.node i).isWork = true ∧ node.isWork = false ∧ ∀ c ∈ node.children, a.Reaches i c

/-- A read of the variable is replaced by the constant. -/
def ReadOf (name : String) (c : Constant) (a : Arena) (i : Nat) (node : Node) : Prop :=
  a.node i = .var name ∧ node = c.node

theorem givesWay_constant (h : (a.node id).isWork = true) (c : Constant) : GivesWay a id c.node :=
  ⟨h, c.isWork_node, by simp [c.children_node]⟩

theorem ReadOf.givesWay {name : String} {c : Constant} (h : ReadOf name c a id node) :
    GivesWay a id node := by
  obtain ⟨hn, rfl⟩ := h
  exact givesWay_constant (by rw [hn]; rfl) c

namespace Overwrites

variable {E E' : Arena → Nat → Node → Prop} {root' : Nat} {R R' : Nat → Prop}

theorem trans (h : Overwrites E root R m a a') (h' : Overwrites E root R n a' a'') :
    Overwrites E root R (m + n) a a'' := by
  induction h' with
  | refl => exact h
  | tail _ hR hreach hE ih => exact (ih h).tail hR hreach hE

theorem imp (h : Overwrites E root R n a a') (hE : ∀ {a i node}, E a i node → E' a i node) :
    Overwrites E' root R n a a' := by
  induction h with
  | refl a => exact .refl a
  | tail _ hR hreach hi ih => exact ih.tail hR hreach (hE hi)

theorem differs (h : Overwrites E root R n a a') : a.Differs R a' := by
  induction h with
  | refl a => exact .refl R a
  | @tail _ i node _ a' _ hR _ _ ih =>
    exact ih.trans ((Differs.set a' i node).mono fun j hj => hj ▸ hR)

/-- What is done in a part, which a root reaches whatever is done there, is done below the root. -/
theorem lift (h : Overwrites E root R n a a') (hR : ∀ i, R i → R' i)
    (hroot : ∀ a', a.Differs R a' → a'.Reaches root' root) : Overwrites E root' R' n a a' := by
  induction h with
  | refl a => exact .refl a
  | tail h hi hreach hE ih =>
    exact (ih hroot).tail (hR _ hi) ((hroot _ h.differs).trans hreach) hE

theorem eq_of_zero (h : Overwrites E root R 0 a a') : a' = a := by
  cases h
  rfl

/-- Where work gives way, each step is a rewrite. -/
theorem rewrites (h : Overwrites GivesWay root R n a a') : Rewrites root n a a' := by
  induction h with
  | refl a => exact .refl a
  | tail _ _ hreach hE ih => exact ih.tail (work_set_lt hreach hE.1 hE.2.1 hE.2.2)

end Overwrites

/-! ## Lists -/

/-- The root reaches the slots, whatever is done in them. -/
def Linked (a : Arena) (root : Nat) (slots : List Slot) : Prop :=
  ∀ a', a.Differs (fun i => ∃ s ∈ slots, s.Has i) a' → ∀ s ∈ slots, a'.Reaches root s.id

section

variable {E : Arena → Nat → Node → Prop} {s : Slot} {slots : List Slot}

theorem Linked.mono (h : a.Linked root slots) {others : List Slot} (hsub : ∀ s ∈ others, s ∈ slots) :
    a.Linked root others := by
  intro a' hd s hs
  refine h a' (hd.mono ?_) s (hsub s hs)
  rintro i ⟨t, ht, hi⟩
  exact ⟨t, hsub t ht, hi⟩

theorem Linked.of_differs (h : a.Linked root slots)
    (hd : a.Differs (fun i => ∃ s ∈ slots, s.Has i) a') : a'.Linked root slots :=
  fun a'' hd' => h a'' (hd.trans hd')

theorem Linked.tail (h : a.Linked root (s :: slots)) (hd : a.Differs s.Has a') :
    a'.Linked root slots :=
  (h.of_differs (hd.mono fun _ hi => ⟨s, .head _, hi⟩)).mono fun _ ht => .tail s ht

/-- What is done in the first slot, and then in the others, is done in the slots of the list. -/
theorem Linked.overwrites (h : a.Linked root (s :: slots)) (h1 : Overwrites E s.id s.Has m a a')
    (h2 : Overwrites E root (fun i => ∃ t ∈ slots, t.Has i) n a' a'') :
    Overwrites E root (fun i => ∃ t ∈ s :: slots, t.Has i) (m + n) a a'' := by
  have hfirst : ∀ i, s.Has i → ∃ t ∈ s :: slots, t.Has i := fun i hi => ⟨s, .head _, hi⟩
  refine (h1.lift hfirst fun a1 hd => h a1 (hd.mono hfirst) s (.head _)).trans
    (h2.lift ?_ fun _ _ => .refl)
  rintro i ⟨t, ht, hi⟩
  exact ⟨t, .tail s ht, hi⟩

end

end Arena

theorem ArgLinks.reaches {a : Arena} : ∀ {slots : List Slot} {lo hi : Nat} {link : Option Nat},
    ArgLinks a slots lo hi link → ∀ s ∈ slots, ∃ l, link = some l ∧ a.Reaches l s.id
  | s :: rest, lo, hi, link, ⟨_, _, l, next, hlink, _, hn, hrest⟩, t, ht => by
    have hchild : ∀ c ∈ s.id :: next.toList, a.Reaches l c := fun c hc =>
      .single (by rw [Arena.children, hn]; exact hc)
    refine ⟨l, hlink, ?_⟩
    rcases List.mem_cons.mp ht with rfl | ht
    · exact hchild _ (.head _)
    · obtain ⟨l', rfl, hreach⟩ := hrest.reaches t ht
      exact (hchild l' (.tail _ (.head _))).trans hreach

/-- The last link of a list reaches the link before it, and so on. -/
theorem StmtLinks.reaches {a : Arena} {id : Nat} : ∀ {slots : List Slot} {before : Option Nat}
    {lo : Nat}, StmtLinks a slots before lo id →
      (∀ b ∈ before, a.Reaches id b) ∧ ∀ s ∈ slots, a.Reaches id s.id
  | [], before, lo, h => by
    refine ⟨fun b hb => ?_, nofun⟩
    rcases h with rfl | ⟨rfl, _⟩
    · cases hb
      exact .refl
    · cases hb
  | s :: rest, before, lo, ⟨_, _, link, _, hn, hrest⟩ => by
    obtain ⟨hlink, hothers⟩ := hrest.reaches
    have hchild : ∀ c ∈ before.toList ++ [s.id], a.Reaches id c := fun c hc =>
      (hlink link rfl).tail (by rw [Arena.children, hn]; exact hc)
    refine ⟨fun b hb => hchild b (by simp_all), fun t ht => ?_⟩
    rcases List.mem_cons.mp ht with rfl | ht
    · exact hchild _ (by simp)
    · exact hothers t ht

theorem StmtLinks.inside {a : Arena} {lo id : Nat} {slots : List Slot}
    (h : StmtLinks a slots none lo id) (i : Nat) :
    (∃ s ∈ slots, s.Has i) → (Slot.mk lo id).Has i := by
  rintro ⟨s, hs, hi⟩
  have hb := h.bounds s hs
  exact ⟨Nat.le_trans hb.1 hi.1, Nat.le_trans hi.2 (Nat.le_of_lt hb.2)⟩

theorem StmtLinks.linked {a : Arena} {lo id : Nat} {slots : List Slot}
    (h : StmtLinks a slots none lo id) : a.Linked id slots := fun _ hd =>
  (h.of_differs hd fun _ hi _ _ => hi).reaches.2

end Ifj22
