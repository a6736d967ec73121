import Ifj22.Proofs.Tree.Place
import Mathlib.Data.List.Nodup
import Mathlib.Data.List.Pairwise
import Mathlib.Data.List.Perm.Basic
import Mathlib.Logic.Relation
set_option autoImplicit false

/-!
# Tree: every place has one parent

`IsTree` says of the links of an arena alone, whatever its nodes mean, that they form a tree: every
child lies below its parent, and every place but the root is the child of one place, once.

Trees are laid out in an arena as in `Expr.At`: the children of a place lie below it, in ranges of
their own.  `Laid` says that for the places of a range and a list of roots, and lists the places in
use.  A layout makes a tree of them (`Laid.isTree`), and a tree that an arena holds has a layout with
as many places as the tree has parts (`Stmt.At.laid`).
-/

namespace Ifj22

namespace Arena

variable {a : Arena} {lo hi : Nat} {ids places : List Nat}

/-! ## Trees of places -/

/-- The places of `S` form a tree with the given root.  Children lie below their parents, as the
parser makes them, so a walk down the tree ends. -/
structure IsTree (a : Arena) (root : Nat) (S : Nat → Prop) : Prop where
  root_mem : S root
  /-- A child of a place of the tree is a place of the tree. -/
  closed : ∀ p c : Nat, S p → c ∈ a.children p → S c
  below : ∀ p c : Nat, S p → c ∈ a.children p → c < p
  /-- The root is the child of no place. -/
  root_free : ∀ p, S p → root ∉ a.children p
  /-- Every other place is the child of one place. -/
  one_parent : ∀ c, S c → c ≠ root → ∃! p, S p ∧ c ∈ a.children p
  /-- A place is not a child of another twice. -/
  one_link : ∀ p, S p → (a.children p).Nodup

/-- The second place is the first, or a child of a place that the first reaches. -/
def Reaches (a : Arena) : Nat → Nat → Prop :=
  Relation.ReflTransGen fun p c => c ∈ a.children p

/-- A tree below its root is what the root reaches. -/
theorem IsTree.reaches_iff {root : Nat} {S : Nat → Prop} (h : a.IsTree root S)
    (hle : ∀ c, S c → c ≤ root) (c : Nat) : S c ↔ a.Reaches root c := by
  refine ⟨fun hc => ?_, fun hc => ?_⟩
  · -- a place that is not the root has a parent above it, so the way up ends at the root
    obtain ⟨n, hn⟩ : ∃ n, n = root - c := ⟨_, rfl⟩
    induction n using Nat.strongRecOn generalizing c with
    | _ n ih =>
      by_cases hroot : c = root
      · exact hroot ▸ .refl
      · obtain ⟨p, ⟨hp, hmem⟩, _⟩ := h.one_parent c hc hroot
        have hlt := h.below p c hp hmem
        have hple := hle p hp
        exact (ih (root - p) (by omega) p hp rfl).tail hmem
  · induction hc with
    | refl => exact h.root_mem
    | tail _ hmem ih => exact h.closed _ _ ih hmem

/-! ## Layouts -/

/-- The places from `lo` on and below `hi` hold trees with the given roots, one behind the other, and
use the given places. -/
inductive Laid (a : Arena) : Nat → Nat → List Nat → List Nat → Prop
  | nil {lo hi : Nat} (h : lo ≤ hi) : Laid a lo hi [] []
  | cons {lo hi : Nat} {id : Nat} {rest inner outer : List Nat}
      (h : Laid a lo id (a.children id) inner) (hrest : Laid a (id + 1) hi rest outer) :
      Laid a lo hi (id :: rest) (inner ++ id :: outer)

namespace Laid

theorem le (h : a.Laid lo hi ids places) : lo ≤ hi := by
  induction h with
  | nil h => exact h
  | cons _ _ ih1 ih2 => omega

theorem bounds (h : a.Laid lo hi ids places) : ∀ x ∈ places, lo ≤ x ∧ x < hi := by
  induction h with
  | nil h => simp
  | @cons lo hi id rest inner outer h hrest ih1 ih2 =>
    have hlo := h.le
    have hhi := hrest.le
    intro x hx
    rcases List.mem_append.mp hx with hx | hx
    · have := ih1 x hx
      omega
    rcases List.mem_cons.mp hx with rfl | hx
    · omega
    · have := ih2 x hx
      omega

/-- The places in use stand in order, so none stands there twice. -/
theorem pairwise (h : a.Laid lo hi ids places) : places.Pairwise (· < ·) := by
  induction h with
  | nil h => exact .nil
  | @cons lo hi id rest inner outer h hrest ih1 ih2 =>
    refine List.pairwise_append.mpr ⟨ih1, List.pairwise_cons.mpr ⟨fun x hx => ?_, ih2⟩, ?_⟩
    · exact (hrest.bounds x hx).1
    · intro x hx y hy
      have hxid := (h.bounds x hx).2
      rcases List.mem_cons.mp hy with rfl | hy
      · exact hxid
      · exact Nat.lt_trans hxid (hrest.bounds y hy).1

theorem roots_mem (h : a.Laid lo hi ids places) : ∀ r ∈ ids, r ∈ places := by
  induction h with
  | nil h => simp
  | @cons lo hi id rest inner outer h hrest ih1 ih2 =>
    intro r hr
    rcases List.mem_cons.mp hr with rfl | hr
    · simp
    · simp [ih2 r hr]

/-- Every child lies below its parent. -/
theorem child_lt (h : a.Laid lo hi ids places) :
    ∀ p c : Nat, p ∈ places → c ∈ a.children p → c < p := by
  induction h with
  | nil h => simp
  | @cons lo hi id rest inner outer h hrest ih1 ih2 =>
    intro p c hp hc
    rcases List.mem_append.mp hp with hp | hp
    · exact ih1 p c hp hc
    rcases List.mem_cons.mp hp with rfl | hp
    · exact (h.bounds c (h.roots_mem c hc)).2
    · exact ih2 p c hp hc

/-- The children of the places in use and the roots are the places in use, each once. -/
theorem perm (h : a.Laid lo hi ids places) : (places.flatMap a.children ++ ids).Perm places := by
  induction h with
  | nil h => exact .refl _
  | @cons lo hi id rest inner outer h hrest ih1 ih2 =>
    have hcalc : ((inner ++ id :: outer).flatMap a.children ++ id :: rest).Perm
        ((inner.flatMap a.children ++ a.children id) ++
          id :: (outer.flatMap a.children ++ rest)) := by
      simp only [List.flatMap_append, List.flatMap_cons, List.append_assoc]
      refine .append_left _ (.append_left _ ?_)
      exact List.perm_middle
    exact hcalc.trans (ih1.append (ih2.cons id))

/-- What a layout with one root uses is a tree. -/
theorem isTree {root : Nat} (h : a.Laid lo hi [root] places) : a.IsTree root (· ∈ places) := by
  have hperm := h.perm
  have hnodup : (places.flatMap a.children ++ [root]).Nodup :=
    hperm.nodup_iff.mpr (h.pairwise.imp Nat.ne_of_lt)
  obtain ⟨hlinks, _, hapart⟩ := List.nodup_append.mp hnodup
  obtain ⟨hone, hdisjoint⟩ := List.nodup_flatMap.mp hlinks
  have hclosed : ∀ p c : Nat, p ∈ places → c ∈ a.children p → c ∈ places := fun p c hp hc =>
    hperm.mem_iff.mp (List.mem_append_left _ (List.mem_flatMap.mpr ⟨p, hp, hc⟩))
  refine ⟨h.roots_mem root (by simp), hclosed, h.child_lt, ?_, ?_, hone⟩
  · exact fun p hp hc => hapart root (List.mem_flatMap.mpr ⟨p, hp, hc⟩) root (by simp) rfl
  · intro c hc hne
    have hmem : c ∈ places.flatMap a.children := by
      rcases List.mem_append.mp (hperm.mem_iff.mpr hc) with hmem | hmem
      · exact hmem
      · exact absurd (List.mem_singleton.mp hmem) hne
    obtain ⟨p, hp, hcp⟩ := List.mem_flatMap.mp hmem
    refine ⟨p, ⟨hp, hcp⟩, fun q ⟨hq, hcq⟩ => ?_⟩
    have hsymm : Std.Symm (Function.onFun List.Disjoint a.children) :=
      ⟨fun _ _ h _ hx hy => h hy hx⟩
    exact by_contra fun hqp => hdisjoint.forall hq hp hqp hcq hcp

theorem mem_of_reaches {root x : Nat} (h : a.Laid lo hi [root] places) (hx : a.Reaches root x) :
    x ∈ places := by
  induction hx with
  | refl => exact h.isTree.root_mem
  | tail _ hc ih => exact h.isTree.closed _ _ ih hc

/-! ## Layouts from parts -/

theorem widen (h : a.Laid lo hi ids places) {hi' : Nat} (hle : hi ≤ hi') :
    a.Laid lo hi' ids places := by
  induction h with
  | nil h => exact .nil (Nat.le_trans h hle)
  | cons h hrest _ ih => exact .cons h (ih hle)

theorem append {mid : Nat} {ids' places' : List Nat} (h : a.Laid lo mid ids places)
    (h' : a.Laid mid hi ids' places') : a.Laid lo hi (ids ++ ids') (places ++ places') := by
  induction h with
  | @nil lo mid hle =>
    -- the range of the first tree of the second part grows to the left
    cases h' with
    | nil hle' => exact .nil (Nat.le_trans hle hle')
    | cons h hrest => exact .cons (mono hle h) hrest
  | cons h hrest _ ih =>
    rw [List.append_assoc]
    exact .cons h (ih h')
where
  /-- A range may grow to the left. -/
  mono {lo lo' hi : Nat} {ids places : List Nat} (hlo : lo' ≤ lo) (h : a.Laid lo hi ids places) :
      a.Laid lo' hi ids places := by
    induction h with
    | nil h => exact .nil (Nat.le_trans hlo h)
    | cons _ hrest ih _ => exact .cons (ih hlo) hrest

/-- A place whose children are laid out below it is a tree of its own. -/
theorem root {id : Nat} (h : a.Laid lo id (a.children id) places) :
    a.Laid lo (id + 1) [id] (places ++ [id]) :=
  .cons h (.nil (Nat.le_refl _))

/-- Below a place with one root, all places in use are up to the root. -/
theorem reaches_isTree {root : Nat} (h : a.Laid lo (root + 1) [root] places) :
    a.IsTree root (a.Reaches root) := by
  have htree := h.isTree
  have hreach : (· ∈ places) = a.Reaches root :=
    funext fun c => propext (htree.reaches_iff (fun c hc => Nat.le_of_lt_succ (h.bounds c hc).2) c)
  rwa [hreach] at htree

end Laid

/-- The arena holds trees with the given roots, one behind the other, and nothing else. -/
def Filled (a : Arena) (roots : List Nat) : Prop := a.Laid 0 a.size roots (List.range a.size)

/-- A layout that uses as many places as there are uses all of them. -/
theorem Laid.filled (h : a.Laid 0 a.size ids places) (hlength : places.length = a.size) :
    a.Filled ids := by
  have hsub : places ⊆ List.range a.size := fun x hx => List.mem_range.mpr (h.bounds x hx).2
  have hperm : places.Perm (List.range a.size) :=
    (List.subperm_of_subset (h.pairwise.imp Nat.ne_of_lt) hsub).perm_of_length_le
      (Nat.le_of_eq (by rw [List.length_range, hlength]))
  have heq : places = List.range a.size :=
    hperm.eq_of_pairwise (fun x y _ _ hxy hyx => absurd hxy (Nat.lt_asymm hyx)) h.pairwise
      List.pairwise_lt_range
  rwa [heq] at h

/-- An arena that is filled with one tree is a tree. -/
theorem Filled.isTree {root : Nat} (h : a.Filled [root]) : a.IsTree root (· < a.size) := by
  have hrange : (· ∈ List.range a.size) = (· < a.size) := funext fun i => by simp
  exact hrange ▸ Laid.isTree h

end Arena

/-! ## The number of places -/

mutual

/-- The number of places of an expression. -/
def Expr.size : Expr → Nat
  | .constant _ => 1
  | .var _ => 1
  | .binary _ left right => left.size + right.size + 1
  | .unary _ operand => operand.size + 1
  | .call _ args => argsSize args + 1

def argsSize : List Expr → Nat
  | [] => 0
  | e :: args => e.size + argsSize args + 1

end

mutual

/-- The number of places of a statement.  An empty list takes one place, any other one a link for
each of its statements. -/
def Stmt.size : Stmt → Nat
  | .assign _ value => value.size + 1
  | .expr value => value.size
  | .ret none => 1
  | .ret (some value) => value.size + 1
  | .block body => max 1 (linksSize body)
  | .ifElse cond thenBody none => cond.size + max 1 (linksSize thenBody) + 1
  | .ifElse cond thenBody (some elseBody) =>
    cond.size + max 1 (linksSize thenBody) + max 1 (linksSize elseBody) + 1
  | .whileLoop cond body => cond.size + max 1 (linksSize body) + 1
  | .function _ _ _ body => max 1 (linksSize body) + 1

def linksSize : List Stmt → Nat
  | [] => 0
  | s :: body => s.size + linksSize body + 1

end

/-! ## The layout of a program -/

/-- The places from `lo` to `id` hold a tree of `n` places with its root at `id`. -/
def Arena.LaidAt (a : Arena) (lo id n : Nat) : Prop :=
  ∃ places, a.Laid lo (id + 1) [id] places ∧ places.length = n

namespace Arena.LaidAt

variable {a : Arena} {lo id i j k l m n : Nat}

theorem leaf (hn : a.children id = []) (h : lo ≤ id) : a.LaidAt lo id 1 :=
  ⟨_, .root (by rw [hn]; exact .nil h), rfl⟩

theorem one (hn : a.children id = [i]) (hi : a.LaidAt lo i n) (h : i < id) :
    a.LaidAt lo id (n + 1) := by
  obtain ⟨ps, hi, rfl⟩ := hi
  exact ⟨_, .root (by rw [hn]; exact hi.widen h), by simp⟩

theorem two (hn : a.children id = [i, j]) (hi : a.LaidAt lo i m) (hj : a.LaidAt (i + 1) j n)
    (h : j < id) : a.LaidAt lo id (m + n + 1) := by
  obtain ⟨ps, hi, rfl⟩ := hi
  obtain ⟨qs, hj, rfl⟩ := hj
  exact ⟨_, .root (by rw [hn]; exact hi.append (hj.widen h)), by simp; omega⟩

theorem three (hn : a.children id = [i, j, k]) (hi : a.LaidAt lo i l) (hj : a.LaidAt (i + 1) j m)
    (hk : a.LaidAt (j + 1) k n) (h : k < id) : a.LaidAt lo id (l + m + n + 1) := by
  obtain ⟨ps, hi, rfl⟩ := hi
  obtain ⟨qs, hj, rfl⟩ := hj
  obtain ⟨rs, hk, rfl⟩ := hk
  exact ⟨_, .root (by rw [hn]; exact hi.append (hj.append (hk.widen h))), by simp; omega⟩

end Arena.LaidAt

variable {a : Arena}

mutual

theorem Expr.At.laid {lo id : Nat} : ∀ {e : Expr}, e.At a lo id → a.LaidAt lo id e.size
  | .constant c, ⟨hn, h⟩ => .leaf (by rw [Arena.children, hn]; cases c <;> rfl) h
  | .var _, ⟨hn, h⟩ => .leaf (by rw [Arena.children, hn]; rfl) h
  | .binary _ _ _, ⟨_, _, hn, hl, hr, h⟩ =>
    .two (by rw [Arena.children, hn]; rfl) hl.laid hr.laid h
  | .unary _ _, ⟨_, hn, ho, h⟩ => .one (by rw [Arena.children, hn]; rfl) ho.laid h
  | .call _ _, ⟨link, hn, hargs⟩ => by
    obtain ⟨places, hlaid, hlength⟩ := hargs.laid
    exact ⟨_, .root (by rw [Arena.children, hn]; exact hlaid), by simp [Expr.size, hlength]⟩

theorem ArgsAt.laid {lo hi : Nat} {link : Option Nat} :
    ∀ {args : List Expr}, ArgsAt a args lo hi link →
      ∃ places, a.Laid lo hi link.toList places ∧ places.length = argsSize args
  | [], ⟨hlink, h⟩ => ⟨[], by rw [hlink]; exact .nil h, rfl⟩
  | _ :: _, ⟨l, i, next, hlink, hl, hn, he, hrest⟩ => by
    obtain ⟨ps, he, hps⟩ := he.laid
    obtain ⟨qs, hrest, hqs⟩ := hrest.laid
    have hchildren : a.children l = [i] ++ next.toList := by rw [Arena.children, hn]; rfl
    have hlaid : a.Laid lo l (a.children l) (ps ++ qs) := by
      rw [hchildren]
      exact he.append hrest
    exact ⟨_, by rw [hlink]; exact hlaid.root.widen hl, by simp [argsSize, hps, hqs]; omega⟩

end

mutual

theorem Stmt.At.laid {lo id : Nat} : ∀ {s : Stmt}, s.At a lo id → a.LaidAt lo id s.size
  | .assign _ _, ⟨_, hn, hv, h⟩ => .one (by rw [Arena.children, hn]; rfl) hv.laid h
  | .expr _, h => Expr.At.laid h
  | .ret none, ⟨hn, h⟩ => .leaf (by rw [Arena.children, hn]; rfl) h
  | .ret (some _), ⟨_, hn, hv, h⟩ => .one (by rw [Arena.children, hn]; rfl) hv.laid h
  | .block _, h => ListAt.laid h (.nil (Nat.le_refl lo))
  | .ifElse _ _ none, ⟨_, _, hn, hc, ht, h⟩ =>
    .two (by rw [Arena.children, hn]; rfl) hc.laid (ht.laid (.nil (Nat.le_refl _))) h
  | .ifElse _ _ (some _), ⟨_, _, _, hn, hc, ht, he, h⟩ =>
    .three (by rw [Arena.children, hn]; rfl) hc.laid (ht.laid (.nil (Nat.le_refl _)))
      (he.laid (.nil (Nat.le_refl _))) h
  | .whileLoop _ _, ⟨_, _, hn, hc, hb, h⟩ =>
    .two (by rw [Arena.children, hn]; rfl) hc.laid (hb.laid (.nil (Nat.le_refl _))) h
  | .function _ _ _ _, ⟨_, hn, hb, h⟩ =>
    .one (by rw [Arena.children, hn]; rfl) (hb.laid (.nil (Nat.le_refl _))) h

/-- The links of a list are laid out behind the links that it extends. -/
theorem ListAt.laid {id : Nat} : ∀ {body : List Stmt} {before : Option Nat} {lo start : Nat}
    {places : List Nat}, ListAt a body before lo id → a.Laid start lo before.toList places →
      a.LaidAt start id (max 1 (linksSize body + places.length))
  | [], before, lo, start, places, h, hbefore => by
    rcases h with rfl | ⟨rfl, hn, _, hlo⟩
    · cases hbefore with
      | cons hinner hrest =>
        cases hrest
        exact ⟨_, hinner.root, by simp [linksSize]⟩
    · cases hbefore with
      | nil h => exact .leaf (by rw [Arena.children, hn]; rfl) (Nat.le_trans h hlo)
  | s :: rest, before, lo, start, places, ⟨i, link, hs, hi, hn, hrest⟩, hbefore => by
    obtain ⟨qs, hs, hqs⟩ := hs.laid
    have hchildren : a.children link = before.toList ++ [i] := by rw [Arena.children, hn]; rfl
    have hlaid : a.Laid start link (a.children link) (places ++ qs) := by
      rw [hchildren]
      exact hbefore.append (hs.widen hi)
    have hcount : linksSize rest + (places ++ qs ++ [link]).length =
        linksSize (s :: rest) + places.length := by
      simp only [List.length_append, List.length_singleton, linksSize, hqs]
      omega
    exact hcount ▸ hrest.laid hlaid.root

end

/-- What the root of a program that is held reaches is a tree. -/
theorem Program.Holds.isTree {p : Program} {body : List Stmt} (h : p.Holds body) :
    p.arena.IsTree p.root (p.arena.Reaches p.root) := by
  obtain ⟨places, hlaid, _⟩ := ListAt.laid h (.nil (Nat.le_refl 0))
  exact hlaid.reaches_isTree

end Ifj22
