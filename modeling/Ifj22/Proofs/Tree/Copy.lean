import Ifj22.Arena.Copy
import Ifj22.Arena.Dump
import Ifj22.Proofs.Tree.Layout
import Mathlib.Data.List.Forall2
set_option autoImplicit false

/-!
# Tree: a copy has places of its own

The source of a copy need not be a tree: its children lie below their parents, but several links may
lead to one place.  A copy is a tree all the same, laid out behind the places that the arena had, and
`Alike` to its source.  So neither of the two reaches a place of the other.
-/

namespace Ifj22

/-! ## Nodes without places -/

/-- The node with its children left out; it still shows which of them there are. -/
def Node.bare (n : Node) : Node := Id.run (n.traverse fun _ => pure 0)

theorem Node.label_bare (n : Node) : n.bare.label = n.label := by
  cases n <;> rfl

/-- Rebuilding a node runs over its children and changes nothing else in it. -/
theorem Node.traverse_eq (f : NodeId → StateM Arena NodeId) (n : Node) (a : Arena) :
    ∃ n' : Node, n.traverse f a = (n', (n.children.mapM f a).2) ∧
      n'.children = (n.children.mapM f a).1 ∧ n'.bare = n.bare := by
  cases n with
  | call _ args => cases args <;> exact ⟨_, rfl, rfl, rfl⟩
  | argument _ next => cases next <;> exact ⟨_, rfl, rfl, rfl⟩
  | sequence prev stmt => cases prev <;> cases stmt <;> exact ⟨_, rfl, rfl, rfl⟩
  | ifElse _ _ elseBody => cases elseBody <;> exact ⟨_, rfl, rfl, rfl⟩
  | ret value => cases value <;> exact ⟨_, rfl, rfl, rfl⟩
  | _ => exact ⟨_, rfl, rfl, rfl⟩

namespace Arena

variable {a b : Arena} {i j k id : Nat} {ids : List Nat}

/-! ## Places with the same tree -/

/-- Down to a depth, the tree at the first place of `a` is the tree at the second place of `b`.
The depth is there because an arena may have cycles; trees are the same if they are alike down to
every depth. -/
def Alike (a b : Arena) : Nat → Nat → Nat → Prop
  | 0, _, _ => True
  | depth + 1, i, j => (a.node i).bare = (b.node j).bare ∧
    List.Forall₂ (Alike a b depth) (a.children i) (b.children j)

/-- Only the places that a place reaches matter to its tree. -/
theorem alike_of_reaches {depth : Nat} (h : ∀ k, a.Reaches i k → b.node k = a.node k) :
    a.Alike b depth i i := by
  induction depth generalizing i with
  | zero => trivial
  | succ depth ih =>
    have hi := h i .refl
    refine ⟨by rw [hi], ?_⟩
    rw [children, children, hi]
    exact List.forall₂_same.mpr fun c hc => ih fun k hk => h k (.head hc hk)

/-- Trees that are alike have the same lines. -/
theorem Alike.linesOnto_eq {depth : Nat} (h : a.Alike b depth i j) (level : Nat)
    (tail : List String) : a.linesOnto depth level i tail = b.linesOnto depth level j tail := by
  induction depth generalizing i j level tail with
  | zero => rfl
  | succ depth ih =>
    obtain ⟨hbare, hchildren⟩ := h
    have hlabel : (a.node i).label = (b.node j).label := by
      rw [← Node.label_bare, hbare, Node.label_bare]
    rw [linesOnto, linesOnto, dumpLine, dumpLine, hlabel]
    congr 1
    generalize a.children i = is, b.children j = js at hchildren
    induction hchildren with
    | nil => rfl
    | cons hc _ ihrest => rw [List.foldr_cons, List.foldr_cons, ihrest, ih hc]

section Down

variable (hdown : ∀ p c : Nat, c ∈ a.children p → c < p)
include hdown

theorem Reaches.le_of_extends (hext : a.Extends b) (hi : i < a.size) (h : b.Reaches i k) :
    k ≤ i := by
  induction h with
  | refl => exact Nat.le_refl i
  | @tail p c _ hc ih =>
    rw [children, hext.node p (Nat.lt_of_le_of_lt ih hi)] at hc
    exact Nat.le_trans (Nat.le_of_lt (hdown p c hc)) ih

/-- Where children lie below their parents, a walk that starts above its place is not cut. -/
theorem linesOnto_eq_of_lt {fuel fuel' : Nat} (h : id < fuel) (h' : id < fuel') (level : Nat)
    (tail : List String) : a.linesOnto fuel level id tail = a.linesOnto fuel' level id tail := by
  induction fuel generalizing fuel' id level tail with
  | zero => cases h
  | succ fuel ih =>
    obtain ⟨fuel', rfl⟩ := exists_fuel h'
    rw [linesOnto, linesOnto]
    congr 1
    refine List.foldr_ext _ _ _ fun c hc tail => ?_
    have hlt := hdown id c hc
    exact ih (by omega) (by omega) (level + 1) tail

end Down

/-! ## Copying -/

/-- The step appends copies of trees of `a`: places of their own that hold trees, alike to their
sources.  They stay what they are when more is appended. -/
def Appends (a : Arena) (m : StateM Arena (List Nat)) (b : Arena) (sources : List Nat) : Prop :=
  ∃ roots b', m b = (roots, b') ∧ b.Extends b' ∧ ∀ c, b'.Extends c →
    (∃ places, c.Laid b.size b'.size roots places) ∧
      List.Forall₂ (fun i j => ∀ depth, a.Alike c depth i j) sources roots

theorem appends_mapM {f : Nat → StateM Arena Nat}
    (hf : ∀ i ∈ ids, ∀ b, a.Extends b → Appends a (do pure [← f i]) b [i]) (hb : a.Extends b) :
    Appends a (ids.mapM f) b ids := by
  induction ids generalizing b with
  | nil => exact ⟨[], b, rfl, .refl b, fun c _ => ⟨⟨[], .nil (Nat.le_refl _)⟩, .nil⟩⟩
  | cons i ids ih =>
    obtain ⟨_, b1, hrun1, hext1, hcopies1⟩ := hf i (.head _) b hb
    obtain ⟨roots, b2, hrun2, hext2, hcopies2⟩ :=
      ih (fun i hi => hf i (.tail _ hi)) (hb.trans hext1)
    obtain ⟨rfl, rfl⟩ := Prod.mk.inj hrun1
    refine ⟨(f i b).1 :: roots, b2, ?_, hext1.trans hext2, fun c hc => ?_⟩
    · rw [List.mapM_cons]
      show ((f i b).1 :: (ids.mapM f (f i b).2).1, (ids.mapM f (f i b).2).2) = _
      rw [hrun2]
    · obtain ⟨⟨places1, hlaid1⟩, hall1⟩ := hcopies1 c (hext2.trans hc)
      obtain ⟨⟨places2, hlaid2⟩, hall2⟩ := hcopies2 c hc
      cases hall1 with
      | cons hfirst _ => exact ⟨⟨_, hlaid1.append hlaid2⟩, .cons hfirst hall2⟩

/-- A copy is appended, whatever has been appended to the arena before. -/
theorem appends_copyFrom (hdown : ∀ p c : Nat, c ∈ a.children p → c < p) {fuel : Nat}
    (hfuel : i < fuel) (hi : i < a.size) (hb : a.Extends b) :
    Appends a (do pure [← copyFrom fuel i]) b [i] := by
  induction fuel generalizing i b with
  | zero => cases hfuel
  | succ fuel ih =>
    have hchildren : ∀ c ∈ a.children i, ∀ b, a.Extends b →
        Appends a (do pure [← copyFrom fuel c]) b [c] := fun c hc b hb => by
      have hlt := hdown i c hc
      exact ih (by omega) (by omega) hb
    obtain ⟨roots, b1, hrun, hext, hcopies⟩ := appends_mapM hchildren hb
    obtain ⟨n, hnode, hroots, hbare⟩ := (a.node i).traverse_eq (copyFrom fuel) b
    have hmapM : (a.node i).children.mapM (copyFrom fuel) b = (roots, b1) := hrun
    rw [hmapM] at hnode hroots
    have hpush := Extends.push b1 n
    refine ⟨[b1.size], (b1.push n).2, ?_, hext.trans hpush, fun c hc => ?_⟩
    · rw [← hb.node i hi] at hnode
      show (let r := (b.node i).traverse (copyFrom fuel) b; ([r.2.size], (r.2.push r.1).2)) = _
      rw [hnode]
    · obtain ⟨⟨places, hlaid⟩, hall⟩ := hcopies c (hpush.trans hc)
      have hroot : c.node b1.size = n := by
        rw [hc.node _ (by simp), node_push, if_pos rfl]
      have hlinks : c.children b1.size = roots := by rw [children, hroot, hroots]
      rw [size_push]
      refine ⟨⟨_, Laid.root (hlinks.symm ▸ hlaid)⟩, .cons (fun depth => ?_) .nil⟩
      cases depth with
      | zero => trivial
      | succ depth =>
        refine ⟨by rw [hroot, hbare], ?_⟩
        rw [hlinks]
        exact hall.imp fun _ _ h => h depth

/-! ## Overwriting one of the two -/

/-- Overwrites places, one after the other. -/
def overwrite (a : Arena) (edits : List (NodeId × Node)) : Arena :=
  edits.foldl (fun a edit => a.set edit.1 edit.2) a

/-- Overwriting places that a tree does not reach leaves its dump as it was. -/
theorem dump_overwrite {edits : List (NodeId × Node)} (h : ∀ e ∈ edits, ¬ a.Reaches id e.1) :
    (a.overwrite edits).dump id = a.dump id := by
  have hsame : ∀ b : Arena, (b.overwrite edits).size = b.size ∧
      ∀ k, a.Reaches id k → (b.overwrite edits).node k = b.node k := by
    induction edits with
    | nil => exact fun b => ⟨rfl, fun k _ => rfl⟩
    | cons e edits ih =>
      intro b
      obtain ⟨hsize, hnode⟩ := ih (fun e he => h e (.tail _ he)) (b.set e.1 e.2)
      refine ⟨hsize.trans (size_set b e.1 e.2), fun k hk => (hnode k hk).trans ?_⟩
      rw [node_set, if_neg]
      rintro ⟨rfl, _⟩
      exact h e (.head _) hk
  have halike : a.Alike (a.overwrite edits) a.size id id := alike_of_reaches (hsame a).2
  rw [dump, dump, (hsame a).1, halike.linesOnto_eq]

/-- A copy leaves the places of the arena as they are and has the tree of its source, also where
that reaches a place on several ways.  It has new places, and is a tree of them; so overwriting
places of the one leaves the dump of the other as it was.  Where children lie below their parents
there is no cycle, and so a tree to copy. -/
theorem copy_alike_and_apart (hdown : ∀ p c : Nat, c ∈ a.children p → c < p) (hid : id < a.size) :
    ∃ id' a', a.copy id = (id', a') ∧ a.Extends a' ∧ (∀ depth, a.Alike a' depth id id') ∧
      a'.dump id' = a.dump id ∧ a'.dump id = a.dump id ∧
      (∀ k, a'.Reaches id' k → a.size ≤ k ∧ k < a'.size) ∧ a'.IsTree id' (a'.Reaches id') ∧
      ∀ edits : List (NodeId × Node),
        ((∀ e ∈ edits, a'.Reaches id' e.1) → (a'.overwrite edits).dump id = a'.dump id) ∧
        ((∀ e ∈ edits, a'.Reaches id e.1) → (a'.overwrite edits).dump id' = a'.dump id') := by
  obtain ⟨roots, a', hrun, hext, hcopies⟩ := appends_copyFrom hdown hid hid (.refl a)
  obtain rfl : [(a.copy id).1] = roots := congrArg Prod.fst hrun
  obtain rfl : (a.copy id).2 = a' := congrArg Prod.snd hrun
  generalize a.copy id = r at hext hcopies
  obtain ⟨id', a'⟩ := r
  obtain ⟨⟨places, hlaid⟩, hall⟩ := hcopies a' (.refl a')
  cases hall with | cons halike _ =>
  have hold : ∀ k, a'.Reaches id k → k < a.size := fun k hk =>
    Nat.lt_of_le_of_lt (hk.le_of_extends hdown hext hid) hid
  have hnew : ∀ k, a'.Reaches id' k → a.size ≤ k ∧ k < a'.size := fun k hk =>
    hlaid.bounds k (hlaid.mem_of_reaches hk)
  have hsource : ∀ depth, a.Alike a' depth id id := fun depth => alike_of_reaches fun k hk =>
    hext.node k (Nat.lt_of_le_of_lt (hk.le_of_extends hdown (.refl a) hid) hid)
  have hdump : ∀ j, (∀ depth, a.Alike a' depth id j) → a'.dump j = a.dump id := fun j hj => by
    rw [dump, dump, ← (hj _).linesOnto_eq,
      linesOnto_eq_of_lt hdown (Nat.lt_of_lt_of_le hid hext.size) hid]
  refine ⟨id', a', rfl, hext, halike, hdump _ halike, hdump _ hsource, hnew, ?_,
    fun edits => ⟨fun h => ?_, fun h => ?_⟩⟩
  · cases hlaid with
    | cons h _ => exact (Laid.root h).reaches_isTree
  · refine dump_overwrite fun e he hreach => ?_
    exact Nat.lt_irrefl _ (Nat.lt_of_lt_of_le (hold _ hreach) (hnew _ (h e he)).1)
  · refine dump_overwrite fun e he hreach => ?_
    exact Nat.lt_irrefl _ (Nat.lt_of_lt_of_le (hold _ (h e he)) (hnew _ hreach).1)

/-- A product of one sum with itself, which is the sum of one int with itself: the copy has seven
places, and one of its ints can be changed alone. -/
theorem copy_alike_and_apart_shared :
    let a : Arena := ⟨#[.int 1, .binary .add 0 0, .binary .mul 1 1]⟩
    ∃ a', a.copy 2 = (9, a') ∧ a'.size = 10 ∧ a'.dump 9 = a.dump 2 ∧
      a'.IsTree 9 (a'.Reaches 9) ∧ (a'.set 3 (.int 5)).dump 2 = a.dump 2 := by
  intro a
  have hdown : ∀ p c : Nat, c ∈ a.children p → c < p
    | 0 | 1 | 2 => by decide
    | _ + 3 => nofun
  obtain ⟨id', a', hcopy, _, _, hdump, hsource, _, htree, hapart⟩ :=
    @copy_alike_and_apart a 2 hdown (by decide)
  obtain ⟨rfl, rfl⟩ : (a.copy 2).1 = id' ∧ (a.copy 2).2 = a' := Prod.mk.inj hcopy
  have hreach : (a.copy 2).2.Reaches (a.copy 2).1 3 :=
    .tail (.single (b := 5) (by decide)) (by decide)
  refine ⟨_, Prod.ext ?_ rfl, by decide, hdump, htree, ?_⟩
  · decide
  · exact ((hapart [(3, .int 5)]).1 (by simpa using hreach)).trans hsource

end Arena

end Ifj22
