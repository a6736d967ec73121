import Ifj22.Node
set_option autoImplicit false

/-!
# Arena: the nodes of a program

An arena holds the nodes of a program by place.  Places are handed out in order and never taken
back; a node may be overwritten, which changes the tree of everyone who refers to its place.

A walk down an arena passes no place twice unless the arena has a cycle, so it meets at most as many
nodes as the arena holds.  Every walk in this library is cut after that many steps; on an arena
without a cycle the cut is never reached.
-/

namespace Ifj22

/-- The nodes of a program, by place. -/
structure Arena where
  nodes : Array Node
  deriving DecidableEq, Repr, Inhabited

namespace Arena

/-- The arena without nodes. -/
def empty : Arena := ⟨#[]⟩

/-- The number of places. -/
def size (a : Arena) : Nat := a.nodes.size

/-- The node at a place; a place that was never handed out holds the empty statement. -/
def node (a : Arena) (id : NodeId) : Node := a.nodes.getD id Node.empty

/-- Puts a node at the next free place. -/
def push (a : Arena) (n : Node) : NodeId × Arena := (a.size, ⟨a.nodes.push n⟩)

/-- Overwrites the node at a place. -/
def set (a : Arena) (id : NodeId) (n : Node) : Arena := ⟨a.nodes.setIfInBounds id n⟩

/-- The children of the node at a place, from left to right. -/
def children (a : Arena) (id : NodeId) : List NodeId := (a.node id).children

/-! ## What the operations do to the nodes -/

@[simp] theorem size_push (a : Arena) (n : Node) : (a.push n).2.size = a.size + 1 := by
  simp [push, size]

@[simp] theorem size_set (a : Arena) (id : NodeId) (n : Node) : (a.set id n).size = a.size := by
  simp [set, size]

theorem node_push (a : Arena) (n : Node) (id : NodeId) :
    (a.push n).2.node id = if id = a.size then n else a.node id := by
  simp only [push, node, size, Array.getD_eq_getD_getElem?, Array.getElem?_push]
  split <;> simp

theorem node_set (a : Arena) (id : NodeId) (n : Node) (i : NodeId) :
    (a.set id n).node i = if i = id ∧ id < a.size then n else a.node i := by
  simp only [set, node, size, Array.getD_eq_getD_getElem?, Array.getElem?_setIfInBounds]
  by_cases h : id = i
  · subst h
    by_cases hlt : id < a.nodes.size <;> simp [hlt]
  · simp [h, Ne.symm h]

/-! ## Chains -/

/-- The links of a statement list from `id` back to its start, put before `tail`. -/
def linksOnto (a : Arena) : Nat → NodeId → List NodeId → List NodeId
  | 0, _, tail => tail
  | fuel + 1, id, tail =>
    match a.node id with
    | .sequence (some prev) _ => a.linksOnto fuel prev (id :: tail)
    | .sequence none _ => id :: tail
    | _ => tail

/-- The links of a statement list, first statement first. -/
def sequence (a : Arena) (id : NodeId) : List NodeId := a.linksOnto a.size id []

/-- The statement that a link carries. -/
def linkStmt? (a : Arena) (link : NodeId) : Option NodeId :=
  match a.node link with
  | .sequence _ stmt => stmt
  | _ => none

/-- The statements of a statement list, first statement first. -/
def statements (a : Arena) (id : NodeId) : List NodeId := (a.sequence id).filterMap a.linkStmt?

/-- The values of an argument list, read from `link` on. -/
def argumentsFrom (a : Arena) : Nat → Option NodeId → List NodeId
  | 0, _ => []
  | _ + 1, none => []
  | fuel + 1, some link =>
    match a.node link with
    | .argument value next => value :: a.argumentsFrom fuel next
    | _ => []

/-- The values of an argument list, in source order. -/
def arguments (a : Arena) (args : Option NodeId) : List NodeId := a.argumentsFrom a.size args

end Arena

/-- A program: an arena and the place of its statement list. -/
structure Program where
  arena : Arena
  root : NodeId
  deriving DecidableEq, Repr, Inhabited

end Ifj22
