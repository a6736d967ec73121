import Ifj22.Arena.Basic
set_option autoImplicit false

/-!
# Arena: reading a tree as text

The preorder of a tree lists the types of its nodes, a node before its children.  A dump shows the
same nodes one a line, two blanks deeper than their parents.
-/

namespace Ifj22.Arena

/-- The node types of the tree at `id`, put before `tail`. -/
def preorderOnto (a : Arena) : Nat → NodeId → List String → List String
  | 0, _, tail => tail
  | fuel + 1, id, tail =>
    (a.node id).typeName :: (a.children id).foldr (a.preorderOnto fuel) tail

/-- The node types of a tree, each node before its children. -/
def preorder (a : Arena) (id : NodeId) : List String := a.preorderOnto a.size id []

/-- One line of a dump. -/
def dumpLine (depth : Nat) (n : Node) : String :=
  String.ofList (List.replicate (2 * depth) ' ') ++ n.label ++ "\n"

/-- The lines of the tree at `id`, put before `tail`. -/
def linesOnto (a : Arena) : Nat → Nat → NodeId → List String → List String
  | 0, _, _, tail => tail
  | fuel + 1, depth, id, tail =>
    dumpLine depth (a.node id) :: (a.children id).foldr (a.linesOnto fuel (depth + 1)) tail

/-- The dump of a tree. -/
def dump (a : Arena) (id : NodeId) : String := String.join (a.linesOnto a.size 0 id [])

end Ifj22.Arena
