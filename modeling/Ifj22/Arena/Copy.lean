import Ifj22.Arena.Basic
set_option autoImplicit false

/-!
# Arena: copying a tree

A copy has the shape of its source and shares no place with it: children are copied first, from left
to right, and each copied node takes a place of its own, even where the source refers to one place
twice.
-/

namespace Ifj22.Arena

/-- Copies the tree at `id`. -/
def copyFrom : Nat → NodeId → StateM Arena NodeId
  | 0, id => pure id
  | fuel + 1, id => do
    let node ← ((← get).node id).traverse (copyFrom fuel)
    modifyGet (·.push node)

/-- A copy of the tree at `id`: the place of the copy, and the arena with it. -/
def copy (a : Arena) (id : NodeId) : NodeId × Arena := (copyFrom a.size id).run a

end Ifj22.Arena
