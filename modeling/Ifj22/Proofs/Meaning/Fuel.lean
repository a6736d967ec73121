import Ifj22.Proofs.Meaning.Interpreter
import Mathlib.Data.Option.Basic
set_option autoImplicit false

/-!
# Meaning: runs without bounds

A run is made for every bound.  It ends if some bound is not used up, and it diverges if every bound
is.
-/

namespace Ifj22.Meaning

variable {V E W α : Type}

/-- A run for every bound. -/
abbrev Computation (V E W α : Type) := Nat → Run V E W α

/-- The state that a run stops in. -/
def after : EStateM.Result (Fault E) (State V W) α → State V W
  | .ok _ s => s
  | .error _ s => s

/-- The outcome of a run, if it did not use up its bound. -/
def outcome? : EStateM.Result (Fault E) (State V W) α → Option (Except (Fault E) α)
  | .ok a _ => some (.ok a)
  | .error .timeout _ => none
  | .error e _ => some (.error e)

namespace Computation

/-- From the state, the computation ends in the outcome, and by then these are the built-in calls.
How much fuel that takes is left open, since a simplified program may take less. -/
def Ends (c : Computation V E W α) (s : State V W) (calls : List (BuiltinCall V))
    (outcome : Except (Fault E) α) : Prop :=
  ∃ fuel, outcome? (c fuel s) = some outcome ∧ (after (c fuel s)).calls = calls

/-- From the state, the computation goes on for ever. -/
def Diverges (c : Computation V E W α) (s : State V W) : Prop :=
  ∀ fuel, outcome? (c fuel s) = none

/-- From the state, the computation comes to begin with these built-in calls.  Of a run that goes
on for ever these are all that can be seen. -/
def Calls (c : Computation V E W α) (s : State V W) (calls : List (BuiltinCall V)) : Prop :=
  ∃ fuel, calls <+: (after (c fuel s)).calls

/-- Nothing that can be seen from outside tells the computations apart. -/
structure Alike (c c' : Computation V E W α) (s : State V W) : Prop where
  ends : ∀ calls outcome, c.Ends s calls outcome ↔ c'.Ends s calls outcome
  diverges : c.Diverges s ↔ c'.Diverges s
  calls : ∀ calls, c.Calls s calls ↔ c'.Calls s calls

theorem Alike.of_eq {c c' : Computation V E W α} (h : ∀ fuel, c fuel = c' fuel) (s : State V W) :
    c.Alike c' s := by
  obtain rfl : c = c' := funext h
  exact ⟨fun _ _ => .rfl, .rfl, fun _ => .rfl⟩

end Computation

end Ifj22.Meaning
