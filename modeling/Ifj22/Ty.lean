set_option autoImplicit false

/-!
# Ty: sets of value kinds

The type of an expression is the set of the kinds its value may have.  A variable that holds an int
at one time and a string at another has the union of the two.  `any` is a member of its own: it
stands for a value of a kind that is not known at all.
-/

namespace Ifj22

/-- A set of value kinds, one bit a kind. -/
structure Ty where
  bits : BitVec 6
  deriving DecidableEq, Repr, Inhabited

namespace Ty

/-- The set whose members are the bits of a number, from the lowest on: int, float, string, null,
void, any. -/
def ofMask (n : Nat) : Ty := ⟨BitVec.ofNat 6 n⟩

/-- The members as the bits of a number. -/
def mask (a : Ty) : Nat := a.bits.toNat

/-- The empty set, the type of nothing. -/
def never : Ty := ofMask 0
/-- Integers. -/
def int : Ty := ofMask 1
/-- Floats. -/
def float : Ty := ofMask 2
/-- Strings. -/
def string : Ty := ofMask 4
/-- The null value. -/
def null : Ty := ofMask 8
/-- The result of a function that returns no value. -/
def void : Ty := ofMask 16
/-- A value of unknown kind. -/
def any : Ty := ofMask 32

/-- The union of two types. -/
def union (a b : Ty) : Ty := ⟨a.bits ||| b.bits⟩

instance : Union Ty := ⟨union⟩

theorem union_def (a b : Ty) : a ∪ b = ⟨a.bits ||| b.bits⟩ := rfl

/-- Every member of `b` is a member of `a`. -/
def contains (a b : Ty) : Bool := a.bits &&& b.bits == b.bits

/-- Every member of `a` is a member of `b`. -/
def subset (a b : Ty) : Bool := b.contains a

/-- The two types have a member in common. -/
def meets (a b : Ty) : Bool := a.bits &&& b.bits != 0

/-- The type has no member. -/
def isEmpty (a : Ty) : Bool := a == never

/-- The type with null added. -/
def nullable (a : Ty) : Ty := a ∪ null

/-- A value of the one type may serve where the other is expected.  `any` agrees with everything
but `void`. -/
def compatible (a b : Ty) : Bool :=
  if a.isEmpty || b.isEmpty then false
  else if a.contains any then b != void
  else if b.contains any then a != void
  else a.meets b

/-- The type of a call that yields no value. -/
def isVoid (a : Ty) : Bool := a == void

/-- A string is the only value but null that the type admits, and it does admit strings. -/
def isStringOnly (a : Ty) : Bool := a.contains string && a.subset (string ∪ null)

/-- The kinds of number that a value of the type can be read as; null reads as the int zero. -/
def numericKinds (a : Ty) : Ty :=
  (if a.meets (int ∪ null ∪ any) then int else never)
    ∪ (if a.meets (float ∪ any) then float else never)

/-- The type of a sum, difference or product: int if both operands may be ints, float if either may
be a float, and int if no number is in sight. -/
def arithmetic (a b : Ty) : Ty :=
  let (ka, kb) := (a.numericKinds, b.numericKinds)
  let ty := (if ka.contains int && kb.contains int then int else never)
    ∪ (if (ka ∪ kb).contains float then float else never)
  if ty.isEmpty then int else ty

/-- The type that both operands of a comparison are converted to. -/
def widen (a b : Ty) : Ty := if (a ∪ b).subset (int ∪ null) then int else float

/-- The members and their names, in the order in which they are written. -/
def names : List (Ty × String) :=
  [(int, "int"), (float, "float"), (string, "string"), (null, "null"), (void, "void"), (any, "any")]

/-- The text of a type. -/
def text (a : Ty) : String :=
  if a.isEmpty then "never"
  else "|".intercalate ((names.filter fun entry => a.contains entry.1).map (·.2))

/-! ## Laws of the set operations -/

theorem subset_iff (a b : Ty) : a.subset b = true ↔ a ∪ b = b := by
  obtain ⟨a⟩ := a
  obtain ⟨b⟩ := b
  simp only [subset, contains, union_def, Ty.mk.injEq, beq_iff_eq]
  constructor
  · intro h
    rw [← h]
    ext i
    simp
    grind
  · intro h
    rw [← h]
    ext i
    simp
    grind

theorem subset_refl (a : Ty) : a.subset a = true := by
  simp [subset, contains]

theorem subset_union_left (a b : Ty) : a.subset (a ∪ b) = true := by
  rw [subset_iff]
  simp only [union_def, ← BitVec.or_assoc, BitVec.or_self]

theorem subset_union_right (a b : Ty) : b.subset (a ∪ b) = true := by
  rw [subset_iff]
  simp only [union_def, BitVec.or_comm a.bits, ← BitVec.or_assoc, BitVec.or_self]

end Ty

end Ifj22
