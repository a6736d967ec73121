import Ifj22.Ty
set_option autoImplicit false

/-!
# Symbol: names and what is known of them

A table lists symbols in the order of their first insertion; names in it are pairwise distinct.  The
global table holds functions and top-level variables.  A function's symbol may carry a table of its
own for its parameters and local variables, which is made when it is first needed.  Local symbols
carry no further table, so a table is generic in what its symbols carry.
-/

namespace Ifj22

-- the zero of a sum is that of core, whatever algebra is imported
attribute [local instance (high)] Zero.ofOfNat0

/-- Where a symbol lives. -/
inductive Scope
  | toplevel
  | function
  deriving DecidableEq, Repr, Inhabited

/-- A name and what is known of it.  `ty` is the type of a variable or the return type of a
function. -/
structure Symbol (Locals : Type) where
  name : String
  scope : Scope
  /-- It has been declared or assigned. -/
  defined : Bool
  /-- Its variable has been declared in the generated code. -/
  emitted : Bool
  /-- It has been called. -/
  called : Bool
  /-- It is provided by the language. -/
  builtin : Bool
  isFunction : Bool
  ty : Ty
  /-- The number of arguments; `-1` admits any number. -/
  arity : Int
  params : List Ty
  /-- The union of the parameter types. -/
  mask : Ty
  locals : Locals
  deriving DecidableEq, Repr, Inhabited

namespace Symbol

variable {Locals : Type}

/-- A symbol of which only the name is known. -/
def fresh [Inhabited Locals] (scope : Scope) (name : String) : Symbol Locals where
  name := name
  scope := scope
  defined := false
  emitted := false
  called := false
  builtin := false
  isFunction := false
  ty := .never
  arity := 0
  params := []
  mask := .never
  locals := default

/-- The function admits any number of arguments. -/
def isVariadic (s : Symbol Locals) : Bool := s.arity == -1

/-- The type of a call: of a function whose body has not been looked at anything is known. -/
def callType (s : Symbol Locals) : Ty := if s.ty.isEmpty then .any else s.ty

end Symbol

/-- Symbols in order of insertion. -/
structure Table (Locals : Type) where
  scope : Scope
  symbols : List (Symbol Locals)
  deriving DecidableEq, Repr, Inhabited

namespace Table

variable {Locals : Type}

/-- The table without symbols. -/
def empty (scope : Scope) : Table Locals := ⟨scope, []⟩

/-- The names in order of insertion. -/
def names (t : Table Locals) : List String := t.symbols.map (·.name)

/-- The symbol with the given name. -/
def find? (t : Table Locals) (name : String) : Option (Symbol Locals) :=
  t.symbols.find? (·.name == name)

/-- The table with the symbol of the given name changed. -/
def modify (t : Table Locals) (name : String) (f : Symbol Locals → Symbol Locals) : Table Locals :=
  { t with symbols := t.symbols.map fun s => if s.name = name then f s else s }

/-- The table with a fresh symbol at its end, unless the name is taken. -/
def insert? [Inhabited Locals] (t : Table Locals) (name : String) : Option (Table Locals) :=
  if (t.find? name).isSome then none
  else some { t with symbols := t.symbols ++ [Symbol.fresh t.scope name] }

/-- Declares a variable, or widens the type of one that is declared already. -/
def declare [Inhabited Locals] (t : Table Locals) (name : String) (ty : Ty) : Table Locals :=
  ((t.insert? name).getD t).modify name fun s => { s with defined := true, ty := s.ty ∪ ty }

/-- The type of a variable; an unknown one has no value. -/
def tyOf (t : Table Locals) (name : String) : Ty := ((t.find? name).map (·.ty)).getD .never

/-- Adds `ty` to the type of a symbol. -/
def includeTy (t : Table Locals) (name : String) (ty : Ty) : Table Locals :=
  t.modify name fun s => { s with ty := s.ty ∪ ty }

/-- `ty` has a member that is not yet in the type of the symbol. -/
def lacksTy (t : Table Locals) (name : String) (ty : Ty) : Bool :=
  match t.find? name with
  | some s => !ty.subset s.ty
  | none => false

/-! ## What the operations do to the names -/

theorem find?_eq_none_iff (t : Table Locals) (name : String) :
    t.find? name = none ↔ name ∉ t.names := by
  simp only [find?, List.find?_eq_none, names, List.mem_map, beq_iff_eq, not_exists, not_and]

theorem insert?_eq_none_iff [Inhabited Locals] (t : Table Locals) (name : String) :
    t.insert? name = none ↔ name ∈ t.names := by
  unfold insert?
  split
  · rename_i h
    refine ⟨fun _ => ?_, fun _ => rfl⟩
    by_cases hmem : name ∈ t.names
    · exact hmem
    · rw [(t.find?_eq_none_iff name).2 hmem] at h
      exact absurd h Bool.false_ne_true
  · rename_i h
    refine ⟨fun hnone => absurd hnone (by simp), fun hmem => absurd hmem ?_⟩
    rw [← t.find?_eq_none_iff]
    simpa using h

theorem names_of_insert? [Inhabited Locals] {t t' : Table Locals} {name : String}
    (h : t.insert? name = some t') : t'.names = t.names ++ [name] := by
  unfold insert? at h
  split at h
  · exact absurd h (by simp)
  · cases h
    simp [names, Symbol.fresh]

/-- A name is inserted once, at the end. -/
theorem names_insert? [Inhabited Locals] (t : Table Locals) (name : String) :
    ((t.insert? name).getD t).names = if name ∈ t.names then t.names else t.names ++ [name] := by
  split
  · rename_i h
    rw [(t.insert?_eq_none_iff name).2 h, Option.getD_none]
  · rename_i h
    cases hins : t.insert? name with
    | none => exact absurd ((t.insert?_eq_none_iff name).1 hins) h
    | some t' => rw [Option.getD_some, names_of_insert? hins]

theorem names_modify (t : Table Locals) (name : String) {f : Symbol Locals → Symbol Locals}
    (hf : ∀ s, (f s).name = s.name) : (t.modify name f).names = t.names := by
  simp only [names, modify, List.map_map]
  refine List.map_congr_left fun s _ => ?_
  simp only [Function.comp_apply]
  split
  · exact hf s
  · rfl

/-- A declared variable has a name in the table, and a new one stands at the end. -/
theorem names_declare [Inhabited Locals] (t : Table Locals) (name : String) (ty : Ty) :
    (t.declare name ty).names = if name ∈ t.names then t.names else t.names ++ [name] := by
  unfold declare
  refine (names_modify _ _ ?_).trans (t.names_insert? name)
  exact fun _ => rfl

end Table

/-- The variables of one function. -/
abbrev LocalTable := Table Unit

/-- The functions and top-level variables of a program. -/
abbrev SymbolTable := Table (Option LocalTable)

namespace SymbolTable

/-- The global table without symbols. -/
def empty : SymbolTable := Table.empty .toplevel

/-- Registers the signature of a function, unless the name is taken. -/
def declareFunction? (t : SymbolTable) (name : String) (ret : Ty) (arity : Int) (params : List Ty) :
    Option SymbolTable :=
  (Table.insert? t name).map fun t => t.modify name fun s =>
    { s with
      isFunction := true
      ty := ret
      arity := arity
      params := params
      mask := params.foldl (· ∪ ·) .never }

/-- The local table of a function, if it has been made. -/
def locals? (t : SymbolTable) (function : String) : Option LocalTable :=
  (t.find? function).bind (·.locals)

/-- Changes the local table of a function, which is made if there is none.  There is no such table
for a name that is no function's. -/
def modifyLocals? (t : SymbolTable) (function : String) (f : LocalTable → LocalTable) :
    Option SymbolTable :=
  match t.find? function with
  | some s =>
    if s.isFunction then
      some (t.modify function fun s =>
        { s with locals := some (f (s.locals.getD (Table.empty .function))) })
    else none
  | none => none

/-- Declares a local variable of a function, or widens the type of one that is declared already. -/
def declareLocal? (t : SymbolTable) (function name : String) (ty : Ty) : Option SymbolTable :=
  t.modifyLocals? function (·.declare name ty)

/-- Notes that a function has been called. -/
def markCalled (t : SymbolTable) (name : String) : SymbolTable :=
  t.modify name fun s => { s with called := true }

/-- The type of a call of the named function; an unknown one has no value. -/
def callTy (t : SymbolTable) (name : String) : Ty := ((t.find? name).map (·.callType)).getD .never

/-- The symbols of the table and of all local tables together. -/
def symbolCount (t : SymbolTable) : Nat :=
  (t.symbols.map fun s => 1 + (s.locals.map (·.symbols.length)).getD 0).sum

/-! ## The functions that the language provides -/

/-- A built-in function: its name, return type, arity and parameter types. -/
structure Builtin where
  name : String
  ret : Ty
  arity : Int
  params : List Ty
  deriving DecidableEq, Repr, Inhabited

/-- The types that are read as numbers without loss: int, float and null. -/
def numericTerm : Ty := .int ∪ .float ∪ .null

/-- The built-in functions, in table order. -/
def builtinList : List Builtin :=
  [⟨"readi", Ty.int.nullable, 0, []⟩,
   ⟨"readf", Ty.float.nullable, 0, []⟩,
   ⟨"reads", Ty.string.nullable, 0, []⟩,
   ⟨"write", .void, -1, []⟩,
   ⟨"strlen", .int, 1, [.string]⟩,
   ⟨"ord", .int, 1, [.string]⟩,
   ⟨"chr", Ty.string.nullable, 1, [.int]⟩,
   ⟨"substring", Ty.string.nullable, 3, [.string, .int, .int]⟩,
   ⟨"intval", .int, 1, [numericTerm]⟩,
   ⟨"floatval", .float, 1, [numericTerm]⟩,
   ⟨"strval", .string, 1, [numericTerm ∪ .string]⟩]

/-- The symbol of a built-in function. -/
def Builtin.symbol (b : Builtin) : Symbol (Option LocalTable) :=
  { Symbol.fresh .toplevel b.name with
    isFunction := true
    defined := true
    builtin := true
    ty := b.ret
    arity := b.arity
    params := b.params
    mask := if b.arity = -1 then .any else b.params.foldl (· ∪ ·) .never }

/-- The global table of the built-in functions. -/
def builtins : SymbolTable := ⟨.toplevel, builtinList.map Builtin.symbol⟩

end SymbolTable

end Ifj22
