import Ifj22.Proofs.Typing.Scope
import Mathlib.Data.List.Nodup
import Mathlib.Data.String.Basic
set_option autoImplicit false

/-!
# Typing: the positions of symbols

A table can note the position of a name in an index when the name is inserted, and look names up
there.  It then does what a table does whose symbols are searched: the operations append and never
move a symbol, so the index stays exact in the global table and in every local one.
-/

namespace Ifj22

open SymbolTable

/-! ## Operations -/

/-- An operation on the global table or, in the scope of a function, on its local table. -/
inductive TableOp where
  | insert (scope : Option String) (name : String)
  | declare (scope : Option String) (name : String) (ty : Ty)
  | declareFunction (name : String) (ret : Ty) (arity : Int) (params : List Ty)
  /-- Makes the local table of a function, if there is none. -/
  | openLocals (function : String)
  | markCalled (name : String)

namespace TableOp

variable {t t' : SymbolTable} {op : TableOp} {function x : String}

/-- The tables after an operation; `none` if it is refused. -/
def run? (t : SymbolTable) : TableOp → Option SymbolTable
  | insert none name => Table.insert? t name
  | insert (some function) name =>
    if name ∈ t.namesIn (some function) then none
    else t.modifyLocals? function fun l => (l.insert? name).getD l
  | declare none name ty => some (Table.declare t name ty)
  | declare (some function) name ty => t.declareLocal? function name ty
  | declareFunction name ret arity params => t.declareFunction? name ret arity params
  | openLocals function => t.modifyLocals? function id
  | markCalled name => some (t.markCalled name)

/-- The tables after operations, of which those that are refused change nothing. -/
def runs (t : SymbolTable) (ops : List TableOp) : SymbolTable :=
  ops.foldl (fun t op => (op.run? t).getD t) t

/-- The name that the operation adds to a scope, unless it is there already. -/
def entry? : TableOp → Option Access
  | insert scope name | declare scope name _ => some (.assign scope name)
  | declareFunction name _ _ _ => some (.assign none name)
  | openLocals _ | markCalled _ => none

/-- The function whose local table the operation is on. -/
def function? : TableOp → Option String
  | insert scope _ | declare scope _ _ => scope
  | openLocals function => some function
  | declareFunction _ _ _ _ | markCalled _ => none

/-- An operation adds its entry to the names, and nothing else. -/
theorem namesIn_run? (h : op.run? t = some t') :
    t'.namesIn = op.entry?.toList.foldl Access.note t.namesIn := by
  cases op with
  | insert scope name =>
    cases scope with
    | none => exact namesIn_insert? h
    | some function =>
      obtain ⟨_, h⟩ := Option.ite_none_left_eq_some.mp h
      rw [namesIn_modifyLocals? h]
      exact congrArg (Function.update t.namesIn (some function)) (Table.names_insert? _ name)
  | declare scope name ty =>
    cases scope with
    | none =>
      cases h
      exact namesIn_declare t name ty
    | some function => exact namesIn_declareLocal? h
  | declareFunction name ret arity params =>
    obtain ⟨t1, hins, rfl⟩ := Option.map_eq_some_iff.mp h
    refine (namesIn_modify t1 name ?_ ?_).trans (namesIn_insert? hins)
    all_goals exact fun _ => rfl
  | openLocals function =>
    rw [namesIn_modifyLocals? h]
    exact Function.update_eq_self _ _
  | markCalled name =>
    cases h
    refine namesIn_modify t name ?_ ?_
    all_goals exact fun _ => rfl

end TableOp

/-! ## Tables with an index -/

/-- Symbols in order of insertion, with an index of their positions.  What is looked up is looked up in
the index, and the symbols are not searched. -/
structure IndexedTable (Locals : Type) where
  scope : Scope
  index : Std.ExtHashMap String Nat
  symbols : List (Symbol Locals)

namespace IndexedTable

variable {L : Type}

/-- The table without symbols. -/
def empty (scope : Scope) : IndexedTable L := ⟨scope, ∅, []⟩

/-- Adds a fresh symbol at the end and notes its position, unless the index has the name. -/
def insert [Inhabited L] (t : IndexedTable L) (name : String) : Bool × IndexedTable L :=
  if t.index.contains name then (false, t)
  else (true, ⟨t.scope, t.index.insert name t.symbols.length, t.symbols ++ [.fresh t.scope name]⟩)

/-- Changes the symbol at a position, which has to be there.  The change may be refused, or come to
nothing itself. -/
def changeAt (t : IndexedTable L) (f : Symbol L → Option (Bool × Symbol L)) (i : Nat) :
    Option (Bool × IndexedTable L) :=
  t.symbols[i]?.bind fun s => (f s).map fun r => (r.1, { t with symbols := t.symbols.set i r.2 })

/-- Changes the symbol of a name that the index has to have. -/
def update (t : IndexedTable L) (name : String) (f : Symbol L → Symbol L) :
    Option (Bool × IndexedTable L) :=
  t.index[name]?.bind (t.changeAt fun s => some (true, f s))

/-- Changes the symbol of a name if the index has it, and refuses if not. -/
def findMut (t : IndexedTable L) (name : String) (f : Symbol L → Option (Bool × Symbol L)) :
    Option (Bool × IndexedTable L) :=
  t.index[name]?.elim (some (false, t)) (t.changeAt f)

/-- Declares a variable, or widens the type of one that is declared already. -/
def declare [Inhabited L] (t : IndexedTable L) (name : String) (ty : Ty) :
    Option (Bool × IndexedTable L) :=
  (t.insert name).2.update name fun s => { s with defined := true, ty := s.ty ∪ ty }

end IndexedTable

/-- The symbol with something else for its local table. -/
def Symbol.mapLocals {L L' : Type} (g : L → L') (s : Symbol L) : Symbol L' :=
  { s with locals := g s.locals }

/-- The table without its index, and with something else for the local tables of its symbols. -/
def IndexedTable.bare {L L' : Type} (g : L → L') (t : IndexedTable L) : Table L' :=
  ⟨t.scope, t.symbols.map (Symbol.mapLocals g)⟩

/-- The table of a program, in which functions own the tables of their variables. -/
abbrev IndexedSymbols := IndexedTable (Option (IndexedTable Unit))

namespace IndexedSymbols

/-- Does something on the local table of a function, which is made if there is none. -/
def withLocals (f : IndexedTable Unit → Option (Bool × IndexedTable Unit))
    (s : Symbol (Option (IndexedTable Unit))) : Option (Bool × Symbol (Option (IndexedTable Unit))) :=
  if s.isFunction then
    (f (s.locals.getD (.empty .function))).map fun r => (r.1, { s with locals := some r.2 })
  else some (false, s)

/-- The symbol with the signature of a function. -/
def signed {L : Type} (ret : Ty) (arity : Int) (params : List Ty) (s : Symbol L) : Symbol L :=
  { s with
    isFunction := true
    ty := ret
    arity := arity
    params := params
    mask := params.foldl (· ∪ ·) .never }

/-- Registers the signature of a function, unless the name is taken. -/
def declareFunction (t : IndexedSymbols) (name : String) (ret : Ty) (arity : Int)
    (params : List Ty) : Option (Bool × IndexedSymbols) :=
  match t.insert name with
  | (true, t') => t'.update name (signed ret arity params)
  | (false, t') => some (false, t')

/-- Runs an operation; the answer is whether it was done.  A name that is missing is not marked. -/
def run (t : IndexedSymbols) : TableOp → Option (Bool × IndexedSymbols)
  | .insert none name => some (t.insert name)
  | .insert (some function) name => t.findMut function (withLocals fun l => some (l.insert name))
  | .declare none name ty => t.declare name ty
  | .declare (some function) name ty => t.findMut function (withLocals (·.declare name ty))
  | .declareFunction name ret arity params => t.declareFunction name ret arity params
  | .openLocals function => t.findMut function (withLocals fun l => some (true, l))
  | .markCalled name =>
    (t.findMut name fun s => some (true, { s with called := true })).map fun r => (true, r.2)

/-- Runs operations one after the other, and lists those that were done. -/
def runAll (t : IndexedSymbols) : List TableOp → Option (List TableOp × IndexedSymbols)
  | [] => some ([], t)
  | op :: ops => (t.run op).bind fun r =>
      (runAll r.2 ops).map fun rest => (if r.1 then op :: rest.1 else rest.1, rest.2)

/-- The symbol marked as that of a built-in function. -/
def marked {L : Type} (b : Builtin) (s : Symbol L) : Symbol L :=
  { s with builtin := true, defined := true, mask := if b.arity = -1 then .any else s.mask }

/-- Declares a built-in function, whether it has been declared already or not. -/
def addBuiltin (t : IndexedSymbols) (b : Builtin) : Option IndexedSymbols :=
  (t.run (.declareFunction b.name b.ret b.arity b.params)).bind fun r =>
    (r.2.findMut b.name fun s => some (true, marked b s)).map (·.2)

/-- The table of the built-in functions, which are declared one after the other. -/
def builtins : Option IndexedSymbols := builtinList.foldlM addBuiltin (.empty .toplevel)

/-- The tables without their indices. -/
def plain (t : IndexedSymbols) : SymbolTable := t.bare (Option.map (IndexedTable.bare id))

end IndexedSymbols

/-! ## The index of a table -/

namespace Table

variable {L L' : Type} {g : L → L'} {T : Table L} {s s' : Symbol L} {x : String} {i : Nat} {d : Bool}
  {f : Symbol L' → Option (Bool × Symbol L')}

/-- The table with the index that it should have, and with something else for the local tables of its
symbols. -/
def indexed (g : L → L') (T : Table L) : IndexedTable L' :=
  ⟨T.scope, .insertMany ∅ T.names.zipIdx, T.symbols.map (Symbol.mapLocals g)⟩

theorem contains_index : (T.indexed g).index.contains x = true ↔ x ∈ T.names := by
  simp [indexed, List.zipIdx_map_fst]

theorem findMut_none (hs : T.find? x = none) :
    (T.indexed g).findMut x f = some (false, T.indexed g) := by
  have hnone : (T.indexed g).index[x]? = none := by
    rw [find?_eq_none_iff, ← contains_index (g := g),
      Std.ExtHashMap.contains_eq_isSome_getElem?] at hs
    simpa using hs
  rw [IndexedTable.findMut, hnone, Option.elim_none]

/-- A name is inserted at the end, where its position is noted. -/
theorem insert_indexed [Inhabited L] [Inhabited L'] (hg : g default = default) (T : Table L)
    (x : String) :
    (T.indexed g).insert x = ((T.insert? x).isSome, ((T.insert? x).getD T).indexed g) := by
  unfold IndexedTable.insert
  by_cases hx : x ∈ T.names
  · rw [if_pos (contains_index.mpr hx), (T.insert?_eq_none_iff x).mpr hx]
    rfl
  · have hnone := (T.find?_eq_none_iff x).mpr hx
    rw [if_neg (contains_index.not.mpr hx), insert?, hnone, if_neg (by simp)]
    simp [indexed, names, Symbol.fresh, Symbol.mapLocals, hg, List.zipIdx_append,
      Std.ExtHashMap.insertMany_append]

variable (h : T.names.Nodup)

include h

/-- The index has every name with its position, and nothing else. -/
theorem index_iff : (T.indexed g).index[x]? = some i ↔ T.names[i]? = some x := by
  have hpairs : T.names.zipIdx.Pairwise fun a b => (a.1 == b.1) = false := by
    rw [← List.zipIdx_map_fst 0 T.names] at h
    simpa using List.pairwise_map.mp h
  have hindex : ∀ {j}, T.names[j]? = some x → (T.indexed g).index[x]? = some j := fun hj =>
    Std.ExtHashMap.getElem?_insertMany_list_of_mem BEq.rfl hpairs
      (List.mk_mem_zipIdx_iff_getElem?.mpr hj)
  refine ⟨fun hi => ?_, hindex⟩
  have hx : (T.indexed g).index.contains x = true := by
    rw [Std.ExtHashMap.contains_eq_isSome_getElem?, hi]
    rfl
  obtain ⟨j, hj⟩ := List.mem_iff_getElem?.mp (contains_index.mp hx)
  rw [hindex hj] at hi
  exact Option.some.inj hi ▸ hj

/-- There is one symbol to change. -/
theorem modify_const (hs : T.find? x = some s) (k : Symbol L → Symbol L) :
    (T.modify x fun _ => k s) = T.modify x k := by
  refine congrArg (Table.mk T.scope) (List.map_congr_left fun s1 hs1 => ?_)
  by_cases hname : s1.name = x
  · rw [List.inj_on_of_nodup_map h hs1 (List.mem_of_find?_eq_some hs) (hname.trans (find?_name hs).symm)]
  · rw [if_neg hname, if_neg hname]

/-- The symbol at the position that the index has for a name is changed just as if it were searched
for. -/
theorem changeAt_indexed (hs : T.find? x = some s) (hname : s'.name = s.name)
    (hf : f (s.mapLocals g) = some (d, s'.mapLocals g)) : ∃ i, (T.indexed g).index[x]? = some i ∧
      (T.indexed g).changeAt f i = some (d, (T.modify x fun _ => s').indexed g) := by
  have hx := find?_name hs
  have hindex : ∀ {j : Nat} {s : Symbol L}, T.symbols[j]? = some s → s.name = x →
      (T.indexed g).index[x]? = some j := fun hj hname => by
    rw [index_iff h, names, List.getElem?_map, hj, Option.map_some, hname]
  obtain ⟨i, hi⟩ := List.mem_iff_getElem?.mp (List.mem_of_find?_eq_some hs)
  have hsymbols : T.symbols.set i s' = (T.modify x fun _ => s').symbols := by
    refine List.ext_getElem (by simp [modify]) fun j hj _ => ?_
    rw [List.length_set] at hj
    have hname : T.symbols[j].name = x ↔ i = j := by
      refine ⟨fun hj' => ?_, ?_⟩
      · have hj := hindex (List.getElem?_eq_getElem hj) hj'
        exact Option.some.inj ((hindex hi hx).symm.trans hj)
      · rintro rfl
        exact Option.some.inj ((List.getElem?_eq_getElem hj).symm.trans hi) ▸ hx
    simp only [List.getElem_set, modify, List.getElem_map, hname]
  have hnames : (T.modify x fun _ => s').names = T.names := by
    simp only [names, modify, List.map_map]
    refine List.map_congr_left fun s1 _ => ?_
    by_cases hs : s1.name = x <;> simp [hs, hname, hx]
  refine ⟨i, hindex hi hx, ?_⟩
  have hsymbol : (T.indexed g).symbols[i]? = some (s.mapLocals g) := by
    rw [indexed, List.getElem?_map, hi, Option.map_some]
  rw [IndexedTable.changeAt, hsymbol, Option.bind_some, hf, Option.map_some, indexed, indexed, hnames,
    ← hsymbols, List.map_set]
  rfl

theorem findMut_indexed (hs : T.find? x = some s) (s' : Symbol L) (hname : s'.name = s.name)
    (hf : f (s.mapLocals g) = some (d, s'.mapLocals g)) :
    (T.indexed g).findMut x f = some (d, (T.modify x fun _ => s').indexed g) := by
  obtain ⟨i, hi, hchange⟩ := changeAt_indexed h hs hname hf
  rw [IndexedTable.findMut, hi, Option.elim_some, hchange]

section Same

-- what is done to a symbol has to do neither with its name nor with its local table
variable (f : ∀ {L : Type}, Symbol L → Symbol L) (hname : ∀ s : Symbol L, (f s).name = s.name)
  (hf : ∀ s : Symbol L, f (s.mapLocals g) = (f s).mapLocals g)

include hname hf

/-- A symbol is marked if there is one. -/
theorem mark_indexed (x : String) : (T.indexed g).findMut x (fun s => some (true, f s)) =
    some ((T.find? x).isSome, (T.modify x f).indexed g) := by
  cases hs : T.find? x with
  | none =>
    have hsame : T.modify x f = T := by
      refine congrArg (Table.mk T.scope) ((List.map_congr_left fun s hmem => ?_).trans (List.map_id _))
      exact if_neg fun hx => (T.find?_eq_none_iff x).mp hs (List.mem_map.mpr ⟨s, hmem, hx⟩)
    rw [hsame]
    exact findMut_none hs
  | some s =>
    rw [findMut_indexed h hs (f s) (hname s) (congrArg (fun s => some (true, s)) (hf s)),
      modify_const h hs]
    rfl

/-- A name that was inserted just now has a symbol to change. -/
theorem insert_update [Inhabited L] [Inhabited L'] (hg : g default = default) (x : String) :
    ((T.indexed g).insert x).2.update x f =
      some (true, (((T.insert? x).getD T).modify x f).indexed g) := by
  have hnames := T.names_insert? x
  rw [insert_indexed hg]
  generalize (T.insert? x).getD T = T' at hnames ⊢
  have hnodup : T'.names.Nodup := by rw [hnames]; grind
  cases hs : T'.find? x with
  | none => exact absurd (by rw [hnames]; grind) ((T'.find?_eq_none_iff x).mp hs)
  | some s =>
    obtain ⟨i, hi, hchange⟩ := changeAt_indexed (f := fun s => some (true, f s)) hnodup hs (hname s)
      (congrArg (fun s => some (true, s)) (hf s))
    rw [IndexedTable.update, hi, Option.bind_some, hchange, modify_const hnodup hs]

end Same

end Table

/-! ## Nested tables -/

namespace SymbolTable

variable {T : SymbolTable}

/-- The tables with the indices that they should have. -/
def indexed (T : SymbolTable) : IndexedSymbols := Table.indexed (Option.map (Table.indexed id)) T

/-- No name stands in a table twice. -/
def Unique (T : SymbolTable) : Prop := ∀ scope, (T.namesIn scope).Nodup

/-- The answer to an operation that makes tables of others or is refused. -/
def answer (T : SymbolTable) (r : Option SymbolTable) : Bool × IndexedSymbols :=
  (r.isSome, (r.getD T).indexed)

variable (h : T.Unique)

include h

/-- What is refused on the local table of a function, or done to it, is so in the tables. -/
theorem Unique.withLocals {r : LocalTable → Prop} [DecidablePred r] {f : LocalTable → LocalTable}
    (hr : ¬ r (Table.empty .function)) (function : String)
    (k : IndexedTable Unit → Option (Bool × IndexedTable Unit))
    (hk : ∀ l : LocalTable, l.names.Nodup →
      k (l.indexed id) = some (if r l then (false, l.indexed id) else (true, (f l).indexed id))) :
    T.indexed.findMut function (IndexedSymbols.withLocals k) =
      some (T.answer (if r ((T.locals? function).getD (Table.empty .function)) then none
        else T.modifyLocals? function f)) := by
  have hlocals := h (some function)
  rw [namesIn, SymbolTable.locals?] at hlocals
  rw [SymbolTable.locals?, SymbolTable.modifyLocals?]
  cases hs : T.find? function with
  | none =>
    refine (Table.findMut_none hs).trans ?_
    rw [ite_self]
    rfl
  | some s =>
    rw [hs, Option.bind_some] at hlocals
    -- a symbol that is put in its own place
    have hself : T.modify function (fun _ => s) = T := by
      refine (Table.modify_const (h none) hs id).trans (congrArg (Table.mk T.scope) ?_)
      simp
    cases hfun : s.isFunction with
    | false =>
      refine (Table.findMut_indexed (h none) hs s rfl (if_neg (hfun ▸ Bool.false_ne_true))).trans ?_
      simp [hself, hfun, answer, indexed]
    | true =>
      have hrun : IndexedSymbols.withLocals k (s.mapLocals (Option.map (Table.indexed id))) = _ :=
        if_pos hfun
      have hown : (s.mapLocals (Option.map (Table.indexed id))).locals.getD (.empty .function) =
          (s.locals.getD (Table.empty .function)).indexed id := by
        rw [Symbol.mapLocals]
        cases s.locals <;> rfl
      rw [hown, hk _ hlocals] at hrun
      by_cases hrl : r (s.locals.getD (Table.empty .function))
      · -- an empty table refuses nothing, so there is a table
        obtain ⟨l, hl⟩ : ∃ l, s.locals = some l := by
          cases hl : s.locals with
          | none => exact absurd (by simpa [hl] using hrl) hr
          | some l => exact ⟨l, rfl⟩
        rw [if_pos hrl] at hrun
        refine (Table.findMut_indexed (h none) (d := false) hs s rfl (hrun.trans ?_)).trans ?_
        · simp [Symbol.mapLocals, hl]
        · simp [hself, hrl, answer, indexed]
      · rw [if_neg hrl] at hrun
        refine (Table.findMut_indexed (h none) (d := true) hs
          { s with locals := some (f (s.locals.getD (Table.empty .function))) } rfl hrun).trans ?_
        rw [Table.modify_const (h none) hs fun s =>
          { s with locals := some (f (s.locals.getD (Table.empty .function))) }]
        simp [hrl, hfun, answer, indexed]

/-- An operation does to tables with their indices what it does to the tables, and its answer is
whether it is refused. -/
theorem Unique.run (op : TableOp) : T.indexed.run op = some (T.answer (op.run? T)) := by
  cases op with
  | insert scope name =>
    cases scope with
    | none => exact congrArg some (Table.insert_indexed (g := Option.map (Table.indexed id)) rfl T name)
    | some function =>
      refine h.withLocals (r := fun l => name ∈ l.names) (f := fun l => (l.insert? name).getD l)
        List.not_mem_nil function (fun l => some (l.insert name)) fun l _ => ?_
      rw [Table.insert_indexed (g := id) rfl]
      by_cases hx : name ∈ l.names
      · rw [(l.insert?_eq_none_iff name).mpr hx, if_pos hx]
        rfl
      · have hsome := (l.insert?_eq_none_iff name).not.mpr hx
        rw [if_neg hx, Option.isSome_iff_ne_none.mpr hsome]
  | declare scope name ty =>
    cases scope with
    | none =>
      exact Table.insert_update (h none) (fun s => { s with defined := true, ty := s.ty ∪ ty })
        (fun _ => rfl) (fun _ => rfl) (g := Option.map (Table.indexed id)) rfl name
    | some function =>
      exact h.withLocals (r := fun _ => False) id function (·.declare name ty) fun l hl =>
        Table.insert_update hl (fun s => { s with defined := true, ty := s.ty ∪ ty })
          (fun _ => rfl) (fun _ => rfl) rfl name
  | declareFunction name ret arity params =>
    have hupdate := Table.insert_update (h none) (IndexedSymbols.signed ret arity params)
      (fun _ => rfl) (fun _ => rfl) (g := Option.map (Table.indexed id)) rfl name
    rw [IndexedSymbols.run, IndexedSymbols.declareFunction, TableOp.run?, declareFunction?, indexed]
    rw [Table.insert_indexed (g := Option.map (Table.indexed id)) rfl] at hupdate ⊢
    cases hins : Table.insert? T name with
    | none => rfl
    | some T' =>
      rw [hins] at hupdate
      exact hupdate
  | openLocals function =>
    exact h.withLocals (r := fun _ => False) (f := id) id function (fun l => some (true, l))
      fun l _ => rfl
  | markCalled name =>
    have hmark := Table.mark_indexed (h none) (g := Option.map (Table.indexed id))
      (fun s => { s with called := true }) (fun _ => rfl) (fun _ => rfl) name
    exact congrArg (Option.map _) hmark

/-- A name that is noted is noted once. -/
theorem Unique.run? {T' : SymbolTable} {op : TableOp} (hop : op.run? T = some T') : T'.Unique := by
  intro scope
  rw [TableOp.namesIn_run? hop]
  cases op.entry? with
  | none => exact h scope
  | some a =>
    cases a with
    | read => exact h scope
    | assign scope' x =>
      by_cases hscope : scope = scope'
      · subst hscope
        have hx := h scope
        simp only [Option.toList_some, List.foldl_cons, List.foldl_nil, Access.note,
          Function.update_self]
        grind
      · simpa [Access.note, Function.update_of_ne hscope] using h scope

/-- All operations do to tables with their indices what they do to the tables.  Those that are done
account for the names. -/
theorem Unique.runAll (ops : List TableOp) :
    ∃ done, T.indexed.runAll ops = some (done, (TableOp.runs T ops).indexed) ∧
      (TableOp.runs T ops).Unique ∧ (TableOp.runs T ops).namesIn =
        (done.filterMap TableOp.entry?).foldl Access.note T.namesIn := by
  induction ops generalizing T with
  | nil => exact ⟨[], rfl, h, rfl⟩
  | cons op ops ih =>
    rw [IndexedSymbols.runAll, h.run op, TableOp.runs, List.foldl_cons, Option.bind_some]
    cases hop : op.run? T with
    | none =>
      obtain ⟨done, hrun, hrest⟩ := ih h
      exact ⟨done, congrArg (Option.map _) hrun, hrest⟩
    | some T' =>
      obtain ⟨done, hrun, hunique, hnames⟩ := ih (h.run? hop)
      refine ⟨op :: done, congrArg (Option.map _) hrun, hunique, hnames.trans ?_⟩
      have hcons : (op :: done).filterMap TableOp.entry? =
          op.entry?.toList ++ done.filterMap TableOp.entry? := by
        cases hentry : op.entry? <;> simp [hentry]
      rw [TableOp.namesIn_run? hop, hcons, List.foldl_append]

/-- The tables with a built-in function more. -/
def withBuiltin (T : SymbolTable) (b : Builtin) : SymbolTable :=
  (TableOp.runs T [.declareFunction b.name b.ret b.arity b.params]).modify b.name
    (IndexedSymbols.marked b)

theorem Unique.addBuiltin (b : Builtin) :
    (T.withBuiltin b).Unique ∧ T.indexed.addBuiltin b = some (T.withBuiltin b).indexed := by
  have hunique : (TableOp.runs T [.declareFunction b.name b.ret b.arity b.params]).Unique :=
    (h.runAll _).choose_spec.2.1
  refine ⟨?_, ?_⟩
  · have hnames : (T.withBuiltin b).namesIn = _ := namesIn_modify _ b.name (fun _ => rfl) fun _ => rfl
    exact fun scope => hnames ▸ hunique scope
  · rw [IndexedSymbols.addBuiltin, h.run]
    exact congrArg (Option.map _) (Table.mark_indexed (hunique none)
      (g := Option.map (Table.indexed id)) (IndexedSymbols.marked b) (fun _ => rfl) (fun _ => rfl) b.name)

end SymbolTable

end Ifj22
