import Ifj22.Proofs.Analysis
import Ifj22.Proofs.Typing.Walk
import Mathlib.Logic.Function.Basic
set_option autoImplicit false

/-!
# Typing: the scopes of variables

A walk over a tree reads and assigns variables, at the top level and in functions.  The tables list
the names of every scope in the order in which the walk comes to assign them, the parameters of a
function before its other variables, and a variable is read only when it is listed in its scope.
-/

namespace Ifj22

variable {x : String} {scope' : Option String} {s : Stmt}

/-! ## Reading and assigning -/

/-- A variable is read or assigned, at the top level or in the named function. -/
inductive Access where
  | read (scope : Option String) (name : String)
  | assign (scope : Option String) (name : String)

namespace Access

/-- The name of the variable. -/
def name : Access → String
  | read _ x | assign _ x => x

/-- The name that is assigned, if the scope is the given one. -/
def assigned? (scope : Option String) : Access → Option String
  | read _ _ => none
  | assign scope' x => if scope' = scope then some x else none

theorem eq_assign {scope : Option String} {a : Access} (h : a.assigned? scope = some x) :
    a = assign scope x := by
  cases a with
  | read => cases h
  | assign scope' y =>
    obtain ⟨rfl, ⟨⟩⟩ := Option.ite_none_right_eq_some.mp h
    rfl

/-- The names of all scopes after an access: one that is new to its scope comes last there. -/
def note (names : Option String → List String) : Access → Option String → List String
  | read _ _ => names
  | assign scope x => Function.update names scope
    (if x ∈ names scope then names scope else names scope ++ [x])

/-- Every variable that is read is among the names of its scope by then. -/
def Bound : (Option String → List String) → List Access → Prop
  | _, [] => True
  | names, a :: rest => (∀ scope x, a = read scope x → x ∈ names scope) ∧ Bound (note names a) rest

variable {names : Option String → List String} {before after : List Access}

theorem bound_append : Bound names (before ++ after) ↔
    Bound names before ∧ Bound (before.foldl note names) after := by
  induction before generalizing names with
  | nil => simp [Bound]
  | cons a before ih => simp [Bound, ih, and_assoc]

/-- The names of a scope after some accesses: those before, then the assigned ones, each where it is
assigned first. -/
theorem foldl_note (names : Option String → List String) (xs : List Access)
    (scope : Option String) : xs.foldl note names scope =
      names scope ++ ((xs.filterMap (assigned? scope)).removeAll (names scope)).eraseDups := by
  induction xs generalizing names with
  | nil => simp [List.removeAll]
  | cons a xs ih =>
    rw [List.foldl_cons, ih]
    cases a with
    | read scope' x => rfl
    | assign scope' x =>
      by_cases hscope : scope' = scope
      · subst hscope
        have hcons : assigned? scope' (assign scope' x) = some x := if_pos rfl
        rw [note, Function.update_self, List.filterMap_cons_some hcons]
        by_cases hx : x ∈ names scope'
        · simp [hx, List.removeAll]
        · have hrest : ∀ l : List String,
              l.removeAll (names scope' ++ [x]) = (l.removeAll (names scope')).filter (!· == x) := by
            intro l
            simp only [List.removeAll, List.filter_filter]
            refine List.filter_congr fun y _ => ?_
            simp [Bool.and_comm, beq_eq_decide]
          rw [if_neg hx, hrest, List.append_assoc, List.singleton_append, ← List.eraseDups_cons]
          simp [List.removeAll, hx]
      · have hcons : assigned? scope (assign scope' x) = none := if_neg hscope
        rw [note, Function.update_of_ne (Ne.symm hscope), List.filterMap_cons_none hcons]

/-- A variable that is read was listed from the start, or has been assigned before. -/
theorem Bound.preceded {scope : Option String} (h : Bound names (before ++ read scope x :: after)) :
    x ∈ names scope ∨ assign scope x ∈ before := by
  have hx := (bound_append.mp h).2.1 scope x rfl
  rw [foldl_note, List.mem_append, List.mem_eraseDups] at hx
  refine hx.imp id fun hx => ?_
  obtain ⟨a, ha, hname⟩ := List.mem_filterMap.mp (List.mem_of_mem_filter hx)
  exact eq_assign hname ▸ ha

end Access

/-! ## The accesses of a tree -/

open Access

mutual

/-- The variables that an expression reads, from left to right. -/
def Expr.accesses (scope : Option String) : Expr → List Access
  | .constant _ => []
  | .var name => [read scope name]
  | .binary _ left right => left.accesses scope ++ right.accesses scope
  | .unary _ operand => operand.accesses scope
  | .call _ args => Expr.accessesAll scope args

/-- The variables that the expressions of a list read. -/
def Expr.accessesAll (scope : Option String) : List Expr → List Access
  | [] => []
  | e :: rest => e.accesses scope ++ Expr.accessesAll scope rest

end

mutual

/-- The variables that a statement reads and assigns, in the order of the text: a value before the
variable that it is assigned to, a condition before what depends on it.  The body of a function has
a scope of its own. -/
def Stmt.accesses (scope : Option String) : Stmt → List Access
  | .assign target value => value.accesses scope ++ [Access.assign scope target]
  | .expr value => value.accesses scope
  | .ret none => []
  | .ret (some value) => value.accesses scope
  | .block body => Stmt.accessesAll scope body
  | .ifElse cond thenBody none => cond.accesses scope ++ Stmt.accessesAll scope thenBody
  | .ifElse cond thenBody (some elseBody) =>
    cond.accesses scope ++ Stmt.accessesAll scope thenBody ++ Stmt.accessesAll scope elseBody
  | .whileLoop cond body => cond.accesses scope ++ Stmt.accessesAll scope body
  | .function name _ _ body => Stmt.accessesAll (some name) body

/-- The variables that the statements of a list read and assign. -/
def Stmt.accessesAll (scope : Option String) : List Stmt → List Access
  | [] => []
  | s :: rest => s.accesses scope ++ Stmt.accessesAll scope rest

end

/-! ## The names of a scope -/

namespace SymbolTable

variable {t t' : SymbolTable} {function name : String}

/-- The names that the tables list for a scope; a local table that has not been made is empty. -/
def namesIn (t : SymbolTable) : Option String → List String
  | none => t.names
  | some function => ((t.locals? function).getD (Table.empty .function)).names

theorem namesIn_some (t : SymbolTable) (function : String) : t.namesIn (some function) =
    ((t.find? function).map fun s => (s.locals.getD (Table.empty .function)).names).getD [] := by
  rw [namesIn, locals?]
  cases t.find? function <;> rfl

/-- A change of a symbol that keeps its name and the names of its locals. -/
theorem namesIn_modify (t : SymbolTable) (name : String)
    {f : Symbol (Option LocalTable) → Symbol (Option LocalTable)} (hname : ∀ s, (f s).name = s.name)
    (hlocals : ∀ s, (f s).locals = s.locals) : namesIn (t.modify name f) = t.namesIn := by
  funext scope
  cases scope with
  | none => exact Table.names_modify t name hname
  | some function =>
    rw [namesIn_some, namesIn_some, Table.map_find?_modify t name hname fun s => by rw [hlocals]]

theorem namesIn_modifyLocals? {f : LocalTable → LocalTable}
    (h : t.modifyLocals? function f = some t') : t'.namesIn = Function.update t.namesIn
      (some function) (f ((t.locals? function).getD (Table.empty .function))).names := by
  obtain ⟨⟨s, hs, _⟩, rfl⟩ := modifyLocals?_eq_some h
  funext scope
  cases scope with
  | none =>
    rw [Function.update_of_ne (Option.some_ne_none _).symm]
    refine Table.names_modify t function ?_
    exact fun _ => rfl
  | some g =>
    rw [namesIn_some, Table.find?_modify t function]
    by_cases hg : g = function
    · subst hg
      rw [if_pos rfl, hs, Function.update_self, locals?, hs]
      rfl
    · rw [if_neg hg, Function.update_of_ne (by simpa using hg), ← namesIn_some]
    · exact fun _ => rfl

theorem namesIn_declareLocal? {ty : Ty} (h : t.declareLocal? function name ty = some t') :
    t'.namesIn = note t.namesIn (.assign (some function) name) := by
  rw [namesIn_modifyLocals? h, Table.names_declare]
  rfl

theorem namesIn_insert? (h : Table.insert? t name = some t') :
    t'.namesIn = note t.namesIn (.assign none name) := by
  have hnone := Table.find?_of_insert? h
  funext scope
  cases scope with
  | none =>
    rw [note, Function.update_self]
    refine (Table.names_of_insert? h).trans (if_neg ?_).symm
    exact (Table.find?_eq_none_iff t name).mp hnone
  | some function =>
    rw [note, Function.update_of_ne (Option.some_ne_none _), namesIn_some, namesIn_some,
      Table.find?_insert? h]
    split
    · rename_i hf
      rw [hf, hnone]
      rfl
    · rfl

theorem namesIn_declare (t : SymbolTable) (name : String) (ty : Ty) :
    namesIn (Table.declare t name ty) = note t.namesIn (.assign none name) := by
  funext scope
  cases scope with
  | none =>
    rw [note, Function.update_self]
    exact Table.names_declare t name ty
  | some function =>
    rw [note, Function.update_of_ne (Option.some_ne_none _), namesIn_some, namesIn_some,
      Table.find?_declare]
    by_cases hf : function = name
    · rw [if_pos hf, hf]
      cases t.find? name <;> rfl
    · rw [if_neg hf]

theorem mem_namesIn {scope : Option String} {ty : Ty} (h : t.varTy? scope name = some ty) :
    name ∈ t.namesIn scope := by
  by_contra hnone
  cases scope with
  | none =>
    rw [varTy?, (t.find?_eq_none_iff name).mpr hnone] at h
    cases h
  | some f =>
    rw [varTy?, local?_eq, (Table.find?_eq_none_iff _ name).mpr hnone] at h
    cases h

end SymbolTable

open SymbolTable

/-! ## The walk -/

namespace Checker

variable {scope : Option String} {c c' c'' : Checker} {xs ys : List Access}

/-- The walk has accessed variables: those it read were listed, and those it assigned are listed
now.  It ends in the scope. -/
structure Visits (scope : Option String) (c c' : Checker) (xs : List Access) : Prop where
  scope : c'.scope = scope
  bound : Bound c.table.namesIn xs
  names : c'.table.namesIn = xs.foldl note c.table.namesIn
  spelled : ∀ a ∈ xs, IsVarName a.name.toList

namespace Visits

theorem of_same (hscope : c'.scope = scope) (hnames : c'.table.namesIn = c.table.namesIn) :
    Visits scope c c' [] := ⟨hscope, trivial, hnames, nofun⟩

theorem trans (h1 : Visits scope c c' xs) (h2 : Visits scope' c' c'' ys) :
    Visits scope' c c'' (xs ++ ys) where
  scope := h2.scope
  bound := bound_append.mpr ⟨h1.bound, h1.names ▸ h2.bound⟩
  names := by rw [List.foldl_append, ← h1.names, h2.names]
  spelled := List.forall_mem_append.mpr ⟨h1.spelled, h2.spelled⟩

/-- Going on without an access. -/
theorem onto (h : Visits scope c c' xs) (hscope : c''.scope = scope')
    (hnames : c''.table.namesIn = c'.table.namesIn) : Visits scope' c c'' xs := by
  simpa using h.trans (of_same hscope hnames)

end Visits

theorem visits_assigned (hscope : c.scope = scope) {name : String} (hname : IsVarName name.toList)
    {ty : Ty} {u : Unit} (h : assigned name ty c = .ok u c') :
    Visits scope c c' [.assign scope name] := by
  obtain ⟨henc, htable⟩ := assigned_eq_ok h
  refine ⟨(scope_eq henc).trans hscope, ⟨nofun, trivial⟩, ?_, List.forall_mem_singleton.mpr hname⟩
  rw [hscope] at htable
  obtain ⟨rfl, htable⟩ | ⟨f, rfl, htable⟩ := htable
  · rw [htable]
    exact namesIn_declare ..
  · exact namesIn_declareLocal? htable

/-- A return has no other variables than its value. -/
theorem Visits.returned (hvisits : Visits scope c c' xs) {ty : Option Ty} {u : Unit}
    (h : returned ty c' = .ok u c'') : Visits scope c c'' xs := by
  obtain ⟨henc, htable⟩ := returned_eq_ok h
  refine hvisits.onto ?_ ?_
  · rw [← hvisits.scope, Checker.scope, henc, Option.map_map]
    rfl
  · rw [htable]
    split
    · exact namesIn_modify _ _ (fun _ => rfl) fun _ => rfl
    · rfl

end Checker

open Checker

variable {scope : Option String}

variable {c c' : Checker}

theorem Expr.accessesAll_singleton (scope : Option String) (e : Expr) :
    Expr.accessesAll scope [e] = e.accesses scope := List.append_nil _

theorem Expr.Walked.visits_all {es : List Expr} {vs : List (Ty × Expr)}
    (h : Expr.Walked c es vs c') (hscope : c.scope = scope) :
    Visits scope c c' (Expr.accessesAll scope es) := by
  induction h with
  | nil | constant => exact .of_same hscope rfl
  | var hx hty =>
    rw [hscope] at hty
    refine ⟨hscope, ⟨?_, trivial⟩, rfl, List.forall_mem_singleton.mpr hx⟩
    rintro _ _ ⟨⟩
    exact mem_namesIn hty
  | cons _ _ _ ih ihrest =>
    rw [Expr.accessesAll_singleton] at ih
    exact (ih hscope).trans (ihrest (ih hscope).scope)
  | binary _ _ _ _ ihl ihr =>
    rw [Expr.accessesAll_singleton] at ihl ihr ⊢
    exact (ihl hscope).trans (ihr (ihl hscope).scope)
  | unary _ _ _ ih => exact ih hscope
  | call _ hcall ih =>
    obtain ⟨rfl, _⟩ := call_eq_ok hcall
    rw [Expr.accessesAll_singleton]
    exact (ih hscope).onto (ih hscope).scope (namesIn_modify _ _ (fun _ => rfl) fun _ => rfl)

/-- Checking an expression reads its variables. -/
theorem Expr.Walked.visits {e : Expr} {v : Ty × Expr} (h : Expr.Walked c [e] [v] c')
    (hscope : c.scope = scope) : Visits scope c c' (e.accesses scope) :=
  Expr.accessesAll_singleton scope e ▸ h.visits_all hscope

/-- Checking the statement accesses its variables, and ends in the scope it began in. -/
theorem Stmt.Walked.visits {s' : Stmt} (h : Stmt.Walked c s s' c') (hscope : c.scope = scope) :
    Checker.Visits scope c c' (s.accesses scope) := by
  induction h with
  | assign hx he _ h =>
    have hvalue := he.visits hscope
    exact hvalue.trans (visits_assigned hvalue.scope hx h)
  | expr he => exact he.visits hscope
  | retNone h => exact (Visits.of_same hscope rfl).returned h
  | ret he _ h => exact (he.visits hscope).returned h
  | nil => exact .of_same hscope rfl
  | cons _ _ ih ihrest => exact (ih hscope).trans (ihrest (ih hscope).scope)
  | ifThen he _ ih | whileLoop he _ ih =>
    have hcond := he.visits hscope
    exact hcond.trans (ih hcond.scope)
  | ifElse he _ _ ih ihother =>
    have hcond := he.visits hscope
    have hboth := hcond.trans (ih hcond.scope)
    exact hboth.trans (ihother hboth.scope)

/-- At the top level the body of a function is checked in a scope of its own. -/
theorem Stmt.visits_top {s' : Stmt} (hspelled : s.OverTop .spelled) (hscope : c.scope = none)
    (h : s.check c = .ok s' c') : Checker.Visits none c c' (s.accesses none) := by
  cases hspelled with
  | stmt hover => exact (Stmt.walked hover h).visits hscope
  | @function name params declared body _ hb =>
    obtain ⟨body', c1, rfl, hbody, hleave⟩ := Stmt.walked_function hb h
    have hvisits : Checker.Visits (some name) c c1 (Stmt.accessesAll (some name) body) := by
      have hinside := hbody.visits rfl
      exact ⟨hinside.scope, hinside.bound, hinside.names, hinside.spelled⟩
    obtain ⟨henc, htable⟩ := leave_eq_ok hleave
    refine hvisits.onto ?_ ?_
    · rw [Checker.scope, henc]
      rfl
    · rw [htable]
      cases declared with
      | some ty => rfl
      | none => exact namesIn_modify _ _ (fun s => by split <;> rfl) fun s => by split <;> rfl

theorem Stmt.visits_toplevel {body : List Stmt} (hspelled : ∀ s ∈ body, s.OverTop .spelled) :
    ∀ {c c' : Checker} {body' : List Stmt}, c.scope = none →
      Stmt.checkList body c = .ok body' c' →
        Checker.Visits none c c' (Stmt.accessesAll none body) := by
  induction body with
  | nil =>
    intro c c' body' hscope h
    cases h
    exact .of_same hscope rfl
  | cons s rest ih =>
    intro c c' body' hscope h
    obtain ⟨s', c1, hs, h⟩ := bind_eq_ok.mp h
    obtain ⟨_, c2, hrest, h⟩ := bind_eq_ok.mp h
    cases h
    have hfirst := Stmt.visits_top (hspelled s (.head _)) hscope hs
    exact hfirst.trans (ih (fun s hs => hspelled s (.tail _ hs)) hfirst.scope hrest)

/-! ## Declaring the functions -/

theorem declareParam_names {function : String} {param : Param} {c c' : Checker} {u : Unit}
    (h : declareParam function param c = .ok u c') :
    param.name ∉ c.table.namesIn (some function) ∧
      c'.table.namesIn = note c.table.namesIn (.assign (some function) param.name) := by
  have hmeets : Meets (declareParam function param) c (fun _ _ => True) fun _ c' =>
      param.name ∉ c.table.namesIn (some function) ∧
        c'.table.namesIn = note c.table.namesIn (.assign (some function) param.name) := by
    unfold declareParam
    rw [meets_bind, meets_get]
    refine meets_ite (fun _ => trivial) fun hfree => ?_
    have hfree : c.table.local? function param.name = none := by simpa [local?] using hfree
    rw [local?_eq, Table.find?_eq_none_iff] at hfree
    cases ht : c.table.declareLocal? function param.name param.ty with
    | none => exact trivial
    | some t => exact ⟨hfree, namesIn_declareLocal? ht⟩
  exact hmeets.of_ok h

/-- The parameters are listed in their order. -/
theorem declareParams_names {function : String} : ∀ {params : List Param} {c c' : Checker}
    {u : PUnit}, params.forM (declareParam function) c = .ok u c' →
      c'.table.namesIn = Function.update c.table.namesIn (some function)
        (c.table.namesIn (some function) ++ params.map (·.name))
  | [], c, c', u, h => by
    cases h
    simp
  | param :: params, c, c', u, h => by
    obtain ⟨_, c1, hparam, h⟩ := bind_eq_ok.mp h
    obtain ⟨hfree, hnames⟩ := declareParam_names hparam
    rw [note, if_neg hfree] at hnames
    rw [declareParams_names h, hnames]
    simp

/-- A function that is declared comes last, and its parameters are its variables. -/
theorem declareFunction_names {name : String} {params : List Param} {declared : Option Ty}
    {c c' : Checker} {u : Unit} (h : declareFunction name params declared c = .ok u c') :
    c'.table.names = c.table.names ++ [name] ∧ ∀ function,
      c'.table.namesIn (some function) = if function = name then params.map (·.name)
        else c.table.namesIn (some function) := by
  unfold declareFunction at h
  obtain ⟨_, _, hget, h⟩ := bind_eq_ok.mp h
  cases hget
  cases hins : Table.insert? c.table name with
  | none =>
    simp only [declareFunction?, hins, Option.map_none] at h
    cases h
  | some t =>
    simp only [declareFunction?, hins, Option.map_some] at h
    obtain ⟨_, c1, hmodify, h⟩ := bind_eq_ok.mp h
    have hadded : c1.table.namesIn = namesIn t := by
      cases hmodify
      refine (namesIn_modify _ name ?_ ?_).trans (namesIn_modify t name ?_ ?_)
      all_goals exact fun _ => rfl
    have hnames := declareParams_names h
    rw [hadded] at hnames
    refine ⟨?_, fun function => ?_⟩
    · show c'.table.namesIn none = _
      rw [hnames, Function.update_of_ne (Option.some_ne_none _).symm]
      exact Table.names_of_insert? hins
    · have hfind : namesIn t (some function) =
          if function = name then [] else c.table.namesIn (some function) := by
        rw [namesIn_some, Table.find?_insert? hins]
        split
        · rfl
        · exact (namesIn_some ..).symm
      rw [hnames]
      by_cases hf : function = name
      · subst hf
        rw [Function.update_self, hfind, if_pos rfl, if_pos rfl, List.nil_append]
      · rw [Function.update_of_ne (by simpa using hf), hfind, if_neg hf, if_neg hf]

/-- The functions are listed in source order, each with its parameters. -/
theorem Stmt.hoist_names {body : List Stmt} :
    ∀ {c c' : Checker} {u : PUnit}, (body.filterMap Stmt.functionName?).Nodup →
      body.forM Stmt.hoist c = .ok u c' →
      c'.table.names = c.table.names ++ body.filterMap Stmt.functionName? ∧
      (∀ function ∉ body.filterMap Stmt.functionName?,
        c'.table.namesIn (some function) = c.table.namesIn (some function)) ∧
      ∀ name params declared b, Stmt.function name params declared b ∈ body →
        c'.table.namesIn (some name) = params.map (·.name) := by
  induction body with
  | nil =>
    intro c c' u _ h
    cases h
    simp
  | cons s rest ih =>
    intro c c' u hnodup h
    obtain ⟨_, c1, hs, hrest⟩ := bind_eq_ok.mp h
    cases s with
    | function name params declared b =>
      obtain ⟨hnew, hnodup⟩ := List.nodup_cons.mp hnodup
      obtain ⟨hnames1, hlocals1⟩ := declareFunction_names hs
      obtain ⟨hnames, hothers, hparams⟩ := ih hnodup hrest
      refine ⟨?_, fun function hf => ?_, fun name' params' declared' b' hmem => ?_⟩
      · rw [hnames, hnames1, List.append_assoc]
        rfl
      · obtain ⟨hne, hf⟩ := not_or.mp (mt List.mem_cons.mpr hf)
        rw [hothers function hf, hlocals1, if_neg hne]
      · obtain heq | hmem := List.mem_cons.mp hmem
        · cases heq
          rw [hothers name hnew, hlocals1, if_pos rfl]
        · exact hparams _ _ _ _ hmem
    | _ =>
      cases hs
      obtain ⟨hnames, hothers, hparams⟩ := ih hnodup hrest
      exact ⟨hnames, hothers, fun _ _ _ _ hmem =>
        hparams _ _ _ _ ((List.mem_cons.mp hmem).resolve_left nofun)⟩

theorem namesIn_builtins (function : String) : builtins.namesIn (some function) = [] := by
  rw [namesIn_some]
  cases hs : builtins.find? function with
  | none => rfl
  | some s =>
    obtain ⟨_, _, _, rfl⟩ := builtin_of_find? hs
    rfl

/-! ## Settling -/

theorem namesIn_widenSymbol (name : String) (ty : Ty) (t : SymbolTable) :
    namesIn ((widenSymbol name ty).run t).2 = t.namesIn := by
  show namesIn (if t.lacksTy name ty then t.includeTy name ty else t) = _
  split
  · exact namesIn_modify _ _ (fun _ => rfl) fun _ => rfl
  · rfl

theorem namesIn_widenLocal (function name : String) (ty : Ty) (t : SymbolTable) :
    namesIn ((widenLocal function name ty).run t).2 = t.namesIn := by
  show namesIn ((t.modifyLocals? function _).getD t) = _
  cases h : t.modifyLocals? function _ with
  | none => rfl
  | some t' =>
    rw [Option.getD_some, namesIn_modifyLocals? h, Function.update_eq_self_iff]
    split
    · exact Table.names_modify _ _ fun _ => rfl
    · rfl

theorem namesIn_store (u : Store) (t : SymbolTable) : namesIn (u.settle.run t).2 = t.namesIn := by
  cases u with
  | assign scope target value =>
    cases scope with
    | none => rw [Store.run_assign, namesIn_widenSymbol]
    | some f => rw [Store.run_assign_inside, namesIn_widenLocal]
  | ret scope value =>
    cases scope with
    | none => rfl
    | some f =>
      cases hf : f.inferred with
      | true => rw [Store.run_ret_inferred hf, namesIn_widenSymbol]
      | false => rw [Store.run_ret_declared fun _ h => Option.some.inj h ▸ hf]

theorem namesIn_stores (us : List Store) : ∀ t : SymbolTable,
    namesIn ((anyChange Store.settle us).run t).2 = t.namesIn := by
  induction us with
  | nil => exact fun _ => rfl
  | cons u us ih => exact fun t => (ih _).trans (namesIn_store u t)

theorem Stmt.namesIn_settleRounds (body : List Stmt) : ∀ (fuel : Nat) (t : SymbolTable),
    (Stmt.settleRounds body fuel t).namesIn = t.namesIn
  | 0, _ => rfl
  | fuel + 1, t => by
    have hround := namesIn_stores (Stmt.storesOf none body) t
    rw [← Stmt.settleList_eq_stores] at hround
    rw [Stmt.settleRounds]
    generalize (Stmt.settleList none body).run t = result at hround
    obtain ⟨changed, t'⟩ := result
    dsimp only
    split
    · rw [Stmt.namesIn_settleRounds body fuel t', hround]
    · exact hround

/-! ## Accepted programs -/

/-- In an accepted program a variable is read after it has been assigned in the same scope, or is a
parameter.  The table lists the functions of the language, those of the program in source order, and
the variables of the top level, first assigned first; and for each function its parameters in order,
and then its other variables, first assigned first. -/
theorem analyze_scopes {simplify : Bool} {source : String} {checked : Checked}
    (h : analyze simplify source = .ok checked) :
    ∃ program tree, parseSource source = .ok program ∧ program.tree? = some tree ∧
      (∀ before scope x after,
        Stmt.accessesAll none tree = before ++ Access.read scope x :: after →
        Access.assign scope x ∈ before ∨ ∃ function params declared body,
          scope = some function ∧ Stmt.function function params declared body ∈ tree ∧
          x ∈ params.map (·.name)) ∧
      (tree.filterMap Stmt.functionName?).Nodup ∧
      checked.table.names = SymbolTable.builtins.names ++ tree.filterMap Stmt.functionName? ++
        ((Stmt.accessesAll none tree).filterMap (Access.assigned? none)).eraseDups ∧
      ∀ function params declared body, Stmt.function function params declared body ∈ tree →
        checked.table.namesIn (some function) = params.map (·.name) ++
          (((Stmt.accessesAll none tree).filterMap (Access.assigned? (some function))).removeAll
            (params.map (·.name))).eraseDups := by
  obtain ⟨plain, hplain, htable⟩ := analyze_table h
  obtain ⟨program, tree, body, c, hparse, hholds, hspelled, hrun, hfrom⟩ := analyze_eq_ok hplain
  obtain ⟨_, c₁, hhoist, hcheck⟩ := bind_eq_ok.mp hrun
  obtain ⟨henc, hhoists⟩ := (meets_hoist tree (Checker.start .builtins)).of_ok hhoist
  obtain ⟨hnames, hothers, hparams⟩ := Stmt.hoist_names hhoists.nodup hhoist
  have hvisits := Stmt.visits_toplevel hspelled (c := c₁) (by rw [Checker.scope, henc]; rfl) hcheck
  have hsettled : checked.table.namesIn =
      (Stmt.accessesAll none tree).foldl note c₁.table.namesIn := by
    rw [← htable, hfrom.table, Stmt.namesIn_settleRounds, hvisits.names]
  -- the functions have no names of variables
  have hvar : ∀ a ∈ Stmt.accessesAll none tree, a.name ∉ c₁.table.names := by
    intro a ha hmem
    cases hs : c₁.table.find? a.name with
    | none => exact (Table.find?_eq_none_iff _ _).mp hs hmem
    | some s => exact hhoists.not_isVarName hspelled hs (hvisits.spelled a ha)
  refine ⟨program, tree, hparse, hholds.tree?_eq, ?_, hhoists.nodup, ?_, ?_⟩
  · intro before scope x after hsplit
    refine (Bound.preceded (hsplit ▸ hvisits.bound)).symm.imp id fun hx => ?_
    cases scope with
    | none => exact absurd hx (hvar (.read none x) (by simp [hsplit]))
    | some function =>
      by_cases hf : function ∈ tree.filterMap Stmt.functionName?
      · obtain ⟨s, hs, hname⟩ := List.mem_filterMap.mp hf
        cases s with
        | function name params declared b =>
          cases hname
          rw [hparams _ _ _ _ hs] at hx
          exact ⟨_, params, declared, b, rfl, hs, hx⟩
        | _ => cases hname
      · rw [hothers function hf] at hx
        exact absurd (namesIn_builtins function ▸ hx) List.not_mem_nil
  · have hnew : ∀ x ∈ (Stmt.accessesAll none tree).filterMap (assigned? none),
        x ∉ c₁.table.names := by
      intro x hx
      obtain ⟨a, ha, hname⟩ := List.mem_filterMap.mp hx
      obtain rfl := eq_assign hname
      exact hvar _ ha
    have htop := congrFun hsettled none
    rw [foldl_note, List.removeAll, List.filter_eq_self.mpr (by simpa [namesIn] using hnew)] at htop
    exact htop.trans (congrArg (· ++ _) hnames)
  · intro function params declared b hmem
    rw [hsettled, foldl_note, hparams _ _ _ _ hmem]

/-- A program with the same names in two scopes. -/
def shadowed : String :=
  "<?php $b = 1; while ($b) { $a = $b; $b = 0; } function f(int $a) { $c = $a; $b = $c; } f($b);"

theorem analyze_scopes_shadowed :
    ∃ checked, analyze false shadowed = .ok checked ∧
      checked.table.names = SymbolTable.builtins.names ++ ["f", "$b", "$a"] ∧
      checked.table.namesIn (some "f") = ["$a", "$c", "$b"] ∧
      ∃ program tree, parseSource shadowed = .ok program ∧ program.tree? = some tree ∧
        ∀ before scope x after,
          Stmt.accessesAll none tree = before ++ Access.read scope x :: after →
          Access.assign scope x ∈ before ∨ ∃ function params declared body,
            scope = some function ∧ Stmt.function function params declared body ∈ tree ∧
            x ∈ params.map (·.name) := by
  obtain ⟨checked, h, hnames, hlocals⟩ : ∃ checked, analyze false shadowed = .ok checked ∧
      checked.table.names = builtins.names ++ ["f", "$b", "$a"] ∧
      checked.table.namesIn (some "f") = ["$a", "$c", "$b"] := by decide +kernel
  obtain ⟨program, tree, hparse, htree, hreads, _⟩ := analyze_scopes h
  exact ⟨checked, h, hnames, hlocals, program, tree, hparse, htree, hreads⟩

end Ifj22
