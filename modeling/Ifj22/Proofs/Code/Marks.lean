import Ifj22.Code.Generator
import Ifj22.Proofs.Typing.Program
set_option autoImplicit false

/-!
# Code: marks of declared variables

The generator notes in the table which variables it has declared in the code.  These marks are all
that it changes there: `Alike` tables agree on the types, on the kinds of names and on what is
called.
-/

namespace Ifj22

namespace SymbolTable

/-- The variable of a scope was declared in the code before; none if there is no such variable. -/
def emitted? (t : SymbolTable) (scope : Option String) (name : String) : Option Bool :=
  match scope with
  | some function => (t.local? function name).map (·.emitted)
  | none => (t.find? name).map (·.emitted)

/-- The tables agree in all but the marks. -/
structure Alike (t t' : SymbolTable) : Prop where
  symbols : ∀ name, (t'.find? name).map (fun s => (s.ty, s.isFunction)) =
    (t.find? name).map fun s => (s.ty, s.isFunction)
  locals : ∀ function name, (t'.local? function name).map (·.ty) =
    (t.local? function name).map (·.ty)
  listed : t'.symbols.map (fun s => (s.name, s.builtin, s.called)) =
    t.symbols.map fun s => (s.name, s.builtin, s.called)

namespace Alike

variable {t t' t'' : SymbolTable}

theorem refl (t : SymbolTable) : t.Alike t := ⟨fun _ => rfl, fun _ _ => rfl, rfl⟩

theorem trans (h1 : t.Alike t') (h2 : t'.Alike t'') : t.Alike t'' where
  symbols name := (h2.symbols name).trans (h1.symbols name)
  locals function name := (h2.locals function name).trans (h1.locals function name)
  listed := h2.listed.trans h1.listed

theorem ty_eq (h : t.Alike t') (name : String) :
    (t'.find? name).map (·.ty) = (t.find? name).map (·.ty) := by
  have h := congrArg (Option.map Prod.fst) (h.symbols name)
  simpa only [Option.map_map, Function.comp_def] using h

theorem isFunction_eq (h : t.Alike t') (name : String) :
    (t'.find? name).map (·.isFunction) = (t.find? name).map (·.isFunction) := by
  have h := congrArg (Option.map Prod.snd) (h.symbols name)
  simpa only [Option.map_map, Function.comp_def] using h

theorem emitted?_isSome (h : t.Alike t') (scope : Option String) (name : String) :
    (t'.emitted? scope name).isSome = (t.emitted? scope name).isSome := by
  cases scope with
  | none => simpa [emitted?] using congrArg Option.isSome (h.ty_eq name)
  | some function => simpa [emitted?] using congrArg Option.isSome (h.locals function name)

theorem callTy_eq (h : t.Alike t') : t'.callTy = t.callTy := by
  funext name
  have hty := h.ty_eq name
  unfold callTy
  cases hf : t.find? name <;> cases hf' : t'.find? name <;> simp_all [Symbol.callType]

end Alike

/-- No variable has been declared in the code. -/
def Unmarked (t : SymbolTable) : Prop := ∀ scope name, t.emitted? scope name ≠ some true

theorem emitted?_isSome_iff (t : SymbolTable) (scope : Option String) (name : String) :
    (t.emitted? scope name).isSome = true ↔ (t.vocabulary scope).var name := by
  cases scope <;> simp [emitted?, vocabulary, Option.isSome_iff_exists]

theorem emitted_of_grows {L : Type} [Inhabited L] {R : L → L → Prop} {t t' : Table L}
    (h : t.Grows R t') (ht : ∀ x, (t.find? x).map (·.emitted) ≠ some true) (x : String) :
    (t'.find? x).map (·.emitted) ≠ some true := by
  intro hmark
  obtain ⟨s', hs', hs'mark⟩ := Option.map_eq_some_iff.mp hmark
  cases hs : t.find? x with
  | none =>
    rw [(h.fresh hs hs').emitted] at hs'mark
    cases hs'mark
  | some s =>
    obtain ⟨u, hu, hg⟩ := h.symbols hs
    rw [hs'] at hu
    cases hu
    refine ht x ?_
    rw [hs, Option.map_some, ← hg.emitted, hs'mark]

theorem Grows.unmarked {t t' : SymbolTable} (h : t.Grows t') (ht : t.Unmarked) : t'.Unmarked := by
  intro scope x
  cases scope with
  | none => exact emitted_of_grows h (ht none) x
  | some f =>
    have hlocal := emitted_of_grows (h.locals? f).grows (fun y => ?_) x
    · simpa only [emitted?, local?_eq] using hlocal
    · simpa only [emitted?, local?_eq] using ht (some f) y

theorem builtins_unmarked {x : String} {s : Symbol (Option LocalTable)}
    (h : builtins.find? x = some s) : s.emitted = false ∧ s.locals = none := by
  have hall : ∀ s ∈ builtins.symbols, s.emitted = false ∧ s.locals = none := by
    intro s hs
    obtain ⟨b, _, rfl⟩ := List.mem_map.mp hs
    exact ⟨rfl, rfl⟩
  exact hall s (List.mem_of_find?_eq_some h)

theorem Hoists.unmarked {t : SymbolTable} {body : List Stmt} (h : builtins.Hoists t body) :
    t.Unmarked := by
  -- a name is a function's, and then its head says so, or it stands as it stood before
  have hcase : ∀ f, (∃ params declared, t.Head f params declared) ∨
      t.find? f = builtins.find? f := by
    intro f
    by_cases hf : f ∈ body.filterMap Stmt.functionName?
    · obtain ⟨s, hs, hname⟩ := List.mem_filterMap.mp hf
      cases s with
      | function name params declared b =>
        cases hname
        exact .inl ⟨params, declared, h.head _ _ _ _ hs⟩
      | _ => cases hname
    · exact .inr (h.others f hf)
  intro scope x hmark
  cases scope with
  | none =>
    obtain ⟨s, hs, hsmark⟩ := Option.map_eq_some_iff.mp hmark
    rcases hcase x with ⟨_, _, hhead⟩ | hsame
    · obtain ⟨s', hs', _, _, hs'mark, _⟩ := hhead.symbol
      rw [hs] at hs'
      obtain rfl := Option.some.inj hs'
      rw [hs'mark] at hsmark
      cases hsmark
    · rw [hsame] at hs
      rw [(builtins_unmarked hs).1] at hsmark
      cases hsmark
  | some f =>
    obtain ⟨s, hs, hsmark⟩ := Option.map_eq_some_iff.mp hmark
    rcases hcase f with ⟨params, _, hhead⟩ | hsame
    · have hlocal := hhead.locals x
      rw [hs, Option.map_some] at hlocal
      obtain ⟨p, _, hp⟩ := Option.map_eq_some_iff.mp hlocal.symm
      rw [hsmark] at hp
      exact absurd (congrArg Prod.snd hp) Bool.false_ne_true
    · unfold SymbolTable.local? SymbolTable.locals? at hs
      rw [hsame] at hs
      cases hb : builtins.find? f with
      | none => rw [hb] at hs; cases hs
      | some b =>
        rw [hb, Option.bind_some, (builtins_unmarked hb).2] at hs
        cases hs

end SymbolTable

namespace Code.Generator

variable {g : Generator}

theorem emitted?_eq (g : Generator) (name : String) :
    g.emitted? name = g.table.emitted? g.function name := by
  unfold emitted? SymbolTable.emitted?
  cases g.function <;> rfl

/-- The function that is being generated has a symbol of its own. -/
def InScope (g : Generator) : Prop :=
  ∀ f, g.function = some f → (g.table.find? f).map (·.isFunction) = some true

theorem markEmitted_table_none (hg : g.function = none) (name : String) :
    (g.markEmitted name).table = g.table.modify name fun s => { s with emitted := true } := by
  unfold markEmitted
  rw [hg]

theorem markEmitted_table_some {f : String} (hg : g.function = some f) (hscope : g.InScope)
    (name : String) :
    g.table.modifyLocals? f (·.modify name fun s => { s with emitted := true }) =
      some (g.markEmitted name).table := by
  unfold markEmitted
  rw [hg]
  have hfun := hscope f hg
  cases hf : g.table.find? f with
  | none => rw [hf] at hfun; cases hfun
  | some s =>
    rw [hf] at hfun
    obtain ⟨t, ht⟩ := SymbolTable.modifyLocals?_isSome hf (Option.some.inj hfun)
      (·.modify name fun s => { s with emitted := true })
    dsimp only
    rw [ht, Option.getD_some]

/-- Marking a global symbol keeps the local tables. -/
theorem local?_modify_emitted (t : SymbolTable) (name function x : String) :
    SymbolTable.local? (t.modify name fun s => { s with emitted := true }) function x =
      t.local? function x := by
  unfold SymbolTable.local? SymbolTable.locals?
  rw [Table.find?_modify _ _ ?_]
  · split
    · cases t.find? function <;> rfl
    · rfl
  · exact fun _ => rfl

theorem map_emitted_modify {L : Type} (t : Table L) (name x : String) :
    ((t.modify name fun s => { s with emitted := true }).find? x).map (·.emitted) =
      if x = name then ((t.find? x).map (·.emitted)).map fun _ => true
      else (t.find? x).map (·.emitted) := by
  rw [Table.find?_modify _ _ ?_]
  · split
    · cases t.find? x <;> rfl
    · rfl
  · exact fun _ => rfl

/-- Marking a variable marks just that variable. -/
theorem emitted?_markEmitted (hscope : g.InScope) (name : String) (scope : Option String)
    (x : String) : (g.markEmitted name).table.emitted? scope x =
      if scope = g.function ∧ x = name then (g.table.emitted? scope x).map fun _ => true
      else g.table.emitted? scope x := by
  cases hg : g.function with
  | none =>
    rw [markEmitted_table_none hg]
    cases scope with
    | none => simpa only [SymbolTable.emitted?, true_and] using map_emitted_modify g.table name x
    | some f =>
      simp only [SymbolTable.emitted?, local?_modify_emitted, reduceCtorEq, false_and, if_false]
  | some f =>
    have htable := markEmitted_table_some hg hscope name
    cases scope with
    | none =>
      obtain ⟨_, heq⟩ := SymbolTable.modifyLocals?_eq_some htable
      simp only [SymbolTable.emitted?, reduceCtorEq, false_and, if_false, heq]
      refine g.table.map_find?_modify f ?_ ?_ x <;> exact fun _ => rfl
    | some f' =>
      simp only [SymbolTable.emitted?, SymbolTable.local?_modifyLocals? htable,
        Option.some.injEq]
      by_cases hf : f' = f
      · subst hf
        simp only [true_and, if_true, SymbolTable.local?_eq]
        exact map_emitted_modify _ name x
      · simp only [hf, false_and, if_false]

theorem alike_markEmitted (hscope : g.InScope) (name : String) :
    g.table.Alike (g.markEmitted name).table := by
  cases hg : g.function with
  | none =>
    rw [markEmitted_table_none hg]
    refine ⟨g.table.map_find?_modify name ?_ ?_, fun f x => ?_, g.table.map_symbols_modify name ?_⟩
    · exact fun _ => rfl
    · exact fun _ => rfl
    · rw [local?_modify_emitted]
    · exact fun _ => rfl
  | some f =>
    have htable := markEmitted_table_some hg hscope name
    obtain ⟨_, heq⟩ := SymbolTable.modifyLocals?_eq_some htable
    refine ⟨?_, fun f' x => ?_, ?_⟩
    · rw [heq]
      refine g.table.map_find?_modify f ?_ ?_ <;> exact fun _ => rfl
    · rw [SymbolTable.local?_modifyLocals? htable]
      split
      · rename_i hf
        subst hf
        rw [SymbolTable.local?_eq]
        refine Table.map_find?_modify _ name ?_ ?_ x <;> exact fun _ => rfl
      · rfl
    · rw [heq]
      refine g.table.map_symbols_modify f ?_
      exact fun _ => rfl

end Code.Generator

end Ifj22
