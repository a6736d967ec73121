import Ifj22.Symbol
set_option autoImplicit false

/-!
# Typing: how tables grow

The steps of the checker only add to the tables: symbols keep their names, signatures and kinds,
types only gain members, and local tables only gain symbols.  `Grows` collects this; what a table
knows of a name stays true in every table that it grows into.
-/

namespace Ifj22

variable {name : String} {t t' : SymbolTable}

/-! ## Looking up after a change -/

namespace Table

variable {Locals : Type}

theorem find?_name {t : Table Locals} {s : Symbol Locals} (h : t.find? name = some s) :
    s.name = name := by
  have := List.find?_some h
  simpa using this

theorem find?_modify (t : Table Locals) (name : String) {f : Symbol Locals → Symbol Locals}
    (hf : ∀ s, (f s).name = s.name) (x : String) :
    (t.modify name f).find? x = if x = name then (t.find? x).map f else t.find? x := by
  simp only [find?, modify]
  induction t.symbols with
  | nil => simp
  | cons s symbols ih =>
    rw [List.map_cons, List.find?_cons, List.find?_cons]
    by_cases hs : s.name = name
    · rw [if_pos hs, hf]
      by_cases hx : s.name = x
      · simp [hx, hx.symm.trans hs]
      · have hx' : (s.name == x) = false := by simpa using hx
        rw [hx', ih]
    · rw [if_neg hs]
      by_cases hx : s.name = x
      · have hne : x ≠ name := fun h => hs (hx.trans h)
        simp [hx, hne]
      · have hx' : (s.name == x) = false := by simpa using hx
        rw [hx', ih]

/-- What a change keeps of a symbol is the same for every name. -/
theorem map_find?_modify {β : Type} (t : Table Locals) (name : String)
    {f : Symbol Locals → Symbol Locals} {view : Symbol Locals → β}
    (hf : ∀ s, (f s).name = s.name) (hview : ∀ s, view (f s) = view s) (x : String) :
    ((t.modify name f).find? x).map view = (t.find? x).map view := by
  rw [find?_modify t name hf]
  split
  · rw [Option.map_map]
    exact congrArg (Option.map · _) (funext hview)
  · rfl

theorem map_symbols_modify {β : Type} (t : Table Locals) (name : String)
    {f : Symbol Locals → Symbol Locals} {view : Symbol Locals → β}
    (hview : ∀ s, view (f s) = view s) :
    (t.modify name f).symbols.map view = t.symbols.map view := by
  simp only [modify, List.map_map]
  refine List.map_congr_left fun s _ => ?_
  simp only [Function.comp_apply]
  split
  · exact hview s
  · rfl

variable [Inhabited Locals]

theorem find?_of_insert? {t t' : Table Locals} (h : t.insert? name = some t') :
    t.find? name = none := by
  rw [t.find?_eq_none_iff, ← t.insert?_eq_none_iff, h]
  exact Option.some_ne_none t'

theorem find?_insert? {t t' : Table Locals} (h : t.insert? name = some t') (x : String) :
    t'.find? x = if x = name then some (Symbol.fresh t.scope name) else t.find? x := by
  have hfind := find?_of_insert? h
  unfold insert? at h
  split at h
  · cases h
  · cases h
    simp only [find?] at *
    rw [List.find?_append]
    by_cases hx : x = name
    · subst hx
      rw [hfind, if_pos rfl]
      simp [Symbol.fresh]
    · have hne : ¬ name = x := fun h => hx h.symm
      simp [Symbol.fresh, hx, hne]

/-- A declared variable has the type it had and the new one together. -/
theorem find?_declare (t : Table Locals) (name : String) (ty : Ty) (x : String) :
    (t.declare name ty).find? x = if x = name then
      some ((fun s => { s with defined := true, ty := s.ty ∪ ty })
        ((t.find? name).getD (Symbol.fresh t.scope name)))
      else t.find? x := by
  unfold declare
  rw [find?_modify]
  · cases hins : t.insert? name with
    | none =>
      rw [Option.getD_none]
      have hmem := (t.insert?_eq_none_iff name).1 hins
      cases hfind : t.find? name with
      | none => exact absurd hmem ((t.find?_eq_none_iff name).1 hfind)
      | some s =>
        by_cases hx : x = name
        · subst hx
          rw [if_pos rfl, if_pos rfl, hfind]
          rfl
        · rw [if_neg hx, if_neg hx]
    | some t' =>
      rw [Option.getD_some, find?_insert? hins]
      by_cases hx : x = name
      · rw [if_pos hx, if_pos hx, if_pos hx, find?_of_insert? hins]
        rfl
      · rw [if_neg hx, if_neg hx, if_neg hx]
  · exact fun _ => rfl

end Table

namespace Ty

theorem subset_trans {a b c : Ty} (h1 : a.subset b = true) (h2 : b.subset c = true) :
    a.subset c = true := by
  rw [subset_iff] at *
  rw [← h2, ← h1]
  simp only [union_def, ← BitVec.or_assoc, BitVec.or_self]

end Ty

/-! ## Growth -/

/-- The second symbol is the first one with more known of it. -/
structure Symbol.Grows {Locals : Type} (R : Locals → Locals → Prop) (s s' : Symbol Locals) :
    Prop where
  isFunction : s'.isFunction = s.isFunction
  builtin : s'.builtin = s.builtin
  arity : s'.arity = s.arity
  params : s'.params = s.params
  emitted : s'.emitted = s.emitted
  ty : s.ty.subset s'.ty = true
  called : s.called = true → s'.called = true
  locals : R s.locals s'.locals

/-- Every symbol of the first table has grown into one of the second, and the others of the second
have grown out of fresh ones. -/
structure Table.Grows {Locals : Type} [Inhabited Locals] (R : Locals → Locals → Prop)
    (t t' : Table Locals) : Prop where
  symbols : ∀ {name s}, t.find? name = some s → ∃ s', t'.find? name = some s' ∧ s.Grows R s'
  fresh : ∀ {name s'}, t.find? name = none → t'.find? name = some s' →
    (Symbol.fresh .toplevel name).Grows R s'

section

variable {Locals : Type} {R : Locals → Locals → Prop}

theorem Symbol.Grows.refl (hR : ∀ l, R l l) (s : Symbol Locals) : s.Grows R s :=
  ⟨rfl, rfl, rfl, rfl, rfl, Ty.subset_refl _, id, hR _⟩

theorem Symbol.Grows.trans (hR : ∀ l m n, R l m → R m n → R l n) {s s' s'' : Symbol Locals}
    (h1 : s.Grows R s') (h2 : s'.Grows R s'') : s.Grows R s'' where
  isFunction := h2.isFunction.trans h1.isFunction
  builtin := h2.builtin.trans h1.builtin
  arity := h2.arity.trans h1.arity
  params := h2.params.trans h1.params
  emitted := h2.emitted.trans h1.emitted
  ty := Ty.subset_trans h1.ty h2.ty
  called h := h2.called (h1.called h)
  locals := hR _ _ _ h1.locals h2.locals

variable [Inhabited Locals]

theorem Table.Grows.refl (hR : ∀ l, R l l) (t : Table Locals) : t.Grows R t := by
  refine ⟨fun h => ⟨_, h, .refl hR _⟩, fun hnone h => ?_⟩
  rw [hnone] at h
  cases h

theorem Table.Grows.trans (hR : ∀ l m n, R l m → R m n → R l n) {t t' t'' : Table Locals}
    (h1 : t.Grows R t') (h2 : t'.Grows R t'') : t.Grows R t'' where
  symbols h := by
    obtain ⟨s', hs', hg1⟩ := h1.symbols h
    obtain ⟨s'', hs'', hg2⟩ := h2.symbols hs'
    exact ⟨s'', hs'', hg1.trans hR hg2⟩
  fresh {name s''} hnone h := by
    cases h' : t'.find? name with
    | none => exact h2.fresh h' h
    | some s' =>
      obtain ⟨u, hu, hg⟩ := h2.symbols h'
      rw [h] at hu
      cases hu
      exact (h1.fresh hnone h').trans hR hg

/-- No symbol becomes a function. -/
theorem Table.Grows.functions {t t' : Table Locals} (h : t.Grows R t') {s' : Symbol Locals}
    (hs' : t'.find? name = some s') (hfun : s'.isFunction = true) : ∃ s, t.find? name = some s := by
  cases hs : t.find? name with
  | some s => exact ⟨s, rfl⟩
  | none =>
    have := (h.fresh hs hs').isFunction
    rw [hfun] at this
    cases this

/-- Changing one symbol to more. -/
theorem Table.Grows.modify (hR : ∀ l, R l l) (t : Table Locals) (name : String)
    {f : Symbol Locals → Symbol Locals} (hname : ∀ s, (f s).name = s.name)
    (hf : ∀ s, t.find? name = some s → s.Grows R (f s)) : t.Grows R (t.modify name f) where
  symbols {x s} h := by
    rw [find?_modify t name hname]
    by_cases hx : x = name
    · subst hx
      rw [if_pos rfl, h]
      exact ⟨f s, rfl, hf s h⟩
    · rw [if_neg hx]
      exact ⟨s, h, .refl hR s⟩
  fresh {x s'} hnone h := by
    rw [find?_modify t name hname, hnone] at h
    split at h <;> cases h

/-- Inserting a name. -/
theorem Table.Grows.insert? (hR : ∀ l, R l l) {t t' : Table Locals} (h : t.insert? name = some t') :
    t.Grows R t' where
  symbols {x s} hs := by
    have hx : x ≠ name := fun hx => by
      rw [hx, find?_of_insert? h] at hs
      cases hs
    rw [find?_insert? h, if_neg hx]
    exact ⟨s, hs, .refl hR s⟩
  fresh {x s'} hnone hs' := by
    rw [find?_insert? h] at hs'
    split at hs'
    · obtain rfl := Option.some.inj hs'
      exact ⟨rfl, rfl, rfl, rfl, rfl, Ty.subset_refl _, id, hR _⟩
    · rw [hnone] at hs'
      cases hs'

/-- Declaring a variable. -/
theorem Table.Grows.declare (hR : ∀ l, R l l) (t : Table Locals)
    (name : String) (ty : Ty) : t.Grows R (t.declare name ty) where
  symbols {x s} h := by
    rw [find?_declare]
    by_cases hx : x = name
    · subst hx
      rw [if_pos rfl, h]
      exact ⟨_, rfl, rfl, rfl, rfl, rfl, rfl, Ty.subset_union_left _ _, id, hR _⟩
    · rw [if_neg hx]
      exact ⟨s, h, .refl hR s⟩
  fresh {x s'} hnone h := by
    rw [find?_declare] at h
    split at h
    · rename_i hx
      subst hx
      rw [hnone] at h
      cases h
      exact ⟨rfl, rfl, rfl, rfl, rfl, Ty.subset_union_left _ _, id, hR _⟩
    · rw [hnone] at h
      cases h

end

/-- Local tables grow by their variables. -/
def LocalTable.Grows (l l' : LocalTable) : Prop := Table.Grows (fun _ _ => True) l l'

/-- A local table stays, and grows; a new one starts out empty. -/
structure LocalsGrow (l l' : Option LocalTable) : Prop where
  stays : l.isSome = true → l'.isSome = true
  grows : (l.getD (Table.empty .function)).Grows (l'.getD (Table.empty .function))

theorem LocalsGrow.refl (l : Option LocalTable) : LocalsGrow l l :=
  ⟨id, Table.Grows.refl (fun _ => trivial) _⟩

theorem LocalsGrow.trans {l m n : Option LocalTable} (h1 : LocalsGrow l m)
    (h2 : LocalsGrow m n) : LocalsGrow l n :=
  ⟨fun h => h2.stays (h1.stays h), Table.Grows.trans (fun _ _ _ _ _ => trivial) h1.grows h2.grows⟩

namespace SymbolTable

/-- The global table grows by its symbols and by the tables in them. -/
def Grows (t t' : SymbolTable) : Prop := Table.Grows LocalsGrow t t'

theorem Grows.refl (t : SymbolTable) : t.Grows t := Table.Grows.refl LocalsGrow.refl t

theorem Grows.trans {t'' : SymbolTable} (h1 : t.Grows t') (h2 : t'.Grows t'') :
    t.Grows t'' := Table.Grows.trans (R := LocalsGrow) (fun _ _ _ => LocalsGrow.trans) h1 h2

/-- The local variable of a function. -/
def local? (t : SymbolTable) (function name : String) : Option (Symbol Unit) :=
  (t.locals? function).bind (·.find? name)

theorem local?_eq (t : SymbolTable) (function name : String) :
    t.local? function name = ((t.locals? function).getD (Table.empty .function)).find? name := by
  unfold local?
  cases t.locals? function <;> rfl

/-- The local tables of a function grow as its symbol does. -/
theorem Grows.locals? (h : t.Grows t') (function : String) :
    LocalsGrow (t.locals? function) (t'.locals? function) := by
  unfold SymbolTable.locals?
  cases hs : t.find? function with
  | some s =>
    obtain ⟨s', hs', hg⟩ := h.symbols hs
    rw [hs']
    exact hg.locals
  | none =>
    cases hs' : t'.find? function with
    | some s' => exact (h.fresh hs hs').locals
    | none => exact .refl none

theorem Grows.local? (h : t.Grows t') {function : String} {s : Symbol Unit}
    (hs : t.local? function name = some s) :
    ∃ s', t'.local? function name = some s' ∧ s.ty.subset s'.ty = true := by
  rw [local?_eq] at hs
  obtain ⟨s', hs', hg⟩ := (h.locals? function).grows.symbols hs
  exact ⟨s', by rw [local?_eq, hs'], hg.ty⟩

end SymbolTable

end Ifj22
