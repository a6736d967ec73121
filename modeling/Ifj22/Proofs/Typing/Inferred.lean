import Ifj22.Proofs.Typing.Returns
set_option autoImplicit false

/-!
# Typing: inferred return types

The type of a function without a declared one starts empty.  The walk over the body adds the type of
every return to it, and null at the end if it is still empty then; the rounds that follow add the
types of the returns again, and nothing else touches it.  So null is in the final type exactly if
nothing is ever returned or null is among what is returned.  The checker does not ask whether the
end of a body that has a return can be reached as well.
-/

namespace Ifj22

variable {b body body' : List Stmt} {s s' : Stmt} {c : Checker} {name : String}
  {values : List (Option Expr)} {params : List Param}

/-! ## The walk over a function -/

namespace Checker

open SymbolTable

variable {V : String → Prop} {name : String} {values : List (Option Expr)} {c c' c'' : Checker}

/-- The values, if the walk is in the function and its type is inferred. -/
def returnsIn (c : Checker) (name : String) (values : List (Option Expr)) : List (Option Expr) :=
  if c.openFunction = some name then values else []

/-- The walk has added the values to the type of the function, if it is in there and the type is
inferred. -/
structure Collects (name : String) (values : List (Option Expr)) (c c' : Checker) : Prop where
  absorbs : Absorbs name (c.returnsIn name values) c.table c'.table
  filled : c.returnsIn name values ≠ [] → Table.tyOf c'.table name ≠ .never

theorem Collects.of_same (hgrows : c.table.Grows c'.table)
    (h : Table.tyOf c'.table name = Table.tyOf c.table name) : c.Collects name [] c' := by
  have hnil : c.returnsIn name [] = [] := by
    unfold returnsIn
    split <;> rfl
  exact ⟨by rw [hnil]; exact .of_same hgrows h, fun hne => absurd hnil hne⟩

theorem Collects.trans {values' : List (Option Expr)} (h1 : c.Collects name values c')
    (hopen : c'.openFunction = c.openFunction) (h2 : c'.Collects name values' c'') :
    c.Collects name (values ++ values') c'' := by
  have happend : c.returnsIn name (values ++ values') =
      c.returnsIn name values ++ c'.returnsIn name values' := by
    unfold returnsIn
    rw [hopen]
    split <;> rfl
  refine ⟨by rw [happend]; exact h1.absorbs.trans h2.absorbs, fun hne hnever => ?_⟩
  by_cases hfirst : c.returnsIn name values = []
  · rw [happend, hfirst, List.nil_append] at hne
    exact h2.filled hne hnever
  · have hsub := h2.absorbs.grows.tyOf name
    rw [hnever] at hsub
    exact h1.filled hfirst (Ty.eq_never_of_subset hsub)

theorem collects_walked {es : List Expr} {vs : List (Ty × Expr)} (h : Expr.Walked c es vs c') :
    c.Collects name [] c' :=
  .of_same h.onward.table h.stays.1.agrees.tyOf

theorem collects_assigned (hready : c.Ready V) (hname : IsName name.toList) {target : String}
    (htarget : IsVarName target.toList) {ty : Ty} {u : Unit}
    (h : assigned target ty c = .ok u c') : c.Collects name [] c' := by
  obtain ⟨_, hwidens⟩ := assigned_widens h
  obtain ⟨hon, _⟩ := (checks_assigned hready.known target ty).of_ok h
  refine .of_same hon.table (hwidens.tyOf_of_ne fun _ heq => ?_)
  exact not_isVarName_of_isName hname (heq ▸ htarget)

theorem collects_returned (hready : c.Ready V) {ty : Option Ty} {value : Option Expr} {u : Unit}
    (h : returned ty c = .ok u c') (hty : ty.getD .null = returnTy c.env value)
    (hvalue : ty.getD .null ≠ .never)
    (hover : ∀ e, value = some e → e.Over c.vocabulary) : c.Collects name [value] c' := by
  obtain ⟨hon, _⟩ := (checks_returned ty).of_ok h
  obtain ⟨_, _, htable⟩ := returned_widens hready.known h
  by_cases hopen : c.openFunction = some name
  · have hscope := scope_of_openFunction hopen
    rw [hopen] at htable
    have htyOf := SymbolTable.Widens.tyOf htable
    have hreturns : c.returnsIn name [value] = [value] := if_pos hopen
    refine ⟨?_, fun _ => ?_⟩
    · rw [hreturns]
      refine .of_return hon.table ?_ ?_
      · intro e he
        have := hover e (List.mem_singleton.mp he).symm
        unfold Checker.vocabulary at this
        rwa [hscope] at this
      · rw [htyOf, hty, Checker.env, hscope]
    · rw [htyOf]
      exact Ty.union_ne_never _ hvalue
  · have hreturns : c.returnsIn name [value] = [] := if_neg hopen
    refine ⟨?_, fun hne => absurd hreturns hne⟩
    rw [hreturns]
    refine .of_same hon.table ?_
    split at htable
    · rename_i f hf
      exact htable.tyOf_of_ne fun _ heq => hopen (heq ▸ hf)
    · rw [htable]

end Checker

open Checker SymbolTable

section

variable {V : String → Prop} {name : String}

/-- Checking a statement adds its returns to the type of the function. -/
theorem Stmt.Walked.collects {c' : Checker} (hname : IsName name.toList)
    (h : Stmt.Walked c s s' c') (hready : c.Ready V) : c.Collects name s.returns c' := by
  induction h with
  | assign hx he _ h =>
    have hleads := leads_walked he hready
    exact (collects_walked he).trans hleads.openFunction
      (collects_assigned hleads.ready hname hx h)
  | expr he => exact collects_walked he
  | retNone h => exact collects_returned hready h rfl (by decide) nofun
  | @ret c c1 _ e v he hvoid h =>
    have hleads := leads_walked he hready
    refine (collects_walked he).trans hleads.openFunction (collects_returned hleads.ready h ?_
      (isValue_walked hready he hvoid).1 ?_)
    · show v.1 = e.infer c1.env
      rw [he.infer, he.stays.1.env]
    · rintro _ ⟨⟩
      exact he.known e (.head _)
  | nil => exact .of_same (.refl _) rfl
  | cons h _ ih ihrest =>
    obtain ⟨hleads, _⟩ := h.passes hready
    exact (ih hready).trans hleads.openFunction (ihrest hleads.ready)
  | ifThen he _ ih | whileLoop he _ ih =>
    have hleads := leads_walked he hready
    exact (collects_walked he).trans hleads.openFunction (ih hleads.ready)
  | ifElse he h _ ih ihother =>
    have hleads := leads_walked he hready
    obtain ⟨hleads2, _⟩ := h.passes hleads.ready
    have hfirst := (@collects_walked name _ _ _ _ he).trans hleads.openFunction (ih hleads.ready)
    exact hfirst.trans (hleads.trans hleads2).openFunction (ihother hleads2.ready)

/-! ## The walk over programs -/

/-- A statement of the top level leaves the type of a function alone, unless it is that function and
the type is inferred. -/
theorem Stmt.absorbs_other (hname : IsName name.toList) (hspelled : s.OverTop .spelled)
    {c' : Checker} (hready : c.Ready V) (hscope : c.scope = none)
    (hfunctions : FunctionsReady V c.table [s])
    (hother : ∀ params b, s ≠ .function name params none b) (h : s.check c = .ok s' c') :
    Absorbs name [] c.table c'.table := by
  have hgrows := (Stmt.passes_top hspelled hready hscope hfunctions h).1.table
  cases hspelled with
  | stmt hover =>
    have hreturns : c.returnsIn name s.returns = [] :=
      if_neg fun hopen => by cases (scope_of_openFunction hopen).symm.trans hscope
    exact hreturns ▸ ((Stmt.walked hover h).collects hname hready).absorbs
  | @function f params declared body hh hb =>
    have hne : declared = none → f ≠ name := fun hnone hf => hother params body (by rw [hnone, hf])
    obtain ⟨hknown, hopen⟩ := hfunctions _ _ _ _ (.head _)
    obtain ⟨body', c1, rfl, hbody, hleave⟩ := Stmt.walked_function hb h
    have hclosed : ({ c with enclosing := some ⟨f, declared, false⟩ } : Checker).openFunction ≠
        some name := by
      cases declared with
      | none => exact fun heq => hne rfl (Option.some.inj heq)
      | some ty => exact fun heq => by cases heq
    have hcollects := hbody.collects hname (hready.enter hknown hopen)
    have hsame := hcollects.absorbs.same (if_neg hclosed)
    refine .of_same hgrows ?_
    obtain ⟨_, ⟨hagrees, _⟩ | ⟨hnone, _, hwidens⟩⟩ := leave_widens hleave
    · exact hagrees.tyOf.trans hsame
    · exact (hwidens.tyOf_of_ne fun _ => hne hnone).trans hsame

theorem Stmt.absorbs_others (hname : IsName name.toList) (hspelled : ∀ s ∈ body, s.OverTop .spelled)
    (hother : ∀ params b, Stmt.function name params none b ∉ body) :
    ∀ {c c' : Checker} {body' : List Stmt}, c.Ready V → c.scope = none →
      FunctionsReady V c.table body → Stmt.checkList body c = .ok body' c' →
      Absorbs name [] c.table c'.table := by
  induction body with
  | nil =>
    intro c c' body' _ _ _ h
    cases h
    exact .of_same (.refl _) rfl
  | cons s rest ih =>
    intro c c' body' hready hscope hfunctions h
    obtain ⟨s', c1, hs, h⟩ := bind_eq_ok.mp h
    obtain ⟨rest', c2, hrest, h⟩ := bind_eq_ok.mp h
    cases h
    have hspelled1 := hspelled s (.head _)
    obtain ⟨hon, hready1, _⟩ := Stmt.passes_top hspelled1 hready hscope hfunctions.head hs
    have hfirst := Stmt.absorbs_other hname hspelled1 hready hscope hfunctions.head
      (fun params b heq => hother params b (heq ▸ (.head _))) hs
    exact hfirst.trans (ih (fun u hu => hspelled u (.tail s hu))
      (fun params b hmem => hother params b (.tail s hmem)) hready1 (hon.scope.trans hscope)
      (hfunctions.tail.grows hon.table) hrest)

end

namespace SymbolTable

/-- The type of the function admits null only if nothing is returned or null may be; and it does so
if nothing is. -/
structure Covered (t : SymbolTable) (name : String) (values : List (Option Expr)) : Prop where
  known : t.KnowsValues name values
  null : (Table.tyOf t name).contains .null = true → t.NullReturned name values
  empty : values = [] → (Table.tyOf t name).contains .null = true

/-- Adding the same values once more. -/
theorem Covered.absorbs {t t' : SymbolTable} {values' : List (Option Expr)}
    (h : t.Covered name values) (hsub : values' ⊆ values) (hstep : Absorbs name values' t t') :
    t'.Covered name values where
  known e he := hstep.grows.expr (h.known e he)
  null hnull := by
    obtain hold | ⟨value, hmem, hyields⟩ := hstep.null hnull
    · refine (h.null hold).imp id ?_
      rintro ⟨value, hmem, hyields⟩
      exact ⟨value, hmem, hstep.grows.yieldsNull h.known hmem hyields⟩
    · exact .inr ⟨value, hsub hmem, hyields⟩
  empty hnil := by
    rw [hstep.same (List.eq_nil_of_subset_nil (hnil ▸ hsub))]
    exact h.empty hnil

end SymbolTable

section

variable {V : String → Prop} {name : String}

/-- The walk over a function whose type is still empty: null is added at the end only if there was
no return. -/
theorem Stmt.covered_function (hname : IsName name.toList) (hspelled : ∀ s ∈ body, s.Over .spelled)
    {c' : Checker} (hready : c.Ready V) (hscope : c.scope = none)
    (hfunctions : FunctionsReady V c.table [.function name params none body])
    (hempty : Table.tyOf c.table name = .never)
    (h : (Stmt.function name params none body).check c = .ok s' c') :
    c'.table.Covered name (Stmt.returnsOf body) := by
  obtain ⟨hknown, hopen⟩ := hfunctions _ _ _ _ (.head _)
  obtain ⟨body', c1, rfl, hbody, hleave⟩ := Stmt.walked_function hspelled h
  obtain ⟨habsorbs, hfilled⟩ := hbody.collects hname (hready.enter hknown hopen)
  have hreturns : ({ c with enclosing := some ⟨name, none, false⟩ } : Checker).returnsIn name
      (Stmt.block body).returns = Stmt.returnsOf body := if_pos rfl
  rw [hreturns] at habsorbs hfilled
  have hgrows := ((checks_leave name none hscope habsorbs.grows).of_ok hleave).2
  obtain ⟨_, ⟨hagrees, hne⟩ | ⟨_, hstill, hwidens⟩⟩ := leave_widens hleave
  · refine ⟨fun e he => hgrows.expr (habsorbs.known e he), fun hnull => ?_, fun hnil => ?_⟩
    · rw [hagrees.tyOf] at hnull
      obtain hold | ⟨value, hmem, hyields⟩ := habsorbs.null hnull
      · rw [hempty] at hold
        cases hold
      · exact .inr ⟨value, hmem, hgrows.yieldsNull habsorbs.known hmem hyields⟩
    · obtain ⟨f, hf, _⟩ := hknown
      obtain ⟨f1, hf1, _⟩ := habsorbs.grows.symbols hf
      have hstill : Table.tyOf c1.table name = .never := (habsorbs.same hnil).trans hempty
      rw [tyOf_eq, varTy?_none, hf1] at hstill
      exact absurd (by rw [varTy?_none, hf1]; exact congrArg some hstill) (hne rfl)
  · have hnil : Stmt.returnsOf body = [] := by
      by_contra hne
      exact hfilled hne (by rw [tyOf_eq, hstill]; rfl)
    refine ⟨fun e he => ?_, fun _ => .inl hnil, fun _ => ?_⟩
    · rw [hnil] at he
      cases he
    · rw [hwidens.tyOf, Ty.contains_null_union]
      exact Bool.or_true _

/-- The walk over a program that has the function. -/
theorem Stmt.covered_toplevel (hname : IsName name.toList)
    (hspelled : ∀ s ∈ body, s.OverTop .spelled) (hnodup : (body.filterMap Stmt.functionName?).Nodup)
    (hmem : Stmt.function name params none b ∈ body) :
    ∀ {c c' : Checker} {body' : List Stmt}, c.Ready V → c.scope = none →
      FunctionsReady V c.table body → Table.tyOf c.table name = .never →
      Stmt.checkList body c = .ok body' c' → c'.table.Covered name (Stmt.returnsOf b) := by
  induction body with
  | nil => cases hmem
  | cons s rest ih =>
    intro c c' body' hready hscope hfunctions hempty h
    obtain ⟨s', c1, hs, h⟩ := bind_eq_ok.mp h
    obtain ⟨rest', c2, hrest, h⟩ := bind_eq_ok.mp h
    cases h
    have hspelled1 := hspelled s (.head _)
    have hspelledRest : ∀ u ∈ rest, u.OverTop .spelled := fun u hu => hspelled u (.tail s hu)
    obtain ⟨hon, hready1, _⟩ := Stmt.passes_top hspelled1 hready hscope hfunctions.head hs
    have hscope1 := hon.scope.trans hscope
    have hfunctions1 := hfunctions.tail.grows hon.table
    obtain rfl | hlater := List.mem_cons.mp hmem
    · have hother : ∀ params b, Stmt.function name params none b ∉ rest := fun params b hmem =>
        (List.nodup_cons.mp hnodup).1 (List.mem_filterMap.mpr ⟨_, hmem, rfl⟩)
      have hcovered :=
        Stmt.covered_function hname hspelled1.inside hready hscope hfunctions.head hempty hs
      exact hcovered.absorbs (List.nil_subset _)
        (Stmt.absorbs_others hname hspelledRest hother hready1 hscope1 hfunctions1 hrest)
    · have hother : ∀ params b, s ≠ .function name params none b := by
        rintro params b rfl
        exact (List.nodup_cons.mp hnodup).1 (List.mem_filterMap.mpr ⟨_, hlater, rfl⟩)
      have hsame :=
        (Stmt.absorbs_other hname hspelled1 hready hscope hfunctions.head hother hs).same rfl
      have hnodup1 : (rest.filterMap Stmt.functionName?).Nodup :=
        hnodup.sublist ((List.sublist_cons_self s rest).filterMap _)
      exact ih hspelledRest hnodup1 hlater hready1 hscope1 hfunctions1 (hsame.trans hempty) hrest

end

/-! ## Rounds -/

namespace SymbolTable

variable {t : SymbolTable} {name : String}

theorem widens_widenSymbol {s : Symbol (Option LocalTable)} (hs : t.find? name = some s) (ty : Ty) :
    t.Widens none name ty ((widenSymbol name ty).run t).2 := by
  show t.Widens none name ty (if t.lacksTy name ty then t.includeTy name ty else t)
  cases hlacks : t.lacksTy name ty with
  | true => exact widens_includeTy hs ty
  | false =>
    intro sc x
    rw [if_neg Bool.false_ne_true]
    split
    · rename_i hsame
      obtain ⟨rfl, rfl⟩ := hsame
      unfold Table.lacksTy at hlacks
      rw [hs] at hlacks
      have hsub : ty.subset s.ty = true := by simpa using hlacks
      rw [varTy?_none, hs, Option.map_some, Option.getD_some, Ty.union_eq_left hsub]
    · rfl

theorem tyOf_widenLocal (function target : String) (ty : Ty) :
    Table.tyOf ((widenLocal function target ty).run t).2 name = Table.tyOf t name := by
  have hrun : ((widenLocal function target ty).run t).2 =
      (t.modifyLocals? function fun l =>
        if ((t.locals? function).map (·.lacksTy target ty)).getD false then l.includeTy target ty
        else l).getD t := rfl
  rw [hrun]
  cases hmod : t.modifyLocals? function _ with
  | none => rfl
  | some t' => rw [tyOf_eq, tyOf_eq, Option.getD_some, varTy?_modifyLocals? hmod]

end SymbolTable

section

variable {name : String}

theorem Stmt.Over.mem_returns {V : Vocabulary} {scope : Option SettleScope} (h : s.Over V) :
    ∀ u ∈ s.stores scope, ∀ value, u = .ret scope value → value ∈ s.returns := by
  induction h with
  | assign => exact List.forall_mem_singleton.mpr nofun
  | expr => exact fun _ hu => by cases hu
  | ret =>
    refine List.forall_mem_singleton.mpr fun value heq => ?_
    cases heq
    exact List.mem_singleton_self _
  | block _ ih =>
    refine Stmt.forall_storesOf.mpr fun s hs u hu value hvalue => ?_
    exact Stmt.mem_returnsOf.mpr ⟨s, hs, ih s hs u hu value hvalue⟩
  | @ifElse _ _ elseBody _ _ _ iht ihe =>
    refine Stmt.forall_stores_ifElse.mpr ⟨fun s hs u hu value hvalue => ?_, ?_⟩
    · have hmem := Stmt.mem_returnsOf.mpr ⟨s, hs, iht s hs u hu value hvalue⟩
      cases elseBody with
      | none => exact hmem
      | some elseBody => exact List.mem_append_left _ hmem
    · rintro elseBody rfl s hs u hu value hvalue
      have hmem := Stmt.mem_returnsOf.mpr ⟨s, hs, ihe elseBody rfl s hs u hu value hvalue⟩
      exact List.mem_append_right _ hmem
  | whileLoop _ _ ih =>
    refine Stmt.forall_storesOf.mpr fun s hs u hu value hvalue => ?_
    exact Stmt.mem_returnsOf.mpr ⟨s, hs, ih s hs u hu value hvalue⟩

/-- A store adds its value to the type of the function, if that is a return of it. -/
theorem Store.absorbs {u : Store} (hname : IsName name.toList) (hspelled : u.stmt.Over .spelled)
    {t : SymbolTable} (hknown : u.Known t)
    (hown : ∀ value, u = .ret (some ⟨name, true⟩) value → value ∈ values) :
    ∃ values', values' ⊆ values ∧ Absorbs name values' t (u.settle.run t).2 := by
  have hgrows := (round_store hknown).1.grows
  obtain ⟨hscope, hover⟩ := hknown
  cases u with
  | assign scope target value =>
    refine ⟨[], List.nil_subset _, .of_same hgrows ?_⟩
    cases scope with
    | none =>
      cases hspelled with
      | assign htarget _ =>
        cases hover with
        | assign hvar _ =>
          obtain ⟨s, hs⟩ := hvar
          rw [Store.run_assign]
          refine (widens_widenSymbol hs _).tyOf_of_ne fun _ heq => ?_
          exact not_isVarName_of_isName hname (heq ▸ htarget)
    | some f =>
      rw [Store.run_assign_inside]
      exact tyOf_widenLocal f.name target _
  | ret scope value =>
    by_cases hinf : ∃ f, scope = some ⟨f, true⟩
    · obtain ⟨f, rfl⟩ := hinf
      obtain ⟨s, hs, _⟩ := hscope _ rfl
      have hwidens := widens_widenSymbol hs (returnTy (TypeEnv.ofScope t (some f)) value)
      rw [Store.run_ret_inferred rfl] at hgrows ⊢
      by_cases hf : f = name
      · subst hf
        refine ⟨[value], List.cons_subset.mpr ⟨hown value rfl, List.nil_subset _⟩,
          .of_return hgrows (fun e he => ?_) hwidens.tyOf⟩
        cases hover with
        | ret hover => exact hover e (List.mem_singleton.mp he).symm
      · exact ⟨[], List.nil_subset _, .of_same hgrows (hwidens.tyOf_of_ne fun _ => hf)⟩
    · have hdeclared : ∀ f, scope = some f → f.inferred = false := fun f hf =>
        Bool.eq_false_iff.mpr fun h => hinf ⟨f.name, by rw [hf, ← h]⟩
      rw [Store.run_ret_declared hdeclared]
      exact ⟨[], List.nil_subset _, .of_same (.refl t) rfl⟩

theorem Store.absorbs_all {us : List Store} (hname : IsName name.toList)
    (hspelled : ∀ u ∈ us, u.stmt.Over .spelled)
    (hown : ∀ u ∈ us, ∀ value, u = .ret (some ⟨name, true⟩) value → value ∈ values) :
    ∀ t : SymbolTable, (∀ u ∈ us, u.Known t) → ∃ values', values' ⊆ values ∧
      Absorbs name values' t ((anyChange Store.settle us).run t).2 := by
  induction us with
  | nil => exact fun t _ => ⟨[], List.nil_subset _, .of_same (.refl t) rfl⟩
  | cons u us ih =>
    intro t hknown
    obtain ⟨hspelledu, hspelled⟩ := List.forall_mem_cons.mp hspelled
    obtain ⟨hownu, hown⟩ := List.forall_mem_cons.mp hown
    obtain ⟨hknownu, hknown⟩ := List.forall_mem_cons.mp hknown
    obtain ⟨first, hsub, habsorbs⟩ := Store.absorbs hname hspelledu hknownu hownu
    obtain ⟨others, hsub', habsorbs'⟩ :=
      ih hspelled hown _ fun v hv => habsorbs.grows.store (hknown v hv)
    exact ⟨first ++ others, List.append_subset.mpr ⟨hsub, hsub'⟩, habsorbs.trans habsorbs'⟩

/-- A round over a program adds to the type of the function what the function returns, if the type
is inferred. -/
theorem Stmt.absorbs_round (hname : IsName name.toList) (hspelled : ∀ s ∈ body, s.OverTop .spelled)
    (hown : ∀ params b, Stmt.function name params none b ∈ body → Stmt.returnsOf b ⊆ values)
    (t : SymbolTable) (hover : ∀ s ∈ body, s.OverTop t.lexicon) :
    ∃ values', values' ⊆ values ∧ Absorbs name values' t ((Stmt.settleList none body).run t).2 := by
  rw [Stmt.settleList_eq_stores]
  refine Store.absorbs_all hname (Stmt.spelled_stores hspelled) ?_ t (Stmt.known_stores hover)
  refine Stmt.forall_storesOf.mpr fun s hs u hu value hvalue => ?_
  cases hspelled s hs with
  | stmt h =>
    have hscope := (h.stores u hu).1
    rw [hvalue] at hscope
    cases hscope
  | @function f params declared b _ hb =>
    have hreturns : ∀ u ∈ (Stmt.block b).stores (some ⟨f, declared.isNone⟩), ∀ value,
        u = .ret (some ⟨f, declared.isNone⟩) value → value ∈ Stmt.returnsOf b :=
      (Stmt.Over.block hb).mem_returns
    have hscope := ((Stmt.Over.block hb).stores u hu).1
    rw [hvalue] at hscope
    simp only [Store.scope, Option.some.injEq, SettleScope.mk.injEq] at hscope
    obtain ⟨rfl, hdeclared⟩ := hscope
    obtain rfl := Option.isNone_iff_eq_none.mp hdeclared.symm
    exact hown params b hs (hreturns u hu value hvalue)

theorem Stmt.covered_rounds (hname : IsName name.toList) (hspelled : ∀ s ∈ body, s.OverTop .spelled)
    (hown : ∀ params b, Stmt.function name params none b ∈ body → Stmt.returnsOf b ⊆ values) :
    ∀ (fuel : Nat) (t : SymbolTable), (∀ s ∈ body, s.OverTop t.lexicon) → t.Covered name values →
      (Stmt.settleRounds body fuel t).Covered name values := by
  intro fuel
  induction fuel with
  | zero => exact fun _ _ h => h
  | succ fuel ih =>
    intro t hover hcovered
    have hgrows := (rounds_toplevel t hover).1.grows
    obtain ⟨_, hsub, habsorbs⟩ := Stmt.absorbs_round hname hspelled hown t hover
    have hround := hcovered.absorbs hsub habsorbs
    rw [Stmt.settleRounds]
    generalize (Stmt.settleList none body).run t = result at hgrows hround
    obtain ⟨changed, t'⟩ := result
    cases changed with
    | false => exact hround
    | true => exact ih t' (fun s hs => hgrows.toplevel (hover s hs)) hround

end

/-! ## Inferred types -/

/-- What is returned fits the inferred type. -/
theorem Stmt.Settled.returns {t : SymbolTable} {scope : Option SettleScope} (h : s.Settled t scope)
    (hscope : scope = some ⟨name, true⟩) {value : Option Expr} (hvalue : value ∈ s.returns)
    {f : Symbol (Option LocalTable)} (hf : t.find? name = some f) :
    (returnTy (TypeEnv.ofScope t (some name)) value).subset f.ty = true := by
  induction h with
  | assign => cases hvalue
  | expr => cases hvalue
  | ret h =>
    rw [List.mem_singleton.mp hvalue]
    exact h _ hscope rfl f hf
  | block _ ih =>
    obtain ⟨s, hs, hvalue⟩ := Stmt.mem_returnsOf.mp hvalue
    exact ih s hs hscope hvalue
  | @ifElse scope cond thenBody elseBody _ _ iht ihe =>
    cases elseBody with
    | none =>
      obtain ⟨s, hs, hvalue⟩ := Stmt.mem_returnsOf.mp hvalue
      exact iht s hs hscope hvalue
    | some elseBody =>
      obtain hvalue | hvalue := List.mem_append.mp hvalue <;>
        obtain ⟨s, hs, hvalue⟩ := Stmt.mem_returnsOf.mp hvalue
      · exact iht s hs hscope hvalue
      · exact ihe elseBody rfl s hs hscope hvalue
  | whileLoop _ ih =>
    obtain ⟨s, hs, hvalue⟩ := Stmt.mem_returnsOf.mp hvalue
    exact ih s hs hscope hvalue
  | function _ _ => cases hvalue

/-- No two functions of a program have the same name. -/
theorem Stmt.eq_of_functionName? (hnodup : (body.filterMap Stmt.functionName?).Nodup)
    (hs : s ∈ body) (hs' : s' ∈ body) (hname : s.functionName? = some name)
    (hname' : s'.functionName? = some name) : s = s' := by
  induction body with
  | nil => cases hs
  | cons u rest ih =>
    have hrest : (rest.filterMap Stmt.functionName?).Nodup :=
      hnodup.sublist ((List.sublist_cons_self u rest).filterMap _)
    have hclash : ∀ {v}, v ∈ rest → v.functionName? = some name → u.functionName? ≠ some name := by
      intro v hv hvname huname
      rw [List.filterMap_cons, huname] at hnodup
      exact (List.nodup_cons.mp hnodup).1 (List.mem_filterMap.mpr ⟨v, hv, hvname⟩)
    obtain rfl | hrest1 := List.mem_cons.mp hs <;> obtain rfl | hrest2 := List.mem_cons.mp hs'
    · rfl
    · exact absurd hname (hclash hrest2 hname')
    · exact absurd hname' (hclash hrest1 hname)
    · exact ih hrest hrest1 hrest2

/-- After the walk the type of every function without a declared type is covered. -/
theorem Stmt.checkProgram_covered (hspelled : ∀ s ∈ body, s.OverTop .spelled)
    (hrun : Stmt.checkProgram body (Checker.start .builtins) = .ok body' c)
    (hmem : Stmt.function name params none b ∈ body) (hname : IsName name.toList) :
    c.table.Covered name (Stmt.returnsOf b) := by
  obtain ⟨V, c1, hhoists, hready, hscope, hfunctions, hlist⟩ :=
    Stmt.checkProgram_ready hspelled hrun
  obtain ⟨s, hs, _, _, _, hty, _⟩ := (hhoists.head name params none b hmem).symbol
  have hempty : Table.tyOf c1.table name = .never := by
    rw [tyOf_eq, varTy?_none, hs]
    exact hty
  exact Stmt.covered_toplevel hname hspelled hhoists.nodup hmem hready hscope hfunctions hempty
    hlist

/-- The body of a function and what it is checked into. -/
theorem Stmt.checkProgram_function (hspelled : ∀ s ∈ body, s.OverTop .spelled)
    (hrun : Stmt.checkProgram body (Checker.start .builtins) = .ok body' c) {declared : Option Ty}
    (hmem : Stmt.function name params declared b ∈ body) :
    ∃ b' P, Stmt.function name params declared b' ∈ body' ∧
      List.Forall₂ (Option.Rel (Expr.Cast P)) (Stmt.returnsOf b) (Stmt.returnsOf b') := by
  obtain ⟨s', hs', hcast⟩ :=
    exists_of_mem_left (Stmt.checkProgram_cast hspelled hrun (.refl _)) hmem
  cases hcast with
  | stmt h => cases h
  | function h => exact ⟨_, _, hs', Stmt.Cast.returnsOf (fun _ _ => Stmt.Cast.returns) h⟩

/-- Whether null is in the type of a function of a checked program. -/
theorem Stmt.checkProgram_null (hspelled : ∀ s ∈ body, s.OverTop .spelled)
    (hrun : Stmt.checkProgram body (Checker.start .builtins) = .ok body' c)
    (hmem : Stmt.function name params none b ∈ body) :
    let t := Stmt.settleRounds body' (6 * c.table.symbolCount + 1) c.table
    ∃ f, t.find? name = some f ∧
      (f.ty.contains .null = true ↔ t.NullReturned name (Stmt.returnsOf b)) := by
  intro t
  obtain ⟨⟨u, hhoists, hgrows1⟩, haccepts, hknown, hgrows2, hsettled⟩ := Stmt.checkedInto hspelled hrun
  have hname : IsName name.toList := (hspelled _ hmem).head.1
  obtain ⟨b', P, hmem', hcast⟩ := Stmt.checkProgram_function hspelled hrun hmem
  have hspelled' := overTop_of_accepts haccepts hspelled
  have hcovered : c.table.Covered name (Stmt.returnsOf b') := by
    obtain ⟨_, hnull, hempty⟩ := Stmt.checkProgram_covered hspelled hrun hmem hname
    refine ⟨fun e he => ?_, fun h => (nullReturned_cast _ _ hcast).mpr (hnull h), fun hnil => hempty ?_⟩
    · obtain ⟨s, hs, he⟩ := Stmt.mem_returnsOf.mp he
      exact ((hknown _ hmem').inside s hs).returns he
    · rw [hnil] at hcast
      exact List.forall₂_nil_right_iff.mp hcast
  have hown : ∀ params' b'', Stmt.function name params' none b'' ∈ body' →
      Stmt.returnsOf b'' ⊆ Stmt.returnsOf b' := by
    intro params' b'' hother
    cases Stmt.eq_of_functionName? (hhoists.accepts haccepts).nodup hother hmem' rfl rfl
    exact List.Subset.refl _
  have hfinal := Stmt.covered_rounds hname hspelled' hown (6 * c.table.symbolCount + 1) c.table
    hknown hcovered
  obtain ⟨s, hs, _⟩ := (hhoists.head name params none b hmem).symbol
  obtain ⟨f, hf, _⟩ := (hgrows1.trans hgrows2).symbols hs
  have hty : Table.tyOf t name = f.ty := by
    rw [tyOf_eq, varTy?_none, hf]
    rfl
  refine ⟨f, hf, ?_⟩
  rw [← nullReturned_cast _ _ hcast, ← hty]
  refine ⟨hfinal.null, ?_⟩
  rintro (hnil | ⟨value, hvalue, hnull⟩)
  · exact hfinal.empty hnil
  · rw [hty]
    cases hsettled _ hmem' with
    | function hb =>
      obtain ⟨s, hs, hvalue⟩ := Stmt.mem_returnsOf.mp hvalue
      exact Ty.subset_trans hnull ((hb s hs).returns rfl hvalue hf)

/-- The inferred type of a function admits null exactly if the function has no return, so that it
falls off its end, or one of its returns may yield null.  Whether the end of a body that has a return
can be reached makes no difference. -/
theorem analyze_inferred_null {simplify : Bool} {source : String} {checked : Checked}
    (h : analyze simplify source = .ok checked) :
    ∃ program tree, parseSource source = .ok program ∧ program.tree? = some tree ∧
      ∀ name params body, Stmt.function name params none body ∈ tree →
        (Stmt.returnsOf body = [] → Stmt.fallsOff body = true) ∧
        ∃ f, checked.table.find? name = some f ∧ (f.ty.contains .null = true ↔
          Stmt.returnsOf body = [] ∨ ∃ value ∈ Stmt.returnsOf body,
            (returnTy (.inside checked.table name) value).contains .null = true) := by
  obtain ⟨plain, hplain, htable⟩ := analyze_table h
  obtain ⟨program, tree, body, c, hparse, hholds, hspelled, hrun, hfrom⟩ := analyze_eq_ok hplain
  refine ⟨program, tree, hparse, hholds.tree?_eq, fun name params b hmem => ?_⟩
  rw [← htable, hfrom.table]
  exact ⟨Stmt.fallsOff_of_returnsOf_nil, Stmt.checkProgram_null hspelled hrun hmem⟩

/-- The name and the body of a function without a declared type. -/
def Stmt.inferred? : Stmt → Option (String × List Stmt)
  | .function name _ none body => some (name, body)
  | _ => none

theorem Stmt.of_inferred? {s : Stmt} {f : String × List Stmt} (h : s.inferred? = some f) :
    ∃ params, s = .function f.1 params none f.2 := by
  unfold Stmt.inferred? at h
  split at h
  · cases h
    exact ⟨_, rfl⟩
  · cases h

/-- A function that returns an int in one branch and falls off its end in the other has the type
int. -/
theorem analyze_inferred_null_branch :
    let source := "<?php function f(int $x) { if ($x) { return 1; } }"
    ∃ checked, analyze false source = .ok checked ∧ Table.tyOf checked.table "f" = .int ∧
      ∃ program tree, parseSource source = .ok program ∧ program.tree? = some tree ∧
        (∃ params body, Stmt.function "f" params none body ∈ tree ∧ Stmt.fallsOff body = true) ∧
        ∀ name params body, Stmt.function name params none body ∈ tree →
          (Stmt.returnsOf body = [] → Stmt.fallsOff body = true) ∧
          ∃ f, checked.table.find? name = some f ∧ (f.ty.contains .null = true ↔
            Stmt.returnsOf body = [] ∨ ∃ value ∈ Stmt.returnsOf body,
              (returnTy (.inside checked.table name) value).contains .null = true) := by
  intro source
  obtain ⟨checked, h, hty⟩ : ∃ checked, analyze false source = .ok checked ∧
      Table.tyOf checked.table "f" = .int := by decide +kernel
  obtain ⟨program, hparse, tree, hprogram, s, hs, ⟨f, body⟩, hf, rfl, hfalls⟩ : ∃ program,
      parseSource source = .ok program ∧ ∃ tree, program.tree? = some tree ∧
        ∃ s ∈ tree, ∃ f, s.inferred? = some f ∧ f.1 = "f" ∧ Stmt.fallsOff f.2 = true := by
    decide +kernel
  obtain ⟨params, rfl⟩ := Stmt.of_inferred? hf
  obtain ⟨program', tree', hparse', hprogram', hall⟩ := analyze_inferred_null h
  cases hparse.symm.trans hparse'
  cases hprogram.symm.trans hprogram'
  exact ⟨checked, h, hty, program, tree, hparse, hprogram, ⟨params, body, hs, hfalls⟩, hall⟩

end Ifj22
