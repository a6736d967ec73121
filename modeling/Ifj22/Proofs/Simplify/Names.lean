import Ifj22.Proofs.Simplify.Pass
import Ifj22.Proofs.Typing.Program
set_option autoImplicit false

/-!
# Simplify: the names of a simplified program

Simplification puts constants in place of names and drops branches.  It adds no name, and it keeps
the functions of a program in their order.
-/

namespace Ifj22

variable {V : Vocabulary} {e : Expr} {P : Stmt → Prop} {body body' : List Stmt} {s : Stmt}
  {L : Lexicon} {β : Type}

/-! ## Expressions -/

theorem Expr.over_getD (h : e.Over V) (folded : Option Constant) :
    ((folded.map Expr.constant).getD e).Over V := by
  cases folded with
  | none => exact h
  | some c => exact .constant c

theorem Expr.Over.fold (h : e.Over V) : e.fold.Over V := by
  induction h with
  | constant c => exact .constant c
  | var h => exact .var h
  | binary _ _ ihl ihr => exact over_getD (.binary ihl ihr) _
  | unary _ ih => exact over_getD (.unary ih) _
  | @call name args h _ ih =>
    rw [Expr.fold, Expr.foldAll_eq]
    refine .call (by rwa [List.length_map]) fun e he => ?_
    obtain ⟨arg, harg, rfl⟩ := List.mem_map.mp he
    exact ih arg harg

theorem Expr.Over.replace (h : e.Over V) (x : String) (c : Constant) : (e.replace x c).Over V := by
  induction h with
  | constant k => exact .constant k
  | @var name h =>
    rw [Expr.replace]
    split
    · exact .constant c
    · exact .var h
  | binary _ _ ihl ihr => exact .binary ihl ihr
  | unary _ ih => exact .unary ih
  | @call name args h _ ih =>
    rw [Expr.replace, Expr.replaceAll_eq]
    refine .call (by rwa [List.length_map]) fun e he => ?_
    obtain ⟨arg, harg, rfl⟩ := List.mem_map.mp he
    exact ih arg harg

/-! ## Statements -/

namespace Stmt

theorem forall_replaceAll {x : String} {c : Constant} (h : ∀ s ∈ body, P (s.replace x c)) :
    ∀ s ∈ replaceAll x c body, P s := by
  rw [replaceAll_eq]
  exact List.forall_mem_map.mpr h

/-- Spreading leaves a statement or spreads over it. -/
theorem forall_spreadAll {x : String} {c : Constant} (h : ∀ s ∈ body, P s)
    (hspread : ∀ s ∈ body, P (s.spread x c)) : ∀ s ∈ spreadAll x c body, P s := by
  induction body with
  | nil => exact h
  | cons s rest ih =>
    obtain ⟨_, hrest⟩ := List.forall_mem_cons.mp h
    obtain ⟨hs, hspread⟩ := List.forall_mem_cons.mp hspread
    refine List.forall_mem_cons.mpr ⟨hs, ?_⟩
    split
    · exact hrest
    · exact ih hrest hspread

variable {V : Vocabulary}

theorem over_ret_map {value : Option Expr} {f : Expr → Expr} (hf : ∀ e : Expr, e.Over V → (f e).Over V)
    (h : ∀ e, value = some e → e.Over V) : (Stmt.ret (value.map f)).Over V := by
  refine .ret fun e he => ?_
  obtain ⟨v, hv, rfl⟩ := Option.map_eq_some_iff.mp he
  exact hf v (h v hv)

theorem Over.replace (h : s.Over V) (x : String) (c : Constant) : (s.replace x c).Over V := by
  induction h with
  | assign ht hv => exact .assign ht (hv.replace x c)
  | expr h => exact .expr (h.replace x c)
  | ret h => exact over_ret_map (fun _ he => he.replace x c) h
  | block _ ih => exact .block (forall_replaceAll ih)
  | @ifElse _ _ elseBody hc _ _ iht ihe =>
    cases elseBody with
    | none => exact .ifElse (hc.replace x c) (forall_replaceAll iht) (by rintro _ ⟨⟩)
    | some elseBody =>
      refine .ifElse (hc.replace x c) (forall_replaceAll iht) ?_
      rintro _ ⟨⟩
      exact forall_replaceAll (ihe _ rfl)
  | whileLoop hc _ ih => exact .whileLoop (hc.replace x c) (forall_replaceAll ih)

theorem Over.spread (h : s.Over V) (x : String) (c : Constant) : (s.spread x c).Over V := by
  induction h with
  | assign ht hv => exact .assign ht (hv.replace x c)
  | expr h => exact .expr (h.replace x c)
  | ret h => exact over_ret_map (fun _ he => he.replace x c) h
  | block hb ih => exact .block (forall_spreadAll hb ih)
  | @ifElse _ _ elseBody hc ht he iht ihe =>
    cases elseBody with
    | none => exact .ifElse (hc.replace x c) (forall_spreadAll ht iht) (by rintro _ ⟨⟩)
    | some elseBody =>
      refine .ifElse (hc.replace x c) (forall_spreadAll ht iht) ?_
      rintro _ ⟨⟩
      exact forall_spreadAll (he _ rfl) (ihe _ rfl)
  | whileLoop hc hb _ =>
    rw [Stmt.spread]
    split
    · exact .whileLoop hc hb
    · exact .whileLoop (hc.replace x c) (forall_replaceAll fun s hs => (hb s hs).replace x c)

theorem OverTop.spread (h : s.OverTop L) (x : String) (c : Constant) :
    (s.spread x c).OverTop L := by
  cases h with
  | stmt h => exact .stmt (h.spread x c)
  | function hh hb => exact .function hh hb

theorem forall_spreadBehind {later : List Stmt} (h : ∀ s ∈ later, s.OverTop L) (s : Stmt) :
    ∀ u ∈ spreadBehind s later, u.OverTop L := by
  unfold spreadBehind
  split
  · exact forall_spreadAll h fun u hu => (h u hu).spread _ _
  · exact h

theorem functionName?_spread (s : Stmt) (x : String) (c : Constant) :
    (s.spread x c).functionName? = s.functionName? := by
  cases s with
  | ifElse cond thenBody elseBody => cases elseBody <;> rfl
  | whileLoop cond body =>
    rw [Stmt.spread]
    split <;> rfl
  | _ => rfl

/-- What spreading does not change in any statement, it does not change in a list. -/
theorem filterMap_spreadBehind {f : Stmt → Option β} (hf : ∀ s x c, f (s.spread x c) = f s)
    (s : Stmt) (later : List Stmt) : (spreadBehind s later).filterMap f = later.filterMap f := by
  unfold spreadBehind
  split
  · rename_i x c _
    induction later with
    | nil => rfl
    | cons u rest ih =>
      rw [spreadAll, List.filterMap_cons, List.filterMap_cons, hf]
      by_cases hw : u.writes x
      · rw [if_pos hw]
      · rw [if_neg hw, ih]
  · rfl

theorem findSome?_spreadBehind {f : Stmt → Option β} (hf : ∀ s x c, f (s.spread x c) = f s)
    (s : Stmt) (later : List Stmt) : (spreadBehind s later).findSome? f = later.findSome? f := by
  rw [← List.head?_filterMap, ← List.head?_filterMap, filterMap_spreadBehind hf]

end Stmt

/-! ## Passes -/

/-- The lexicon of statements without functions. -/
def Lexicon.flat (V : Vocabulary) : Lexicon where
  toplevel := V
  head _ _ _ := False
  inside _ := V

theorem Stmt.overTop_flat : s.OverTop (.flat V) ↔ s.Over V := by
  constructor
  · rintro (h | ⟨⟨⟩, _⟩)
    exact h
  · exact fun h => .stmt h

theorem Stmt.forall_flat (h : ∀ {L : Lexicon}, (∀ s ∈ body, s.OverTop L) → ∀ s ∈ body', s.OverTop L)
    (hbody : ∀ s ∈ body, s.Over V) : ∀ s ∈ body', s.Over V := by
  intro s hs
  exact overTop_flat.mp (h (fun u hu => overTop_flat.mpr (hbody u hu)) s hs)

theorem Stmt.forall_getD {body : Option (List Stmt)} (h : ∀ b, body = some b → ∀ s ∈ b, P s) :
    ∀ s ∈ body.getD [], P s := by
  cases body with
  | none => exact List.forall_mem_nil P
  | some b => exact h b rfl

open Stmt (forall_flat forall_getD)

/-- A pass adds no name. -/
theorem Sweeps.overTop (h : Sweeps body body') :
    ∀ {L : Lexicon}, (∀ s ∈ body, s.OverTop L) → ∀ s ∈ body', s.OverTop L := by
  -- Below the top level the same statement is used, with the lexicon that has no functions.
  induction h with
  | nil => exact fun h => h
  | assign _ ih =>
    intro L h
    obtain ⟨⟨hs⟩, hlater⟩ := List.forall_mem_cons.mp h
    cases hs with
    | assign ht hv =>
      exact List.forall_mem_cons.mpr
        ⟨.stmt (.assign ht hv.fold), ih (Stmt.forall_spreadBehind hlater _)⟩
  | expr _ ih =>
    intro L h
    obtain ⟨⟨hs⟩, hlater⟩ := List.forall_mem_cons.mp h
    cases hs with
    | expr hv => exact List.forall_mem_cons.mpr ⟨.stmt (.expr hv.fold), ih hlater⟩
  | ret _ ih =>
    intro L h
    obtain ⟨⟨hs⟩, hlater⟩ := List.forall_mem_cons.mp h
    cases hs with
    | ret hv =>
      exact List.forall_mem_cons.mpr
        ⟨.stmt (Stmt.over_ret_map (fun _ he => he.fold) hv), ih hlater⟩
  | block _ _ ihb ih =>
    intro L h
    obtain ⟨⟨hs⟩, hlater⟩ := List.forall_mem_cons.mp h
    cases hs with
    | block hb => exact List.forall_mem_cons.mpr ⟨.stmt (.block (forall_flat ihb hb)), ih hlater⟩
  | @taken _ thenBody elseBody b _ _ _ _ _ _ ihb ih =>
    intro L h
    obtain ⟨⟨hs⟩, hlater⟩ := List.forall_mem_cons.mp h
    cases hs with
    | ifElse hc ht he =>
      have hbranch : ∀ s ∈ (if b then thenBody else elseBody.getD []), s.Over L.toplevel := by
        cases b with
        | true => exact ht
        | false => exact forall_getD he
      exact List.forall_mem_cons.mpr ⟨.stmt (.block (forall_flat ihb hbranch)), ih hlater⟩
  | @ifElse _ _ _ elseBody elseBody' _ _ _ _ hsome _ _ iht ihe ih =>
    intro L h
    obtain ⟨⟨hs⟩, hlater⟩ := List.forall_mem_cons.mp h
    cases hs with
    | ifElse hc ht he =>
      refine List.forall_mem_cons.mpr
        ⟨.stmt (.ifElse hc.fold (forall_flat iht ht) fun b hb => ?_), ih hlater⟩
      subst hb
      exact forall_flat ihe (forall_getD he)
  | skipped _ _ ih =>
    intro L h
    obtain ⟨_, hlater⟩ := List.forall_mem_cons.mp h
    exact List.forall_mem_cons.mpr ⟨.stmt (.block (List.forall_mem_nil _)), ih hlater⟩
  | whileLoop _ _ _ ihb ih =>
    intro L h
    obtain ⟨⟨hs⟩, hlater⟩ := List.forall_mem_cons.mp h
    cases hs with
    | whileLoop hc hb =>
      exact List.forall_mem_cons.mpr
        ⟨.stmt (.whileLoop hc.fold (forall_flat ihb hb)), ih hlater⟩
  | function _ _ ihb ih =>
    intro L h
    obtain ⟨hs, hlater⟩ := List.forall_mem_cons.mp h
    refine List.forall_mem_cons.mpr ⟨?_, ih hlater⟩
    cases hs with
    | stmt hs => cases hs
    | function hh hb => exact .function hh (forall_flat ihb hb)

/-- A pass keeps the functions. -/
theorem Sweeps.functionNames (h : Sweeps body body') :
    body'.filterMap Stmt.functionName? = body.filterMap Stmt.functionName? := by
  induction h with
  | nil => rfl
  | assign _ ih => exact ih.trans (Stmt.filterMap_spreadBehind Stmt.functionName?_spread _ _)
  | expr _ ih => exact ih
  | ret _ ih => exact ih
  | block _ _ _ ih => exact ih
  | taken _ _ _ _ ih => exact ih
  | ifElse _ _ _ _ _ _ _ ih => exact ih
  | skipped _ _ ih => exact ih
  | whileLoop _ _ _ _ ih => exact ih
  | @function name _ _ _ _ _ _ _ _ _ ih => exact congrArg (name :: ·) ih

theorem Simplifies.overTop (h : Simplifies body body') (hbody : ∀ s ∈ body, s.OverTop L) :
    ∀ s ∈ body', s.OverTop L := by
  induction h with
  | refl => exact hbody
  | step hpass _ ih => exact ih (hpass.overTop hbody)

theorem Simplifies.functionNames (h : Simplifies body body') :
    body'.filterMap Stmt.functionName? = body.filterMap Stmt.functionName? := by
  induction h with
  | refl => rfl
  | step hpass _ ih => rw [ih, hpass.functionNames]

end Ifj22
