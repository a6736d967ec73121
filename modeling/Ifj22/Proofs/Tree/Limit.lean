import Ifj22.Proofs.Tree.Form
import Ifj22.Proofs.Tree.Place
set_option autoImplicit false

/-!
# Tree: vocabularies together, and how long argument lists are

A tree may be over two vocabularies at once.  One of them limits the number of arguments: each
argument of a call takes two places of an arena, so a tree in a small arena has no long calls.
-/

namespace Ifj22

variable {V W : Vocabulary} {L : Lexicon}

/-! ## Two vocabularies together -/

/-- The names that are in both vocabularies. -/
def Vocabulary.inter (V W : Vocabulary) : Vocabulary where
  var name := V.var name ∧ W.var name
  callee name n := V.callee name n ∧ W.callee name n

theorem Expr.Over.inter {e : Expr} (hV : e.Over V) (hW : e.Over W) : e.Over (V.inter W) := by
  induction hV with
  | constant c => exact .constant c
  | var h => cases hW with | var h' => exact .var ⟨h, h'⟩
  | binary _ _ ihl ihr => cases hW with | binary hl hr => exact .binary (ihl hl) (ihr hr)
  | unary _ ih => cases hW with | unary h' => exact .unary (ih h')
  | call h _ ih =>
    cases hW with
    | call h' hargs => exact .call ⟨h, h'⟩ fun e he => ih e he (hargs e he)

theorem Stmt.Over.inter {s : Stmt} (hV : s.Over V) (hW : s.Over W) : s.Over (V.inter W) := by
  induction hV with
  | assign ht hv => cases hW with | assign ht' hv' => exact .assign ⟨ht, ht'⟩ (hv.inter hv')
  | expr h => cases hW with | expr h' => exact .expr (h.inter h')
  | ret h => cases hW with | ret h' => exact .ret fun e he => (h e he).inter (h' e he)
  | block _ ih => cases hW with | block h' => exact .block fun s hs => ih s hs (h' s hs)
  | ifElse hc _ _ iht ihe =>
    cases hW with
    | ifElse hc' ht' he' =>
      exact .ifElse (hc.inter hc') (fun s hs => iht s hs (ht' s hs))
        fun body hb s hs => ihe body hb s hs (he' body hb s hs)
  | whileLoop hc _ ih =>
    cases hW with
    | whileLoop hc' hb' => exact .whileLoop (hc.inter hc') fun s hs => ih s hs (hb' s hs)

/-! ## Limits -/

/-- Calls with no more arguments than the limit. -/
def Vocabulary.upTo (limit : Nat) : Vocabulary where
  var _ := True
  callee _ n := n ≤ limit

/-- Each argument takes a place of its own and one for its link. -/
theorem ArgsAt.length_le {a : Arena} : ∀ {args : List Expr} {lo hi : Nat} {link : Option Nat},
    ArgsAt a args lo hi link → lo + 2 * args.length ≤ hi
  | [], _, _, _, h => h.2
  | _ :: rest, lo, hi, _, ⟨l, i, _, _, hl, _, he, hrest⟩ => by
    have hlo := he.le
    have hlen := hrest.length_le
    rw [List.length_cons]
    omega

section

variable {a : Arena} {limit : Nat}

mutual

theorem Expr.At.upTo : ∀ {e : Expr} {lo id : Nat}, e.At a lo id → id ≤ 2 * limit + 1 →
    e.Over (.upTo limit)
  | .constant c, _, _, _, _ => .constant c
  | .var _, _, _, _, _ => .var trivial
  | .binary _ left right, _, id, ⟨i, j, _, hl, hr, hj⟩, hid => by
    have hle := hr.le
    exact .binary (Expr.At.upTo hl (by omega)) (Expr.At.upTo hr (by omega))
  | .unary _ operand, _, id, ⟨i, _, ho, hi⟩, hid => .unary (Expr.At.upTo ho (by omega))
  | .call name args, lo, id, ⟨link, _, hargs⟩, hid => by
    have hlen := hargs.length_le
    refine .call ?_ (ArgsAt.upTo hargs hid)
    show args.length ≤ limit
    omega

theorem ArgsAt.upTo : ∀ {args : List Expr} {lo hi : Nat} {link : Option Nat},
    ArgsAt a args lo hi link → hi ≤ 2 * limit + 1 → ∀ e ∈ args, e.Over (.upTo limit)
  | [], _, _, _, _, _ => by simp
  | e :: rest, _, hi, _, ⟨l, i, _, _, hl, _, he, hrest⟩, hhi => by
    have hle := hrest.le
    exact List.forall_mem_cons.mpr
      ⟨Expr.At.upTo he (by omega), ArgsAt.upTo hrest (by omega)⟩

end

/-- The limit for a whole program. -/
def Lexicon.upTo (limit : Nat) : Lexicon where
  toplevel := .upTo limit
  head _ _ _ := True
  inside _ := .upTo limit

mutual

theorem Stmt.At.upTo : ∀ {s : Stmt} {V : Vocabulary} {lo id : Nat}, s.Over V → s.At a lo id →
    id ≤ 2 * limit + 1 → s.Over (.upTo limit)
  | .assign _ _, _, _, id, _, ⟨i, _, hv, hi⟩, hid => .assign trivial (hv.upTo (by omega))
  | .expr _, _, _, _, _, h, hid => .expr (Expr.At.upTo h hid)
  | .ret none, _, _, _, _, _, _ => .ret fun _ he => absurd he (by simp)
  | .ret (some value), _, _, id, _, ⟨i, _, hv, hi⟩, hid => by
    refine .ret fun e he => ?_
    cases he
    exact hv.upTo (by omega)
  | .block body, _, _, _, .block hb, h, hid => .block (ListAt.upTo hb h hid)
  | .ifElse cond thenBody none, _, _, id, .ifElse _ ht _, ⟨c, i, _, hc, htt, hi⟩, hid => by
    have hle := htt.le
    refine .ifElse (hc.upTo (by omega)) (ListAt.upTo ht htt (by omega)) fun _ he => ?_
    cases he
  | .ifElse cond thenBody (some elseBody), _, _, id, .ifElse _ ht he, ⟨c, i, j, _, hc, htt, hee, hj⟩,
    hid => by
    have hle := htt.le
    have hle' := hee.le
    refine .ifElse (hc.upTo (by omega)) (ListAt.upTo ht htt (by omega)) fun body hbody => ?_
    cases hbody
    exact ListAt.upTo (he _ rfl) hee (by omega)
  | .whileLoop cond body, _, _, id, .whileLoop _ hb, ⟨c, i, _, hc, hbb, hi⟩, hid => by
    have hle := hbb.le
    exact .whileLoop (hc.upTo (by omega)) (ListAt.upTo hb hbb (by omega))

theorem ListAt.upTo : ∀ {body : List Stmt} {V : Vocabulary} {before : Option Nat} {lo id : Nat},
    (∀ s ∈ body, s.Over V) → ListAt a body before lo id → id ≤ 2 * limit + 1 →
    ∀ s ∈ body, s.Over (.upTo limit)
  | [], _, _, _, _, _, _, _ => by simp
  | s :: rest, _, _, _, id, hb, ⟨i, link, hs, hi, _, hrest⟩, hid => by
    have hle := hrest.before_le (Nat.lt_succ_self link)
    exact List.forall_mem_cons.mpr ⟨Stmt.At.upTo (hb s (.head _)) hs (by omega),
      ListAt.upTo (fun u hu => hb u (.tail s hu)) hrest hid⟩

end

theorem ListAt.overTop_upTo : ∀ {body : List Stmt} {before : Option Nat} {lo id : Nat},
    (∀ s ∈ body, s.OverTop L) → ListAt a body before lo id → id ≤ 2 * limit + 1 →
    ∀ s ∈ body, s.OverTop (.upTo limit)
  | [], _, _, _, _, _, _ => by simp
  | s :: rest, _, _, id, hb, ⟨i, link, hs, hi, _, hrest⟩, hid => by
    have hle := hrest.before_le (Nat.lt_succ_self link)
    refine List.forall_mem_cons.mpr
      ⟨?_, ListAt.overTop_upTo (fun u hu => hb u (.tail s hu)) hrest hid⟩
    cases hb s (.head _) with
    | stmt h => exact .stmt (hs.upTo h (by omega))
    | function _ hbody =>
      obtain ⟨j, _, hat, hj⟩ := hs
      exact .function trivial (hat.upTo hbody (by omega))

end

/-- The calls of a program have at most half as many arguments as its arena has places. -/
theorem Program.Holds.overTop_upTo {p : Program} {body : List Stmt} {limit : Nat}
    (h : p.Holds body) (hover : ∀ s ∈ body, s.OverTop L) (hsize : p.arena.size ≤ 2 * (limit + 1)) :
    ∀ s ∈ body, s.OverTop (.upTo limit) :=
  ListAt.overTop_upTo hover h (Nat.le_of_lt_succ (Nat.lt_of_lt_of_le (ListAt.lt_size h) hsize))

end Ifj22
