import Ifj22.Proofs.Token.Layout
import Ifj22.Proofs.Tree.Syntax
set_option autoImplicit false

/-!
# Tree: the names in a tree

A vocabulary says which variables and which calls a tree may mention.  Trees over a vocabulary are
what the parser builds (names as they are spelled), what the checker accepts (names that its tables
know) and what the generator takes; functions stand at the top level only, and each has a vocabulary
of its own.
-/

namespace Ifj22

/-- The variables that a tree may mention, and the names with the numbers of arguments that it may
call.  Every stage has one of its own: the names that the lexer spells, those that the tables
know, and calls up to a number of arguments. -/
structure Vocabulary where
  var : String → Prop
  callee : String → Nat → Prop

/-- Every name of the expression is in the vocabulary. -/
inductive Expr.Over (V : Vocabulary) : Expr → Prop
  | constant (c : Constant) : Over V (.constant c)
  | var {name : String} (h : V.var name) : Over V (.var name)
  | binary {op : BinOp} {left right : Expr} (hl : left.Over V) (hr : right.Over V) :
    Over V (.binary op left right)
  | unary {op : UnaryOp} {operand : Expr} (h : operand.Over V) : Over V (.unary op operand)
  | call {name : String} {args : List Expr} (h : V.callee name args.length)
    (hargs : ∀ e ∈ args, Over V e) : Over V (.call name args)

/-- Every name of the statement is in the vocabulary, and no function stands in it. -/
inductive Stmt.Over (V : Vocabulary) : Stmt → Prop
  | assign {target : String} {value : Expr} (ht : V.var target) (hv : value.Over V) :
    Over V (.assign target value)
  | expr {value : Expr} (h : value.Over V) : Over V (.expr value)
  | ret {value : Option Expr} (h : ∀ e, value = some e → e.Over V) : Over V (.ret value)
  | block {body : List Stmt} (h : ∀ s ∈ body, Over V s) : Over V (.block body)
  | ifElse {cond : Expr} {thenBody : List Stmt} {elseBody : Option (List Stmt)}
    (hc : cond.Over V) (ht : ∀ s ∈ thenBody, Over V s)
    (he : ∀ body, elseBody = some body → ∀ s ∈ body, Over V s) :
    Over V (.ifElse cond thenBody elseBody)
  | whileLoop {cond : Expr} {body : List Stmt} (hc : cond.Over V) (hb : ∀ s ∈ body, Over V s) :
    Over V (.whileLoop cond body)

/-- The vocabularies of a program: of its top level, and of each function by its head. -/
structure Lexicon where
  toplevel : Vocabulary
  head : String → List Param → Option Ty → Prop
  inside : String → Vocabulary

/-- A statement at the top level is a function or a statement over the vocabulary there. -/
inductive Stmt.OverTop (L : Lexicon) : Stmt → Prop
  | stmt {s : Stmt} (h : s.Over L.toplevel) : OverTop L s
  | function {name : String} {params : List Param} {declared : Option Ty} {body : List Stmt}
    (hh : L.head name params declared) (hb : ∀ s ∈ body, s.Over (L.inside name)) :
    OverTop L (.function name params declared body)

variable {L : Lexicon} {name : String} {params : List Param} {declared : Option Ty}
  {body : List Stmt} {V W : Vocabulary}

theorem Stmt.OverTop.head (h : (Stmt.function name params declared body).OverTop L) :
    L.head name params declared := by
  cases h with
  | stmt h => cases h
  | function hh _ => exact hh

theorem Stmt.OverTop.inside (h : (Stmt.function name params declared body).OverTop L) :
    ∀ s ∈ body, s.Over (L.inside name) := by
  cases h with
  | stmt h => cases h
  | function _ hb => exact hb

/-! ## Larger vocabularies -/

theorem Expr.Over.mono (hvar : ∀ name, V.var name → W.var name)
    (hcallee : ∀ name n, V.callee name n → W.callee name n) {e : Expr} (h : e.Over V) :
    e.Over W := by
  induction h with
  | constant c => exact .constant c
  | var h => exact .var (hvar _ h)
  | binary _ _ hl hr => exact .binary hl hr
  | unary _ h => exact .unary h
  | call h _ hargs => exact .call (hcallee _ _ h) hargs

theorem Stmt.Over.mono (hvar : ∀ name, V.var name → W.var name)
    (hcallee : ∀ name n, V.callee name n → W.callee name n) {s : Stmt} (h : s.Over V) :
    s.Over W := by
  induction h with
  | assign ht hv => exact .assign (hvar _ ht) (hv.mono hvar hcallee)
  | expr h => exact .expr (h.mono hvar hcallee)
  | ret h => exact .ret fun e he => (h e he).mono hvar hcallee
  | block _ h => exact .block h
  | ifElse hc _ _ ht he => exact .ifElse (hc.mono hvar hcallee) ht he
  | whileLoop hc _ hb => exact .whileLoop (hc.mono hvar hcallee) hb

/-! ## The names of a source text -/

/-- Names as the lexer spells them. -/
def Vocabulary.spelled : Vocabulary where
  var name := IsVarName name.toList
  callee name _ := IsName name.toList

/-- The type of something that has a value. -/
def Ty.IsValue (ty : Ty) : Prop := ty ≠ .never ∧ ty.contains .void = false

/-- A program as the parser builds it: parameters have types of values, and only the type of a
function may be void. -/
def Lexicon.spelled : Lexicon where
  toplevel := .spelled
  head name params declared :=
    IsName name.toList ∧ (∀ param ∈ params, IsVarName param.name.toList ∧ param.ty.IsValue) ∧
      ∀ ty, declared = some ty → ty = .void ∨ ty.IsValue
  inside _ := .spelled

end Ifj22
