import Ifj22.Literal
import Ifj22.Number.Reading
import Ifj22.Proofs.Tree.Syntax
import Ifj22.Token.Basic
import Mathlib.Data.List.Forall2
set_option autoImplicit false

/-!
# Parser: trees as tokens

A tree is printed as a list of tokens.  The list is determined by the tree but for the lexemes of its
constants, which may be any that read as their values, and for the lines and the lexemes that mean
nothing.  Parentheses stand around an operand only if its operator binds less tightly than its place
demands.  The bodies of branches, loops and functions stand in braces.
-/

namespace Ifj22

/-! ## Tokens -/

/-- The kind of the token of an operator. -/
def BinOp.kind : BinOp → TokenKind
  | .or => .orOr
  | .and => .andAnd
  | .equal => .equal
  | .notEqual => .notEqual
  | .identical => .identical
  | .notIdentical => .notIdentical
  | .less => .lessThan
  | .lessEqual => .lessEqual
  | .greater => .greaterThan
  | .greaterEqual => .greaterEqual
  | .add => .plus
  | .sub => .minus
  | .concat => .dot
  | .mul => .star
  | .div => .slash

/-- The kind of the token of an operator. -/
def UnaryOp.kind : UnaryOp → TokenKind
  | .negate => .minus
  | .not => .bang

/-- The token is of the kind of the constant, and its lexeme reads as the value. -/
def Token.Denotes (t : Token) : Constant → Prop
  | .int value => t.kind = .intLiteral ∧ Number.readWord? t.lexeme.toList = some value
  | .float value => t.kind = .floatLiteral ∧ Number.readFloat? t.lexeme.toList = some value
  | .str value => t.kind = .stringLiteral ∧ Literal.decode t.lexeme = value
  | .null => t.kind = .kwNull

/-- The token is a word of the given kind. -/
def Token.Spells (t : Token) (kind : TokenKind) (word : String) : Prop :=
  t.kind = kind ∧ t.lexeme = word

/-! ## Expressions -/

/-- The binary operators, row by row from the loosest to the tightest. -/
def operatorRows : List (List BinOp) :=
  [[.or], [.and], [.equal, .notEqual, .identical, .notIdentical],
    [.less, .lessEqual, .greater, .greaterEqual], [.add, .sub, .concat], [.mul, .div]]

/-- The number of the row of an operator; the first row has number one. -/
def BinOp.level (op : BinOp) : Nat := operatorRows.findIdx (op ∈ ·) + 1

theorem BinOp.level_eq (op : BinOp) : op.level = op.precedence := by cases op <;> rfl

/-- How tightly an expression holds together; all but binary operators bind tightest. -/
def Expr.tightness : Expr → Nat
  | .binary op _ _ => op.level
  | _ => operatorRows.length + 1

mutual

/-- The tokens print the expression, without parentheses around it. -/
inductive Expr.Prints : Expr → List Token → Prop
  | constant {c : Constant} {t : Token} (h : t.Denotes c) : Expr.Prints (.constant c) [t]
  | var {name : String} {t : Token} (h : t.Spells .varName name) : Expr.Prints (.var name) [t]
  /-- The left operand may have an operator of the same level, the right one may not. -/
  | binary {op : BinOp} {left right : Expr} {ts us : List Token} {o : Token}
    (hl : left.PrintsOperand op.level ts) (ho : o.kind = op.kind)
    (hr : right.PrintsOperand (op.level + 1) us) :
    Expr.Prints (.binary op left right) (ts ++ o :: us)
  | unary {op : UnaryOp} {operand : Expr} {ts : List Token} {o : Token} (ho : o.kind = op.kind)
    (h : operand.PrintsOperand (operatorRows.length + 1) ts) : Expr.Prints (.unary op operand) (o :: ts)
  | callNone {name : String} {f l r : Token} (hf : f.Spells .identifier name)
    (hl : l.kind = .openParen) (hr : r.kind = .closeParen) :
    Expr.Prints (.call name []) [f, l, r]
  | call {name : String} {first : Expr} {more : List Expr} {f l r : Token} {ts us : List Token}
    (hf : f.Spells .identifier name) (hl : l.kind = .openParen) (hfirst : first.Prints ts)
    (hmore : PrintsMore more us) (hr : r.kind = .closeParen) :
    Expr.Prints (.call name (first :: more)) (f :: l :: (ts ++ us ++ [r]))

/-- The tokens print the expression at a place that demands operators of at least the given level. -/
inductive Expr.PrintsOperand : Nat → Expr → List Token → Prop
  | bare {level : Nat} {e : Expr} {ts : List Token} (hle : level ≤ e.tightness) (h : e.Prints ts) :
    Expr.PrintsOperand level e ts
  | parens {level : Nat} {e : Expr} {ts : List Token} {l r : Token} (hlt : e.tightness < level)
    (hl : l.kind = .openParen) (h : e.Prints ts) (hr : r.kind = .closeParen) :
    Expr.PrintsOperand level e (l :: (ts ++ [r]))

/-- The tokens print arguments behind the first one, each after a comma. -/
inductive PrintsMore : List Expr → List Token → Prop
  | nil : PrintsMore [] []
  | cons {e : Expr} {args : List Expr} {c : Token} {ts us : List Token} (hc : c.kind = .comma)
    (h : e.Prints ts) (hmore : PrintsMore args us) : PrintsMore (e :: args) (c :: (ts ++ us))

end

/-- A token that an expression starts with. -/
def TokenKind.startsExpr : TokenKind → Bool
  | .intLiteral | .floatLiteral | .stringLiteral | .kwNull | .varName | .identifier => true
  | .minus | .bang | .openParen => true
  | _ => false

theorem Token.Denotes.startsExpr {t : Token} {c : Constant} (h : t.Denotes c) :
    t.kind.startsExpr = true := by
  cases c with
  | int | float | str => rw [h.1]; rfl
  | null => rw [show t.kind = .kwNull from h]; rfl

theorem Expr.Prints.head {e : Expr} {ts : List Token} (h : e.Prints ts) :
    ∃ t us, ts = t :: us ∧ t.kind.startsExpr = true := by
  induction e generalizing ts with
  | constant c => cases h with | constant h => exact ⟨_, _, rfl, h.startsExpr⟩
  | var name => cases h with | var h => exact ⟨_, _, rfl, by rw [h.1]; rfl⟩
  | binary op left right ih _ =>
    cases h with
    | @binary _ _ _ ts us o hl =>
      cases hl with
      | bare _ h =>
        obtain ⟨t, vs, rfl, ht⟩ := ih h
        exact ⟨t, _, rfl, ht⟩
      | parens _ hl => exact ⟨_, _, rfl, by rw [hl]; rfl⟩
  | unary op operand _ =>
    cases h with
    | unary ho => exact ⟨_, _, rfl, by rw [ho]; cases op <;> rfl⟩
  | call name args _ =>
    cases h with
    | callNone hf => exact ⟨_, _, rfl, by rw [hf.1]; rfl⟩
    | call hf => exact ⟨_, _, rfl, by rw [hf.1]; rfl⟩

/-! ## Signatures of functions -/

/-- The types with a name of their own, and the kinds of their tokens. -/
def namedTys : List (Ty × TokenKind) := [(.int, .kwInt), (.float, .kwFloat), (.string, .kwString)]

/-- The tokens print the type. -/
inductive Ty.Prints : Ty → List Token → Prop
  | named {ty : Ty} {t : Token} (h : (ty, t.kind) ∈ namedTys) : Ty.Prints ty [t]
  | nullable {ty : Ty} {q t : Token} (hq : q.kind = .question) (h : (ty, t.kind) ∈ namedTys) :
    Ty.Prints ty.nullable [q, t]

/-- The tokens print the parameter; one without a type admits any value. -/
inductive Param.Prints : Param → List Token → Prop
  | any {name : String} {t : Token} (h : t.Spells .varName name) : Param.Prints ⟨name, .any⟩ [t]
  | typed {name : String} {ty : Ty} {t : Token} {ts : List Token} (hty : ty.Prints ts)
    (h : t.Spells .varName name) : Param.Prints ⟨name, ty⟩ (ts ++ [t])

/-- The tokens print parameters behind the first one, each after a comma. -/
inductive PrintsMoreParams : List Param → List Token → Prop
  | nil : PrintsMoreParams [] []
  | cons {param : Param} {params : List Param} {c : Token} {ts us : List Token}
    (hc : c.kind = .comma) (h : param.Prints ts) (hmore : PrintsMoreParams params us) :
    PrintsMoreParams (param :: params) (c :: (ts ++ us))

/-- The tokens print the parameters. -/
inductive PrintsParams : List Param → List Token → Prop
  | nil : PrintsParams [] []
  | cons {first : Param} {more : List Param} {ts us : List Token} (h : first.Prints ts)
    (hmore : PrintsMoreParams more us) : PrintsParams (first :: more) (ts ++ us)

/-- The tokens print the return type, if one is declared. -/
inductive PrintsReturn : Option Ty → List Token → Prop
  | none : PrintsReturn none []
  | void {c t : Token} (hc : c.kind = .colon) (h : t.kind = .kwVoid) :
    PrintsReturn (some .void) [c, t]
  | some {ty : Ty} {c : Token} {ts : List Token} (hc : c.kind = .colon) (h : ty.Prints ts) :
    PrintsReturn (some ty) (c :: ts)

/-! ## Statements -/

/-- The tokens print the statement; functions stand elsewhere. -/
inductive Stmt.Prints : Stmt → List Token → Prop
  | assign {target : String} {value : Expr} {v a s : Token} {ts : List Token}
    (hv : v.Spells .varName target) (ha : a.kind = .assign) (h : value.Prints ts)
    (hs : s.kind = .semicolon) : Stmt.Prints (.assign target value) (v :: a :: (ts ++ [s]))
  | expr {value : Expr} {s : Token} {ts : List Token} (h : value.Prints ts)
    (hs : s.kind = .semicolon) : Stmt.Prints (.expr value) (ts ++ [s])
  | retNone {k s : Token} (hk : k.kind = .kwReturn) (hs : s.kind = .semicolon) :
    Stmt.Prints (.ret none) [k, s]
  | ret {value : Expr} {k s : Token} {ts : List Token} (hk : k.kind = .kwReturn)
    (h : value.Prints ts) (hs : s.kind = .semicolon) :
    Stmt.Prints (.ret (some value)) (k :: (ts ++ [s]))
  /-- The empty statement. -/
  | empty {s : Token} (hs : s.kind = .semicolon) : Stmt.Prints (.block []) [s]
  | block {body : List Stmt} {l r : Token} {parts : List (List Token)} (hl : l.kind = .openBrace)
    (h : List.Forall₂ Stmt.Prints body parts) (hr : r.kind = .closeBrace) :
    Stmt.Prints (.block body) (l :: (parts.flatten ++ [r]))
  | ifThen {cond : Expr} {body : List Stmt} {k o c l r : Token} {ts : List Token}
    {parts : List (List Token)} (hk : k.kind = .kwIf) (ho : o.kind = .openParen)
    (hcond : cond.Prints ts) (hc : c.kind = .closeParen) (hl : l.kind = .openBrace)
    (h : List.Forall₂ Stmt.Prints body parts) (hr : r.kind = .closeBrace) :
    Stmt.Prints (.ifElse cond body none) (k :: o :: (ts ++ c :: l :: (parts.flatten ++ [r])))
  | ifElse {cond : Expr} {body elseBody : List Stmt} {k o c l r k' l' r' : Token}
    {ts : List Token} {parts parts' : List (List Token)} (hk : k.kind = .kwIf)
    (ho : o.kind = .openParen) (hcond : cond.Prints ts) (hc : c.kind = .closeParen)
    (hl : l.kind = .openBrace) (h : List.Forall₂ Stmt.Prints body parts) (hr : r.kind = .closeBrace)
    (hk' : k'.kind = .kwElse) (hl' : l'.kind = .openBrace)
    (h' : List.Forall₂ Stmt.Prints elseBody parts') (hr' : r'.kind = .closeBrace) :
    Stmt.Prints (.ifElse cond body (some elseBody))
      (k :: o :: (ts ++ c :: l :: (parts.flatten ++ r :: k' :: l' :: (parts'.flatten ++ [r']))))
  | whileLoop {cond : Expr} {body : List Stmt} {k o c l r : Token} {ts : List Token}
    {parts : List (List Token)} (hk : k.kind = .kwWhile) (ho : o.kind = .openParen)
    (hcond : cond.Prints ts) (hc : c.kind = .closeParen) (hl : l.kind = .openBrace)
    (h : List.Forall₂ Stmt.Prints body parts) (hr : r.kind = .closeBrace) :
    Stmt.Prints (.whileLoop cond body) (k :: o :: (ts ++ c :: l :: (parts.flatten ++ [r])))

/-- The tokens print a statement of the top level. -/
inductive Stmt.PrintsTop : Stmt → List Token → Prop
  | stmt {s : Stmt} {ts : List Token} (h : s.Prints ts) : Stmt.PrintsTop s ts
  | function {name : String} {params : List Param} {declared : Option Ty} {body : List Stmt}
    {k f o c l r : Token} {ts us : List Token} {parts : List (List Token)}
    (hk : k.kind = .kwFunction) (hf : f.Spells .identifier name) (ho : o.kind = .openParen)
    (hparams : PrintsParams params ts) (hc : c.kind = .closeParen)
    (hdeclared : PrintsReturn declared us) (hl : l.kind = .openBrace)
    (h : List.Forall₂ Stmt.Prints body parts) (hr : r.kind = .closeBrace) :
    Stmt.PrintsTop (.function name params declared body)
      (k :: f :: o :: (ts ++ c :: (us ++ l :: (parts.flatten ++ [r]))))

/-- The tokens print the program.  Parentheses stand where an operand would be read in another way
without them, and nowhere else. -/
inductive PrintsProgram : List Stmt → List Token → Prop
  | mk {body : List Stmt} {o e : Token} {parts : List (List Token)} (ho : o.kind = .openTag)
    (h : List.Forall₂ Stmt.PrintsTop body parts) (he : e.kind = .eof) :
    PrintsProgram body (o :: (parts.flatten ++ [e]))

end Ifj22
