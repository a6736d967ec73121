import Ifj22.Proofs.Parser.PrintedExpr
import Ifj22.Proofs.Tree.Layout
import Ifj22.Proofs.Tree.Read
set_option autoImplicit false

/-!
# Parser: the tokens behind a tree

Parentheses may stand around any operand, as often as one likes.  `Expr.Written` relates a tree to
all the token lists that mean it: where no parentheses stand around an operand, it binds tightly
enough for its place.  Reading an expression is faithful (`expr_written`): if it succeeds, the
tokens it has passed are written for the tree that it yields.  Without their parentheses and commas
they are the operators, constants, variables and callees of the tree, in order
(`Expr.Written.shows`).
-/

namespace Ifj22

variable {t : Token} {k : TokenKind}

/-! ## Written expressions -/

mutual

/-- The tokens are written for the expression; the flag tells whether parentheses stand around it.
Only a bare operand has to bind as tightly as its place demands. -/
inductive Expr.Written : Expr → Bool → List Token → Prop
  | constant {c : Constant} {t : Token} (h : t.Denotes c) : Expr.Written (.constant c) false [t]
  | var {name : String} {t : Token} (h : t.Spells .varName name) :
    Expr.Written (.var name) false [t]
  /-- A bare left operand binds at least as tightly as the operator, a bare right one tighter. -/
  | binary {op : BinOp} {left right : Expr} {wl wr : Bool} {ts us : List Token} {o : Token}
    (hl : left.Written wl ts) (ho : o.kind = op.kind) (hr : right.Written wr us)
    (hleft : wl = false → op.level ≤ left.tightness)
    (hright : wr = false → op.level < right.tightness) :
    Expr.Written (.binary op left right) false (ts ++ o :: us)
  /-- A bare operand is not a binary operation. -/
  | unary {op : UnaryOp} {operand : Expr} {w : Bool} {ts : List Token} {o : Token}
    (ho : o.kind = op.kind) (h : operand.Written w ts)
    (hoperand : w = false → operatorRows.length < operand.tightness) :
    Expr.Written (.unary op operand) false (o :: ts)
  | call {name : String} {args : List Expr} {f l r : Token} {ts : List Token}
    (hf : f.Spells .identifier name) (hl : l.kind = .openParen) (h : WrittenArgs args ts)
    (hr : r.kind = .closeParen) : Expr.Written (.call name args) false (f :: l :: (ts ++ [r]))
  | parens {e : Expr} {w : Bool} {l r : Token} {ts : List Token} (hl : l.kind = .openParen)
    (h : e.Written w ts) (hr : r.kind = .closeParen) : Expr.Written e true (l :: (ts ++ [r]))

/-- The tokens are written for the arguments, with a comma between each two. -/
inductive WrittenArgs : List Expr → List Token → Prop
  | nil : WrittenArgs [] []
  | cons {first : Expr} {more : List Expr} {w : Bool} {ts us : List Token}
    (h : first.Written w ts) (hmore : WrittenMore more us) : WrittenArgs (first :: more) (ts ++ us)

/-- The tokens are written for arguments behind the first one, each after a comma. -/
inductive WrittenMore : List Expr → List Token → Prop
  | nil : WrittenMore [] []
  | cons {e : Expr} {args : List Expr} {w : Bool} {c : Token} {ts us : List Token}
    (hc : c.kind = .comma) (h : e.Written w ts) (hmore : WrittenMore args us) :
    WrittenMore (e :: args) (c :: (ts ++ us))

end

/-! ## The parts of a tree in order -/

/-- A part of an expression that has a token of its own. -/
inductive Item
  | constant (c : Constant)
  | var (name : String)
  | binary (op : BinOp)
  | unary (op : UnaryOp)
  | callee (name : String)
  deriving DecidableEq, Repr

/-- The token stands for the part. -/
def Token.Shows (t : Token) : Item → Prop
  | .constant c => t.Denotes c
  | .var name => t.Spells .varName name
  | .binary op => t.kind = op.kind
  | .unary op => t.kind = op.kind
  | .callee name => t.Spells .identifier name

mutual

/-- The parts of an expression in order: a unary operator comes before its operand, a binary one
between its operands and a callee before its arguments. -/
def Expr.inOrder : Expr → List Item
  | .constant c => [.constant c]
  | .var name => [.var name]
  | .binary op left right => left.inOrder ++ .binary op :: right.inOrder
  | .unary op operand => .unary op :: operand.inOrder
  | .call name args => .callee name :: argsInOrder args

def argsInOrder : List Expr → List Item
  | [] => []
  | e :: args => e.inOrder ++ argsInOrder args

end

/-- The token only groups: it is a parenthesis or a comma. -/
def Token.groups (t : Token) : Bool := t.kind ∈ [.openParen, .closeParen, .comma]

/-- The tokens but for parentheses and commas. -/
def ungrouped (ts : List Token) : List Token := ts.filter (!·.groups)

theorem ungrouped_append (ts us : List Token) :
    ungrouped (ts ++ us) = ungrouped ts ++ ungrouped us :=
  List.filter_append ..

theorem ungrouped_cons_of_groups (h : t.groups = true) (ts : List Token) :
    ungrouped (t :: ts) = ungrouped ts := by
  simp [ungrouped, h]

theorem ungrouped_nil : ungrouped [] = [] := rfl

theorem Token.Shows.groups {i : Item} (h : t.Shows i) : t.groups = false := by
  cases i with
  | constant c =>
    cases c with
    | int value => simp [Token.groups, h.1]
    | float value => simp [Token.groups, h.1]
    | str value => simp [Token.groups, h.1]
    | null => simp [Token.groups, show t.kind = .kwNull from h]
  | var name => simp [Token.groups, h.1]
  | binary op => cases op <;> simp [Token.groups, show t.kind = _ from h, BinOp.kind]
  | unary op => cases op <;> simp [Token.groups, show t.kind = _ from h, UnaryOp.kind]
  | callee name => simp [Token.groups, h.1]

/-- A token that stands for a part comes before the others. -/
theorem forall₂_shows_cons {i : Item} {ts : List Token} {items : List Item} (h : t.Shows i)
    (hrest : List.Forall₂ Token.Shows (ungrouped ts) items) :
    List.Forall₂ Token.Shows (ungrouped (t :: ts)) (i :: items) := by
  have hcons : ungrouped (t :: ts) = t :: ungrouped ts := by simp [ungrouped, h.groups]
  rw [hcons]
  exact .cons h hrest

theorem groups_of_kind (hk : k ∈ [.openParen, .closeParen, .comma]) (h : t.kind = k) :
    t.groups = true := by
  simpa [Token.groups, h] using hk

/-- Parentheses around tokens do not count. -/
theorem ungrouped_parens {l r : Token} (hl : l.kind = .openParen) (hr : r.kind = .closeParen)
    (ts : List Token) : ungrouped (l :: (ts ++ [r])) = ungrouped ts := by
  rw [ungrouped_cons_of_groups (groups_of_kind (by decide) hl), ungrouped_append,
    ungrouped_cons_of_groups (groups_of_kind (by decide) hr), ungrouped_nil, List.append_nil]

mutual

/-- Without parentheses and commas, the tokens of an expression show its parts in order. -/
theorem Expr.Written.shows : ∀ {e : Expr} {w : Bool} {ts : List Token}, e.Written w ts →
    List.Forall₂ Token.Shows (ungrouped ts) e.inOrder
  | .constant c, _, _, .constant h => forall₂_shows_cons (i := .constant c) h .nil
  | .var name, _, _, .var h => forall₂_shows_cons (i := .var name) h .nil
  | .binary op _ _, _, _, .binary hl ho hr _ _ => by
    rw [ungrouped_append]
    exact List.rel_append hl.shows (forall₂_shows_cons (i := .binary op) ho hr.shows)
  | .unary op _, _, _, .unary ho h _ => forall₂_shows_cons (i := .unary op) ho h.shows
  | .call name _, _, _, .call hf hl h hr => by
    apply forall₂_shows_cons (i := .callee name) hf
    rw [ungrouped_parens hl hr]
    exact h.shows
  | _, _, _, .parens hl h hr => by
    rw [ungrouped_parens hl hr]
    exact h.shows

theorem WrittenArgs.shows : ∀ {args : List Expr} {ts : List Token}, WrittenArgs args ts →
    List.Forall₂ Token.Shows (ungrouped ts) (argsInOrder args)
  | [], _, .nil => .nil
  | _ :: _, _, .cons h hmore => by
    rw [ungrouped_append]
    exact List.rel_append h.shows hmore.shows

theorem WrittenMore.shows : ∀ {args : List Expr} {ts : List Token}, WrittenMore args ts →
    List.Forall₂ Token.Shows (ungrouped ts) (argsInOrder args)
  | [], _, .nil => .nil
  | _ :: _, _, .cons hc h hmore => by
    rw [ungrouped_cons_of_groups (groups_of_kind (by decide) hc), ungrouped_append]
    exact List.rel_append h.shows hmore.shows

end

/-- The arena ends at `id`, with `n` places from `lo` on. -/
def Arena.EndsAt (a : Arena) (lo id n : Nat) : Prop := a.size = id + 1 ∧ a.size = lo + n

namespace Parser

variable {p p' : Parser}

/-! ## Expressions -/

/-- An expression for which the tokens are written fills the arena from `lo` on; where no parentheses
stand around it, its operator is of at least the given level. -/
def Reading (lo level : Nat) (ts : List Token) (id : Nat) (p' : Parser) : Prop :=
  ∃ (e : Expr) (w : Bool), e.Written w ts ∧
    (e.At p'.arena lo id ∧ p'.arena.EndsAt lo id e.size) ∧ (w = false → level ≤ e.tightness)

/-- What the reader of the arguments behind the first one yields; the links are not there yet. -/
def ReadingMore (p : Parser) (ts : List Token) (ids : List Nat) (p' : Parser) : Prop :=
  ∃ args, WrittenMore args ts ∧ Row p'.arena args p.arena.size ids p'.arena.size ∧
    p'.arena.size + args.length = p.arena.size + argsSize args

/-- The next token is no operator of the level or above. -/
def NoneFrom (level : Nat) (p : Parser) : Prop :=
  ∀ op, p.kind.binaryOp? = some op → op.precedence < level

/-- A constant or a variable that a token stands for. -/
theorem literal?_written {node : Node} (h : literal? t = some (.ok node)) :
    ∃ e : Expr, e.Written false [t] ∧ e.tightness = operatorRows.length + 1 ∧ e.size = 1 ∧
      ∀ (a : Arena) (id : Nat), a.node id = node → e.At a id id := by
  have hconstant {c : Constant} (hc : t.Denotes c) (hnode : node = c.node) :
      ∃ e : Expr, e.Written false [t] ∧ e.tightness = operatorRows.length + 1 ∧ e.size = 1 ∧
        ∀ (a : Arena) (id : Nat), a.node id = node → e.At a id id :=
    ⟨.constant c, .constant hc, rfl, rfl, fun _ _ hn => ⟨hn.trans hnode, Nat.le_refl _⟩⟩
  unfold literal? at h
  split at h
  · rename_i hk
    split at h
    · rename_i value hvalue
      simp only [Option.some.injEq, Except.ok.injEq] at h
      exact hconstant (c := .int value) ⟨hk, hvalue⟩ h.symm
    · simp at h
  · rename_i hk
    split at h
    · rename_i value hvalue
      simp only [Option.some.injEq, Except.ok.injEq] at h
      exact hconstant (c := .float value) ⟨hk, hvalue⟩ h.symm
    · simp at h
  · rename_i hk
    simp only [Option.some.injEq, Except.ok.injEq] at h
    exact hconstant (c := .str _) ⟨hk, rfl⟩ h.symm
  · rename_i hk
    simp only [Option.some.injEq, Except.ok.injEq] at h
    exact hconstant (c := .null) hk h.symm
  · rename_i hk
    simp only [Option.some.injEq, Except.ok.injEq] at h
    exact ⟨.var t.lexeme, .var ⟨hk, rfl⟩, rfl, rfl, fun _ _ hn => ⟨hn.trans h.symm, Nat.le_refl _⟩⟩
  · simp at h

theorem takes_leaf (hp : p.Ends) :
    p.Takes leaf (Reading p.arena.size (operatorRows.length + 1)) := by
  unfold leaf
  refine .get ?_
  split
  · exact .failExpecting _
  · rename_i t hcurrent
    split
    · rename_i node hnode
      obtain ⟨e, hwritten, htight, hsize, hat⟩ := literal?_written hnode
      have hk : p.kind ≠ .eof := by
        rw [kind, hcurrent]
        exact literal?_ne_eof hnode
      refine .advance hp hk fun u hu => ?_
      cases (current?_of_ahead hu).symm.trans hcurrent
      refine .pushed node ⟨e, false, hwritten, ⟨?_, size_grow .., ?_⟩, fun _ => Nat.le_of_eq htight.symm⟩
      · exact hat _ _ (p.skip.node_grow node)
      · rw [hsize]
        exact size_grow ..
    · exact .throw id
    · exact .failExpecting _

/-! ### Calls and parentheses -/

theorem takes_pushArgs {ids : List Nat} {args : List Expr} {lo : Nat}
    (hrow : Row p.arena args lo ids p.arena.size) :
    p.Takes (pushArgs ids) fun ts link p' => ts = [] ∧
      ArgsAt p'.arena args lo p'.arena.size link ∧ p'.arena.size = p.arena.size + args.length := by
  obtain ⟨link, a, hrun, hext, hargs, hsize⟩ := pushArgs_row hrow
  unfold Takes Meets
  rw [hrun]
  exact ⟨[], ⟨⟨rfl, hext⟩, rfl, rfl, by simp⟩, rfl, hargs, hsize⟩

section

variable {n : Nat} {readExpr : Parse NodeId} {readMore : Parse (List NodeId)}
  (hexpr : ∀ q : Parser, q.Ends → q.ahead.length < n →
    q.Takes readExpr (Reading q.arena.size 1))
  (hmore : ∀ q : Parser, q.Ends → q.ahead.length < n → q.Takes readMore q.ReadingMore)

include hexpr hmore

theorem takes_callWith (hp : p.Ends) (hlen : p.ahead.length ≤ n) (name : String) :
    p.Takes (callWith readExpr readMore name) fun ts id p' =>
      ∃ args l r us, ts = l :: (us ++ [r]) ∧ l.kind = .openParen ∧ r.kind = .closeParen ∧
        WrittenArgs args us ∧ (Expr.call name args).At p'.arena p.arena.size id ∧
        p'.arena.EndsAt p.arena.size id (Expr.call name args).size := by
  unfold callWith
  refine .expect hp (by decide) fun l hl hlk => ?_
  have hl := hl.length
  refine .accept hp (by decide) (fun r _ hrk => ?_) ?_
  · refine .pushed _ ⟨[], l, r, [], rfl, hlk, hrk, .nil, ?_, size_grow .., size_grow ..⟩
    exact ⟨none, node_grow .., rfl, Nat.le_refl p.arena.size⟩
  · refine (hexpr p.skip hp (by omega)).bind ?_
    rintro ts1 i p1 h1 ⟨e, w, hwritten, ⟨he, hs1, hc1⟩, _⟩
    have hp1 := h1.ends hp
    have hl1 := h1.length
    refine (hmore p1 hp1 (by omega)).bind ?_
    rintro ts2 ids p2 h2 ⟨args, hwrittenMore, hrow, hc2⟩
    refine .expect (h2.ends hp1) (by decide) fun r _ hrk => ?_
    have hrow' : Row p2.skip.arena (e :: args) p.arena.size (i :: ids) p2.skip.arena.size :=
      ⟨h2.arena.exprAt he, hs1 ▸ hrow⟩
    refine (takes_pushArgs hrow').bind ?_
    rintro ts3 link p3 h3 ⟨rfl, hargs, hc3⟩
    refine .pushed _ ⟨e :: args, l, r, ts1 ++ ts2, by simp, hlk, hrk,
      .cons hwritten hwrittenMore, ⟨link, node_grow .., ?_⟩, size_grow .., ?_⟩
    · exact hargs.congr (Nat.le_refl _) fun k _ hk => (Onward.grow p3 _).arena.node k hk
    · simp only [size_grow, Expr.size, argsSize, List.length_cons, arena_skip] at *
      omega

theorem takes_primaryWith (hp : p.Ends) (hlen : p.ahead.length ≤ n) :
    p.Takes (primaryWith readExpr readMore)
      (Reading p.arena.size (operatorRows.length + 1)) := by
  unfold primaryWith
  refine .get ?_
  split
  · rename_i hk
    refine .advance hp (by rw [hk]; decide) fun l hl => ?_
    have hlk := kind_of_ahead hl
    have hl := hl.length
    refine (hexpr p.skip hp (by omega)).bind ?_
    rintro ts id p1 h1 ⟨e, w, hwritten, hfills, _⟩
    refine .expect (h1.ends hp) (by decide) fun r _ hrk => ?_
    exact .pure ⟨e, true, .parens (hlk.symm.trans hk) hwritten hrk, hfills, by simp⟩
  · refine .expect hp (by decide) fun f hf hfk => ?_
    have hf := hf.length
    refine (takes_callWith (p := p.skip) hexpr hmore hp (by omega) f.lexeme).imp ?_
    rintro _ id p1 _ ⟨args, l, r, us, rfl, hl, hr, hwritten, hfills⟩
    exact ⟨.call f.lexeme args, false, .call ⟨hfk, rfl⟩ hl hwritten hr, hfills,
      fun _ => Nat.le_refl _⟩
  · exact takes_leaf hp

end

/-! ### Operators -/

theorem kind_of_binaryOp? {op : BinOp} (h : k.binaryOp? = some op) : k = op.kind := by
  unfold TokenKind.binaryOp? at h
  split at h <;> cases h <;> rfl

theorem kind_of_unaryOp? {op : UnaryOp} (h : k.unaryOp? = some op) : k = op.kind := by
  unfold TokenKind.unaryOp? at h
  split at h <;> cases h <;> rfl

theorem precedence_lt (op : BinOp) : op.precedence < operatorRows.length + 1 := by
  rw [← op.level_eq]
  exact level_lt_seven op

-- A run of operators of falling level is read from left to right.  What has been read so far is the
-- left operand of the next operator, which fits because the right operand before it took every
-- operator that binds tighter.  The recursion goes down by two levels at most for every token that it
-- passes, so twice the number of tokens left and a constant for each function bound it.
mutual

theorem takes_binaryAt : ∀ (fuel level : Nat) {p : Parser}, p.Ends →
    2 * p.ahead.length + 3 ≤ fuel → level ≤ operatorRows.length + 1 →
    p.Takes (binaryAt fuel level) fun ts id p' =>
      Reading p.arena.size level ts id p' ∧ NoneFrom level p'
  | 0, _, _, _, hfuel, _ => absurd hfuel (by omega)
  | fuel + 1, level, p, hp, hfuel, hlevel => by
    unfold binaryAt
    refine (takes_unary fuel hp (by omega)).bind ?_
    rintro ts left p1 h1 ⟨e, w, hwritten, hfills, htight⟩
    have hl1 := h1.length
    refine takes_climb fuel level (h1.ends hp) (by omega) hwritten hfills ?_ ?_
    · exact fun hw => Nat.le_trans hlevel (htight hw)
    · exact fun op _ hw => Nat.le_trans (Nat.le_of_lt (precedence_lt op)) (htight hw)

/-- Precedence climbing: an operand takes in the operators of the level and above that come next,
and the tokens stay written for what it becomes. -/
theorem takes_climb : ∀ (fuel level : Nat) {p : Parser}, p.Ends →
    2 * p.ahead.length + 2 ≤ fuel →
    ∀ {e : Expr} {w : Bool} {ts : List Token} {lo left : Nat}, e.Written w ts →
      e.At p.arena lo left ∧ p.arena.EndsAt lo left e.size → (w = false → level ≤ e.tightness) →
      (∀ op, p.kind.binaryOp? = some op → w = false → op.precedence ≤ e.tightness) →
      p.Takes (climb fuel level left) fun us id p' =>
        Reading lo level (ts ++ us) id p' ∧ NoneFrom level p'
  | 0, _, _, _, hfuel, _, _, _, _, _, _, _, _, _ => absurd hfuel (by omega)
  | fuel + 1, level, p, hp, hfuel, e, w, ts, lo, left, hwritten, hfills, htight, hnext => by
    unfold climb
    refine .get ?_
    have hdone : Reading lo level (ts ++ []) left p := by
      rw [List.append_nil]
      exact ⟨e, w, hwritten, hfills, htight⟩
    split
    · rename_i hnone
      refine .pure ⟨hdone, fun op hop => ?_⟩
      rw [hnone] at hop
      cases hop
    · rename_i op hop
      refine .ite (fun hlow => .pure ⟨hdone, fun op' hop' => ?_⟩) fun hhigh => ?_
      · cases hop.symm.trans hop'
        exact hlow
      refine .advance hp (TokenKind.ne_eof_of_binaryOp? hop) fun o ho => ?_
      have hok : o.kind = op.kind := (kind_of_ahead ho).symm.trans (kind_of_binaryOp? hop)
      have ho := ho.length
      refine (takes_binaryAt fuel (op.precedence + 1) (p := p.skip) hp (by omega)
        (precedence_lt op)).bind ?_
      rintro us right p1 h1 ⟨⟨e', w', hwritten', ⟨he', hs1, hc1⟩, htight'⟩, hnone⟩
      have hl1 := h1.length
      obtain ⟨he, hs, hc⟩ := hfills
      have hgrow := (Onward.grow p1 (.binary op left right)).arena
      have hwritten2 : (Expr.binary op e e').Written false (ts ++ o :: us) := by
        refine .binary hwritten hok hwritten' (fun hw => ?_) fun hw => ?_
        · rw [op.level_eq]
          exact hnext op hop hw
        · rw [op.level_eq]
          exact htight' hw
      have hfills2 : (Expr.binary op e e').At (p1.grow (.binary op left right)).arena lo
          p1.arena.size ∧ (p1.grow (.binary op left right)).arena.EndsAt lo p1.arena.size
            (Expr.binary op e e').size := by
        refine ⟨⟨left, right, p1.node_grow _, ?_, ?_, by omega⟩, size_grow .., ?_⟩
        · exact (h1.arena.trans hgrow).exprAt he
        · exact hgrow.exprAt (hs ▸ he')
        · simp only [size_grow, Expr.size, arena_skip] at *
          omega
      refine .push _ ?_
      -- an operator that comes next binds no tighter, so what is read so far is its left operand
      have hclimb := takes_climb fuel level (p := p1.grow (.binary op left right)) (h1.ends hp)
        (show 2 * p1.ahead.length + 2 ≤ fuel by omega) hwritten2 hfills2
        (fun _ => by rw [Expr.tightness, op.level_eq]; omega) (fun op' hop' _ => by
          rw [Expr.tightness, op.level_eq]
          exact Nat.le_of_lt_succ (hnone op' hop'))
      simpa only [List.append_assoc, List.cons_append] using hclimb

theorem takes_unary : ∀ (fuel : Nat) {p : Parser}, p.Ends → 2 * p.ahead.length + 2 ≤ fuel →
    p.Takes (unary fuel) (Reading p.arena.size (operatorRows.length + 1))
  | 0, _, _, hfuel => absurd hfuel (by omega)
  | fuel + 1, p, hp, hfuel => by
    unfold unary
    refine .get ?_
    split
    · rename_i op hop
      refine .advance hp (TokenKind.ne_eof_of_unaryOp? hop) fun o ho => ?_
      have hok : o.kind = op.kind := (kind_of_ahead ho).symm.trans (kind_of_unaryOp? hop)
      have ho := ho.length
      refine (takes_unary fuel (p := p.skip) hp (by omega)).bind ?_
      rintro us i p1 h1 ⟨e, w, hwritten, ⟨he, hs1, hc1⟩, htight⟩
      refine .pushed _ ⟨.unary op e, false, ?_, ⟨⟨i, node_grow .., ?_, by omega⟩, size_grow .., ?_⟩,
        fun _ => Nat.le_refl _⟩
      · rw [List.append_nil]
        exact .unary hok hwritten htight
      · exact (Onward.grow p1 _).arena.exprAt he
      · simp only [size_grow, Expr.size, arena_skip] at *
        omega
    · refine takes_primaryWith (fun q hq hlt => ?_) (fun q hq hlt => ?_) hp (Nat.le_refl _)
      · exact (takes_binaryAt fuel 1 hq (by omega) (by decide)).imp fun _ _ _ _ h => h.1
      · exact takes_moreArgs fuel hq (by omega)

theorem takes_moreArgs : ∀ (fuel : Nat) {p : Parser}, p.Ends → 2 * p.ahead.length + 2 ≤ fuel →
    p.Takes (moreArgs fuel) p.ReadingMore
  | 0, _, _, hfuel => absurd hfuel (by omega)
  | fuel + 1, p, hp, hfuel => by
    unfold moreArgs
    refine .accept hp (by decide) (fun c hc hck => ?_) ?_
    · have hc := hc.length
      refine (takes_binaryAt fuel 1 (p := p.skip) hp (by omega) (by decide)).bind ?_
      rintro ts i p1 h1 ⟨⟨e, w, hwritten, ⟨he, hs1, hc1⟩, _⟩, _⟩
      have hl1 := h1.length
      refine (takes_moreArgs fuel (h1.ends hp) (by omega)).bind ?_
      rintro us ids p2 h2 ⟨args, hwrittenMore, hrow, hc2⟩
      refine .pure ⟨e :: args, ?_, ⟨h2.arena.exprAt he, hs1 ▸ hrow⟩, ?_⟩
      · rw [List.append_nil]
        exact .cons hck hwritten hwrittenMore
      · simp only [argsSize, List.length_cons, arena_skip] at *
        omega
    · exact .pure ⟨[], .nil, Nat.le_refl p.arena.size, rfl⟩

end

/-- Reading an expression. -/
theorem takes_expr (hp : p.Ends) :
    p.Takes expr fun ts id p' => Reading p.arena.size 1 ts id p' ∧ NoneFrom 1 p' := by
  have hlen := p.ahead_length_le
  unfold expr
  exact .get (takes_binaryAt _ 1 hp (by omega) (by decide))

/-- Reading an expression is faithful.  The tokens it passes are written for the tree it yields,
with every bare operand binding as tightly as its place demands; without parentheses and commas they
are the tokens of the tree's parts in order.  No operator is left that could go on. -/
theorem expr_written {id : NodeId} (hp : p.Ends) (h : expr p = .ok id p') :
    let consumed := (p.tokens.extract p.index p'.index).toList
    ∃ e w, p'.arena.expr? id = some e ∧ e.Written w consumed ∧
      List.Forall₂ Token.Shows (ungrouped consumed) e.inOrder ∧
      p'.tokens = p.tokens ∧ p.index ≤ p'.index ∧ p'.kind.binaryOp? = none := by
  intro consumed
  obtain ⟨ts, hpass, ⟨e, w, hwritten, ⟨he, _⟩, _⟩, hnone⟩ := (takes_expr hp).of_ok h
  have hconsumed : consumed = ts := by
    have hlength : p'.index - p.index = ts.length := by
      rw [hpass.index, Nat.add_sub_cancel_left]
    show (p.tokens.extract p.index p'.index).toList = ts
    rw [Array.toList_extract, List.extract_eq_take_drop, hlength]
    show p.ahead.take ts.length = ts
    rw [hpass.passed, List.take_left]
  rw [hconsumed]
  refine ⟨e, w, he.expr?_eq, hwritten, hwritten.shows, hpass.tokens, ?_, ?_⟩
  · rw [hpass.index]
    exact Nat.le_add_right _ _
  · cases hop : p'.kind.binaryOp? with
    | none => rfl
    | some op =>
      have hpos : 1 ≤ op.precedence := by cases op <;> decide
      exact absurd (hnone op hop) (Nat.not_lt.mpr hpos)

theorem expr_written_sample :
    let tokens : List Token :=
      [⟨.assign, "=", 1⟩, ⟨.minus, "-", 1⟩, ⟨.openParen, "(", 1⟩, ⟨.openParen, "(", 1⟩,
        ⟨.varName, "$x", 1⟩, ⟨.plus, "+", 1⟩, ⟨.identifier, "f", 1⟩, ⟨.openParen, "(", 1⟩,
        ⟨.openParen, "(", 1⟩, ⟨.intLiteral, "2", 1⟩, ⟨.closeParen, ")", 1⟩, ⟨.comma, ",", 1⟩,
        ⟨.kwNull, "null", 1⟩, ⟨.closeParen, ")", 1⟩, ⟨.closeParen, ")", 1⟩, ⟨.closeParen, ")", 1⟩,
        ⟨.star, "*", 1⟩, ⟨.bang, "!", 1⟩, ⟨.intLiteral, "3", 1⟩, ⟨.semicolon, ";", 1⟩,
        ⟨.eof, "", 1⟩]
    let p : Parser := { ofTokens tokens with index := 1 }
    ∃ id p' e w, p.Ends ∧ expr p = .ok id p' ∧ p'.arena.expr? id = some e ∧
      e.Written w ((tokens.drop 1).take 18) ∧
      e.inOrder = [.unary .negate, .var "$x", .binary .add, .callee "f", .constant (.int 2),
        .constant .null, .binary .mul, .unary .not, .constant (.int 3)] := by
  intro tokens p
  have hp : p.Ends := ⟨tokens.take 20, ⟨.eof, "", 1⟩, rfl, rfl⟩
  obtain ⟨id, p', hexpr, hindex, horder⟩ : ∃ id p', expr p = .ok id p' ∧ p'.index = 19 ∧
      (p'.arena.expr? id).map Expr.inOrder = some [.unary .negate, .var "$x", .binary .add,
        .callee "f", .constant (.int 2), .constant .null, .binary .mul, .unary .not,
        .constant (.int 3)] := by
    decide +kernel
  have hslice : (p.tokens.extract p.index 19).toList = (tokens.drop 1).take 18 := by decide +kernel
  clear_value p
  obtain ⟨e, w, he, hwritten, -⟩ := expr_written hp hexpr
  rw [he] at horder
  rw [hindex, hslice] at hwritten
  exact ⟨id, p', e, w, hp, hexpr, he, hwritten, Option.some.inj horder⟩

end Parser

end Ifj22
