import Ifj22.Proofs.Tree.Layout
import Ifj22.Proofs.Tree.Read
set_option autoImplicit false

/-!
# Tree: the parts of a program at their places

Every place that the root of a program reaches holds a part of its tree: an expression, a statement,
or a link of a list.  A property of trees that all parts inherit from the whole is thus a property of
what stands at those places (`Arena.Stands.shows`).  The property may depend on the function that a part
stands in.
-/

namespace Ifj22

variable {root c : Nat} {body : List Stmt}

/-- The function around a part of a program, with its declared type; at the top level there is
none. -/
abbrev Around := Option (String × Option Ty)

/-- The root reaches the place, inside the given function.  A variable belongs to the function
around it, and `Reaches` does not show which one that is. -/
inductive Arena.Stands (a : Arena) (root : Nat) : Around → Nat → Prop
  | root : Stands a root none root
  | child {f : Around} {p c : Nat} (hp : Stands a root f p)
    (hn : ∀ name params declared body, a.node p ≠ .function name params declared body)
    (hc : c ∈ a.children p) : Stands a root f c
  | body {f : Around} {p body : Nat} {name : String} {params : List Param} {declared : Option Ty}
    (hp : Stands a root f p) (hn : a.node p = .function name params declared body) :
    Stands a root (some (name, declared)) body

theorem Arena.Reaches.stands {a : Arena} {i : Nat} (h : a.Reaches root i) :
    ∃ f, a.Stands root f i := by
  induction h with
  | refl => exact ⟨none, .root⟩
  | @tail p c _ hc ih =>
    obtain ⟨f, hf⟩ := ih
    cases hn : a.node p with
    | function name params declared body =>
      rw [Arena.children, hn, Node.children, List.mem_singleton] at hc
      subst hc
      exact ⟨_, .body hf hn⟩
    | _ => exact ⟨f, .child hf (by simp [hn]) hc⟩

/-- The parts of a tree inherit a property of statements, `S`, and of lists, `L`.  An expression
counts as a statement. -/
structure Inherits (S : Around → Stmt → Prop) (L : Around → List Stmt → Prop) : Prop where
  binary : ∀ {f op left right}, S f (.expr (.binary op left right)) →
    S f (.expr left) ∧ S f (.expr right)
  unary : ∀ {f op operand}, S f (.expr (.unary op operand)) → S f (.expr operand)
  call : ∀ {f name args}, S f (.expr (.call name args)) → ∀ e ∈ args, S f (.expr e)
  assign : ∀ {f target value}, S f (.assign target value) → S f (.expr value)
  ret : ∀ {f value}, S f (.ret (some value)) → S f (.expr value)
  block : ∀ {f body}, S f (.block body) → L f body
  ifElse : ∀ {f cond thenBody elseBody}, S f (.ifElse cond thenBody elseBody) →
    S f (.expr cond) ∧ L f thenBody ∧ ∀ body, elseBody = some body → L f body
  whileLoop : ∀ {f cond body}, S f (.whileLoop cond body) → S f (.expr cond) ∧ L f body
  function : ∀ {f name params declared body}, S f (.function name params declared body) →
    L (some (name, declared)) body
  concat : ∀ {f body s}, L f (body ++ [s]) → L f body ∧ S f s

/-- A part with the property stands at the place, or a link of a list of such parts; the parts below
it stand at the children of the place. -/
def Arena.Shows (a : Arena) (S : Around → Stmt → Prop) (L : Around → List Stmt → Prop) (f : Around)
    (i : Nat) : Prop :=
  match a.node i with
  | .int value => S f (.expr (.constant (.int value)))
  | .float value => S f (.expr (.constant (.float value)))
  | .str value => S f (.expr (.constant (.str value)))
  | .null => S f (.expr (.constant .null))
  | .var name => S f (.expr (.var name))
  | .binary op l r => ∃ left right lo, Expr.At a left lo l ∧ Expr.At a right (l + 1) r ∧
    S f (.expr (.binary op left right))
  | .unary op o => ∃ operand lo, Expr.At a operand lo o ∧ S f (.expr (.unary op operand))
  | .call name link => ∃ args lo, ArgsAt a args lo i link ∧ S f (.expr (.call name args))
  | .argument v next => ∃ e rest lo hi, Expr.At a e lo v ∧ ArgsAt a rest (v + 1) hi next ∧
    ∀ x ∈ e :: rest, S f (.expr x)
  | .assign target v => ∃ value lo, Expr.At a value lo v ∧ S f (.assign target value)
  | .ret v => ∃ value, Option.Rel (fun v e => ∃ lo, Expr.At a e lo v) v value ∧ S f (.ret value)
  | .sequence _ _ => ∃ body lo, ListAt a body none lo i ∧ L f body
  | .ifElse c t e => ∃ cond thenBody elseBody lo, Expr.At a cond lo c ∧
    ListAt a thenBody none (c + 1) t ∧
    Option.Rel (fun e body => ListAt a body none (t + 1) e) e elseBody ∧
    S f (.ifElse cond thenBody elseBody)
  | .whileLoop c b => ∃ cond body lo, Expr.At a cond lo c ∧ ListAt a body none (c + 1) b ∧
    S f (.whileLoop cond body)
  | .function name params declared b => ∃ body lo, ListAt a body none lo b ∧
    S f (.function name params declared body)

section

variable {a : Arena} {S : Around → Stmt → Prop} {L : Around → List Stmt → Prop} {f : Around}
  {lo i : Nat}

theorem Expr.At.shows {e : Expr} (h : e.At a lo i) (hs : S f (.expr e)) : a.Shows S L f i := by
  unfold Arena.Shows
  cases e with
  | constant c =>
    rw [h.1]
    cases c <;> exact hs
  | var name => rw [h.1]; exact hs
  | binary op left right =>
    obtain ⟨l, r, hn, hl, hr, _⟩ := h
    rw [hn]
    exact ⟨left, right, lo, hl, hr, hs⟩
  | unary op operand =>
    obtain ⟨o, hn, ho, _⟩ := h
    rw [hn]
    exact ⟨operand, lo, ho, hs⟩
  | call name args =>
    obtain ⟨link, hn, hargs⟩ := h
    rw [hn]
    exact ⟨args, lo, hargs, hs⟩

theorem ListAt.shows (h : ListAt a body none lo i) (hs : L f body) : a.Shows S L f i := by
  obtain ⟨prev, last, hn⟩ := h.isLink
  unfold Arena.Shows
  rw [hn]
  exact ⟨body, lo, h, hs⟩

theorem ArgsAt.shows {args : List Expr} {hi : Nat} (h : ArgsAt a args lo hi (some i))
    (hs : ∀ e ∈ args, S f (.expr e)) : a.Shows S L f i := by
  cases args with
  | nil => cases h.1
  | cons e rest =>
    obtain ⟨l, v, next, hlink, _, hn, he, hrest⟩ := h
    cases hlink
    unfold Arena.Shows
    rw [hn]
    exact ⟨e, rest, lo, i, he, hrest, hs⟩

variable (hinherits : Inherits S L)
include hinherits

/-- A part with the property shows at its place. -/
theorem Stmt.At.shows {s : Stmt} (h : s.At a lo i) (hs : S f s) : a.Shows S L f i := by
  cases s with
  | expr value => exact Expr.At.shows h hs
  | block body => exact ListAt.shows h (hinherits.block hs)
  | assign target value =>
    obtain ⟨v, hn, hv, _⟩ := h
    unfold Arena.Shows
    rw [hn]
    exact ⟨value, lo, hv, hs⟩
  | ret value =>
    unfold Arena.Shows
    cases value with
    | none => rw [h.1]; exact ⟨none, .none, hs⟩
    | some value =>
      obtain ⟨v, hn, hv, _⟩ := h
      rw [hn]
      exact ⟨some value, .some ⟨lo, hv⟩, hs⟩
  | ifElse cond thenBody elseBody =>
    unfold Arena.Shows
    cases elseBody with
    | none =>
      obtain ⟨c, t, hn, hc, ht, _⟩ := h
      rw [hn]
      exact ⟨cond, thenBody, none, lo, hc, ht, .none, hs⟩
    | some elseBody =>
      obtain ⟨c, t, e, hn, hc, ht, he, _⟩ := h
      rw [hn]
      exact ⟨cond, thenBody, some elseBody, lo, hc, ht, .some he, hs⟩
  | whileLoop cond body =>
    obtain ⟨c, b, hn, hc, hb, _⟩ := h
    unfold Arena.Shows
    rw [hn]
    exact ⟨cond, body, lo, hc, hb, hs⟩
  | function name params declared body =>
    obtain ⟨b, hn, hb, _⟩ := h
    unfold Arena.Shows
    rw [hn]
    exact ⟨body, lo, hb, hs⟩

/-- What stands at the links below a link, and at its statement. -/
theorem ListAt.shows_child (h : ListAt a body none lo i) (hs : L f body) (hc : c ∈ a.children i) :
    a.Shows S L f c := by
  unfold Arena.children at hc
  rcases body.eq_nil_or_concat' with rfl | ⟨init, s, rfl⟩
  · rcases h with h | ⟨_, hempty, _, _⟩
    · cases h
    · rw [hempty] at hc
      cases hc
  · obtain ⟨k, _, prev, _, hlast, hs', hprev⟩ := listAt_concat.mp h
    obtain ⟨hinit, hlasts⟩ := hinherits.concat hs
    rw [hlast, Node.children, List.mem_append, Option.mem_toList, Option.mem_toList] at hc
    rcases hc with rfl | hc
    · rcases hprev with ⟨_, hnone, _⟩ | ⟨_, p, hbefore, hp, _⟩
      · cases hnone
      · cases hp
        exact hbefore.shows hinit
    · cases hc
      exact hs'.shows hinherits hlasts

/-- What stands at the children of a place, outside functions. -/
theorem Arena.Shows.child (h : a.Shows S L f i) (hc : c ∈ a.children i)
    (hfunction : ∀ name params declared body, a.node i ≠ .function name params declared body) :
    a.Shows S L f c := by
  unfold Arena.Shows at h
  have hnode := hc
  unfold Arena.children at hnode
  cases hn : a.node i with
  | int | float | str | null | var => rw [hn] at hnode; cases hnode
  | binary op l r =>
    rw [hn] at h
    obtain ⟨left, right, lo, hl, hr, hs⟩ := h
    obtain ⟨hsl, hsr⟩ := hinherits.binary hs
    rw [hn, Node.children, List.mem_pair] at hnode
    rcases hnode with rfl | rfl
    · exact hl.shows hsl
    · exact hr.shows hsr
  | unary op o =>
    rw [hn] at h
    obtain ⟨operand, lo, ho, hs⟩ := h
    rw [hn, Node.children, List.mem_singleton] at hnode
    exact hnode ▸ ho.shows (hinherits.unary hs)
  | call name link =>
    rw [hn] at h
    obtain ⟨args, lo, hargs, hs⟩ := h
    rw [hn, Node.children, Option.mem_toList] at hnode
    cases hnode
    exact hargs.shows (hinherits.call hs)
  | argument v next =>
    rw [hn] at h
    obtain ⟨e, rest, lo, l, he, hrest, hs⟩ := h
    rw [hn, Node.children, List.mem_cons, Option.mem_toList] at hnode
    rcases hnode with rfl | rfl
    · exact he.shows (hs _ (.head _))
    · exact hrest.shows fun x hx => hs x (.tail _ hx)
  | assign target v =>
    rw [hn] at h
    obtain ⟨value, lo, hv, hs⟩ := h
    rw [hn, Node.children, List.mem_singleton] at hnode
    exact hnode ▸ hv.shows (hinherits.assign hs)
  | ret v =>
    rw [hn] at h
    obtain ⟨value, hv, hs⟩ := h
    rw [hn, Node.children, Option.mem_toList] at hnode
    cases hnode
    cases hv with
    | some hv => obtain ⟨_, hv⟩ := hv; exact hv.shows (hinherits.ret hs)
  | sequence prev last =>
    rw [hn] at h
    obtain ⟨body, lo, hat, hs⟩ := h
    exact hat.shows_child hinherits hs hc
  | ifElse k t e =>
    rw [hn] at h
    obtain ⟨cond, thenBody, elseBody, lo, hk, ht, he, hs⟩ := h
    obtain ⟨hsc, hst, hse⟩ := hinherits.ifElse hs
    rw [hn, Node.children, List.mem_cons, List.mem_cons, Option.mem_toList] at hnode
    rcases hnode with rfl | rfl | rfl
    · exact hk.shows hsc
    · exact ht.shows hst
    · cases he with
      | some he => exact he.shows (hse _ rfl)
  | whileLoop k b =>
    rw [hn] at h
    obtain ⟨cond, body, lo, hk, hb, hs⟩ := h
    obtain ⟨hsc, hsb⟩ := hinherits.whileLoop hs
    rw [hn, Node.children, List.mem_pair] at hnode
    rcases hnode with rfl | rfl
    · exact hk.shows hsc
    · exact hb.shows hsb
  | function name params declared b => exact absurd hn (hfunction name params declared b)

/-- Every place below one that shows a part with the property does so too. -/
theorem Arena.Shows.stands (hroot : a.Shows S L none root) (h : a.Stands root f i) :
    a.Shows S L f i := by
  induction h with
  | root => exact hroot
  | child _ hn hc ih => exact ih.child hinherits hc hn
  | body _ hn ih =>
    unfold Arena.Shows at ih
    rw [hn] at ih
    obtain ⟨body, lo, hb, hs⟩ := ih
    exact hb.shows (hinherits.function hs)

/-- Every place of a program whose list has the property shows a part that has it. -/
theorem Arena.Stands.shows (hat : ListAt a body none lo root) (hbody : L none body)
    (h : a.Stands root f i) : a.Shows S L f i :=
  (hat.shows hbody).stands hinherits h

end

/-- A place that is no link of an argument list holds a statement. -/
theorem Arena.Shows.stmtAt {a : Arena} {S : Around → Stmt → Prop}
    {L : Around → List Stmt → Prop} {f : Around} {i : Nat} (h : a.Shows S L f i)
    (hbelow : ∀ c ∈ a.children i, c < i) (hlink : ∀ value next, a.node i ≠ .argument value next) :
    ∃ s lo, Stmt.At a s lo i := by
  unfold Arena.Shows at h
  unfold Arena.children at hbelow
  cases hn : a.node i with
  | int value => exact ⟨.expr (.constant (.int value)), i, hn, Nat.le_refl i⟩
  | float value => exact ⟨.expr (.constant (.float value)), i, hn, Nat.le_refl i⟩
  | str value => exact ⟨.expr (.constant (.str value)), i, hn, Nat.le_refl i⟩
  | null => exact ⟨.expr (.constant .null), i, hn, Nat.le_refl i⟩
  | var name => exact ⟨.expr (.var name), i, hn, Nat.le_refl i⟩
  | argument value next => exact absurd hn (hlink value next)
  | binary op l r =>
    rw [hn] at h hbelow
    obtain ⟨left, right, lo, hl, hr, _⟩ := h
    exact ⟨.expr (.binary op left right), lo, l, r, hn, hl, hr, hbelow r (by simp [Node.children])⟩
  | unary op o =>
    rw [hn] at h hbelow
    obtain ⟨operand, lo, ho, _⟩ := h
    exact ⟨.expr (.unary op operand), lo, o, hn, ho, hbelow o (.head _)⟩
  | call name link =>
    rw [hn] at h
    obtain ⟨args, lo, hargs, _⟩ := h
    exact ⟨.expr (.call name args), lo, link, hn, hargs⟩
  | assign target v =>
    rw [hn] at h hbelow
    obtain ⟨value, lo, hv, _⟩ := h
    exact ⟨.assign target value, lo, v, hn, hv, hbelow v (.head _)⟩
  | ret v =>
    rw [hn] at h hbelow
    obtain ⟨value, hv, _⟩ := h
    cases hv with
    | none => exact ⟨.ret none, i, hn, Nat.le_refl i⟩
    | @some v value hv =>
      obtain ⟨lo, hv⟩ := hv
      exact ⟨.ret (some value), lo, v, hn, hv, hbelow v (.head _)⟩
  | sequence prev last =>
    rw [hn] at h
    obtain ⟨body, lo, hat, _⟩ := h
    exact ⟨.block body, lo, hat⟩
  | ifElse k t e =>
    rw [hn] at h hbelow
    obtain ⟨cond, thenBody, elseBody, lo, hk, ht, he, _⟩ := h
    cases he with
    | none =>
      exact ⟨.ifElse cond thenBody none, lo, k, t, hn, hk, ht, hbelow t (by simp [Node.children])⟩
    | @some e elseBody he =>
      exact ⟨.ifElse cond thenBody (some elseBody), lo, k, t, e, hn, hk, ht, he,
        hbelow e (by simp [Node.children])⟩
  | whileLoop k b =>
    rw [hn] at h hbelow
    obtain ⟨cond, body, lo, hk, hb, _⟩ := h
    exact ⟨.whileLoop cond body, lo, k, b, hn, hk, hb, hbelow b (by simp [Node.children])⟩
  | function name params declared b =>
    rw [hn] at h hbelow
    obtain ⟨body, lo, hb, _⟩ := h
    exact ⟨.function name params declared body, lo, b, hn, hb, hbelow b (.head _)⟩

end Ifj22
