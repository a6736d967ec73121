import Ifj22.Proofs.Tree.Syntax
set_option autoImplicit false

/-!
# Tree: trees in an arena

`At` says that the places of an arena from `lo` to `id` hold a tree, with its root at `id`.  The
parts of a tree lie in disjoint ranges of places, in source order and below the root.  So no place
serves two parts of a program, and an edit inside the range of one part leaves the others alone:
that is what makes in-place edits of an arena safe.  Places inside the range of a tree that it does
not use are allowed; edits leave such places behind.
-/

namespace Ifj22

variable {a : Arena} {id : Nat}

/-- A walk down from a place is bounded by a number above it, and may take a step. -/
theorem exists_fuel {n fuel : Nat} (h : n < fuel) : ∃ k, fuel = k + 1 := ⟨fuel - 1, by omega⟩

/-! ## Expressions -/

mutual

/-- The places from `lo` to `id` hold the expression, with its root at `id`. -/
def Expr.At (a : Arena) : Expr → Nat → Nat → Prop
  | .constant c, lo, id => a.node id = c.node ∧ lo ≤ id
  | .var name, lo, id => a.node id = .var name ∧ lo ≤ id
  | .binary op left right, lo, id =>
    ∃ i j : Nat, a.node id = .binary op i j ∧ left.At a lo i ∧ right.At a (i + 1) j ∧ j < id
  | .unary op operand, lo, id => ∃ i : Nat, a.node id = .unary op i ∧ operand.At a lo i ∧ i < id
  | .call name args, lo, id => ∃ link : Option Nat, a.node id = .call name link ∧ ArgsAt a args lo id link

/-- The places from `lo` on and below `hi` hold the arguments, with their first link at `link`. -/
def ArgsAt (a : Arena) : List Expr → Nat → Nat → Option Nat → Prop
  | [], lo, hi, link => link = none ∧ lo ≤ hi
  | e :: rest, lo, hi, link =>
    ∃ (l i : Nat) (next : Option Nat), link = some l ∧ l < hi ∧ a.node l = .argument i next ∧
      e.At a lo i ∧ ArgsAt a rest (i + 1) l next

end

/-! ## Statements -/

mutual

/-- The places from `lo` to `id` hold the statement, with its root at `id`. -/
def Stmt.At (a : Arena) : Stmt → Nat → Nat → Prop
  | .assign target value, lo, id =>
    ∃ i : Nat, a.node id = .assign target i ∧ value.At a lo i ∧ i < id
  | .expr value, lo, id => value.At a lo id
  | .ret none, lo, id => a.node id = .ret none ∧ lo ≤ id
  | .ret (some value), lo, id => ∃ i : Nat, a.node id = .ret (some i) ∧ value.At a lo i ∧ i < id
  | .block body, lo, id => ListAt a body none lo id
  | .ifElse cond thenBody none, lo, id =>
    ∃ c i : Nat, a.node id = .ifElse c i none ∧ cond.At a lo c ∧ ListAt a thenBody none (c + 1) i ∧
      i < id
  | .ifElse cond thenBody (some elseBody), lo, id =>
    ∃ c i j : Nat, a.node id = .ifElse c i (some j) ∧ cond.At a lo c ∧
      ListAt a thenBody none (c + 1) i ∧ ListAt a elseBody none (i + 1) j ∧ j < id
  | .whileLoop cond body, lo, id =>
    ∃ c i : Nat, a.node id = .whileLoop c i ∧ cond.At a lo c ∧ ListAt a body none (c + 1) i ∧ i < id
  | .function name params declared body, lo, id =>
    ∃ i : Nat, a.node id = .function name params declared i ∧ ListAt a body none lo i ∧ i < id

/-- The places from `lo` to `id` hold the statements that follow the link `before`, with the last
link of the whole list at `id`. -/
def ListAt (a : Arena) : List Stmt → Option Nat → Nat → Nat → Prop
  | [], before, lo, id =>
    before = some id ∨ (before = none ∧ a.node id = .empty ∧ id < a.size ∧ lo ≤ id)
  | s :: rest, before, lo, id =>
    ∃ i link : Nat, s.At a lo i ∧ i < link ∧ a.node link = .sequence before (some i) ∧
      ListAt a rest (some link) (link + 1) id

end

/-- The arena of a program holds the statements. -/
def Program.Holds (p : Program) (body : List Stmt) : Prop := ListAt p.arena body none 0 p.root

/-! ## Ranges -/

theorem Arena.lt_size_of_node {n : Node} (hn : a.node id = n) (h : n ≠ .empty) : id < a.size := by
  refine Nat.lt_of_not_le fun hge => h (hn.symm.trans ?_)
  simp only [Arena.node, Arena.size] at *
  rw [Array.getD_eq_getD_getElem?, Array.getElem?_eq_none hge, Option.getD_none]

mutual

theorem Expr.At.le {a : Arena} {lo id : Nat} : ∀ {e : Expr}, e.At a lo id → lo ≤ id
  | .constant _, h => h.2
  | .var _, h => h.2
  | .binary _ _ _, ⟨i, j, _, hl, hr, hj⟩ => by
    have := hl.le
    have := hr.le
    omega
  | .unary _ _, ⟨i, _, ho, hi⟩ => by
    have := ho.le
    omega
  | .call _ _, ⟨_, _, hargs⟩ => hargs.le

theorem ArgsAt.le {a : Arena} {lo hi : Nat} {link : Option Nat} :
    ∀ {args : List Expr}, ArgsAt a args lo hi link → lo ≤ hi
  | [], h => h.2
  | _ :: _, ⟨l, i, _, _, hl, _, he, hrest⟩ => by
    have := he.le
    have := hrest.le
    omega

end

mutual

theorem Stmt.At.le {a : Arena} {lo id : Nat} : ∀ {s : Stmt}, s.At a lo id → lo ≤ id
  | .assign _ _, ⟨i, _, hv, hi⟩ => by
    have := hv.le
    omega
  | .expr _, h => Expr.At.le h
  | .ret none, h => h.2
  | .ret (some _), ⟨i, _, hv, hi⟩ => by
    have := hv.le
    omega
  | .block _, h => ListAt.le h
  | .ifElse _ _ none, ⟨c, i, _, hc, ht, hi⟩ => by
    have := hc.le
    have := ht.le
    omega
  | .ifElse _ _ (some _), ⟨c, i, j, _, hc, ht, he, hj⟩ => by
    have := hc.le
    have := ht.le
    have := he.le
    omega
  | .whileLoop _ _, ⟨c, i, _, hc, hb, hi⟩ => by
    have := hc.le
    have := hb.le
    omega
  | .function _ _ _ _, ⟨i, _, hb, hi⟩ => by
    have := hb.le
    omega

/-- The last link of a list is not before the links that it extends. -/
theorem ListAt.before_le {a : Arena} {id : Nat} :
    ∀ {body : List Stmt} {b lo : Nat}, ListAt a body (some b) lo id → b < lo → b ≤ id
  | [], b, lo, h, _ => by
    rcases h with h | h
    · exact Nat.le_of_eq (Option.some.inj h)
    · exact absurd h.1 (by simp)
  | _ :: _, b, lo, ⟨i, link, hs, hi, _, hrest⟩, hb => by
    have := hs.le
    have := hrest.before_le (Nat.lt_succ_self link)
    omega

theorem ListAt.le {a : Arena} {lo id : Nat} :
    ∀ {body : List Stmt}, ListAt a body none lo id → lo ≤ id
  | [], h => by
    rcases h with h | h
    · exact absurd h (by simp)
    · exact h.2.2.2
  | _ :: _, ⟨i, link, hs, hi, _, hrest⟩ => by
    have := hs.le
    have := hrest.before_le (Nat.lt_succ_self link)
    omega

end

/-! ## Roots -/

/-- What a node stands for. -/
inductive Node.Kind
  | expr | assign | ret | list | ifElse | whileLoop | function | argument

def Node.kind : Node → Kind
  | .assign _ _ => .assign
  | .ret _ => .ret
  | .sequence _ _ => .list
  | .ifElse _ _ _ => .ifElse
  | .whileLoop _ _ => .whileLoop
  | .function _ _ _ _ => .function
  | .argument _ _ => .argument
  | _ => .expr

def Stmt.kind : Stmt → Node.Kind
  | .assign _ _ => .assign
  | .expr _ => .expr
  | .ret _ => .ret
  | .block _ => .list
  | .ifElse _ _ _ => .ifElse
  | .whileLoop _ _ => .whileLoop
  | .function _ _ _ _ => .function

/-- The last link of a statement list is a link. -/
theorem ListAt.node_eq : ∀ {body : List Stmt} {before : Option Nat}
    {lo : Nat}, ListAt a body before lo id →
      (∀ b, before = some b → ∃ prev stmt, a.node b = .sequence prev stmt) →
      ∃ prev stmt, a.node id = .sequence prev stmt
  | [], before, lo, h, hb => by
    rcases h with h | h
    · exact hb id h
    · exact ⟨none, none, h.2.1⟩
  | _ :: _, before, lo, ⟨i, link, _, _, hn, hrest⟩, _ =>
    hrest.node_eq fun b hb => by
      rw [← Option.some.inj hb]
      exact ⟨before, some i, hn⟩

theorem ListAt.isLink {body : List Stmt} {lo : Nat} (h : ListAt a body none lo id) :
    ∃ prev stmt, a.node id = .sequence prev stmt :=
  h.node_eq fun _ hb => absurd hb (by simp)

theorem Expr.At.kind_eq {e : Expr} {lo : Nat} (h : e.At a lo id) : (a.node id).kind = .expr := by
  cases e with
  | constant c => rw [h.1]; cases c <;> rfl
  | var name => rw [h.1]; rfl
  | binary op left right => obtain ⟨i, j, hn, _⟩ := h; rw [hn]; rfl
  | unary op operand => obtain ⟨i, hn, _⟩ := h; rw [hn]; rfl
  | call name args => obtain ⟨link, hn, _⟩ := h; rw [hn]; rfl

/-- The root of a statement tells what the statement is. -/
theorem Stmt.At.kind_eq {s : Stmt} {lo : Nat} (h : s.At a lo id) : (a.node id).kind = s.kind := by
  cases s with
  | assign target value => obtain ⟨i, hn, _⟩ := h; rw [hn]; rfl
  | expr value => exact Expr.At.kind_eq h
  | ret value =>
    cases value with
    | none => rw [h.1]; rfl
    | some value => obtain ⟨i, hn, _⟩ := h; rw [hn]; rfl
  | block body => obtain ⟨prev, last, hn⟩ := ListAt.isLink h; rw [hn]; rfl
  | ifElse cond thenBody elseBody =>
    cases elseBody with
    | none => obtain ⟨c, i, hn, _⟩ := h; rw [hn]; rfl
    | some elseBody => obtain ⟨c, i, j, hn, _⟩ := h; rw [hn]; rfl
  | whileLoop cond body => obtain ⟨c, i, hn, _⟩ := h; rw [hn]; rfl
  | function name params declared body => obtain ⟨i, hn, _⟩ := h; rw [hn]; rfl

theorem Arena.lt_size_of_kind (h : (a.node id).kind ≠ .list) : id < a.size :=
  lt_size_of_node rfl fun hempty => h (by rw [hempty]; rfl)

theorem Expr.At.lt_size {e : Expr} {lo : Nat} (h : e.At a lo id) : id < a.size :=
  Arena.lt_size_of_kind (by rw [h.kind_eq]; nofun)

/-- The last link of a list is a link of the arena. -/
theorem ListAt.last_lt_size :
    ∀ {body : List Stmt} {before : Option Nat} {lo : Nat}, ListAt a body before lo id →
      (∀ b, before = some b → b < a.size) → id < a.size
  | [], before, lo, h, hb => by
    rcases h with h | h
    · exact hb id h
    · exact h.2.2.1
  | _ :: _, before, lo, ⟨i, link, _, _, hn, hrest⟩, _ => by
    refine hrest.last_lt_size fun b hb => ?_
    rw [← Option.some.inj hb]
    exact Arena.lt_size_of_node hn nofun

theorem ListAt.lt_size {body : List Stmt} {lo : Nat} (h : ListAt a body none lo id) : id < a.size :=
  h.last_lt_size fun _ hb => absurd hb (by simp)

theorem Stmt.At.lt_size {s : Stmt} {lo : Nat} (h : s.At a lo id) : id < a.size := by
  cases s with
  | block body => exact ListAt.lt_size h
  | _ => exact Arena.lt_size_of_kind (by rw [h.kind_eq]; nofun)

/-! ## A tree depends on its range only -/

mutual

/-- A tree depends on the nodes of its range only, and the range may grow to the left. -/
theorem Expr.At.congr {a a' : Arena} {lo lo' id : Nat} (hlo : lo' ≤ lo) :
    ∀ {e : Expr}, e.At a lo id → (∀ i, lo ≤ i → i ≤ id → a'.node i = a.node i) → e.At a' lo' id
  | .constant _, h, hsame => ⟨(hsame id h.2 (Nat.le_refl id)).trans h.1, Nat.le_trans hlo h.2⟩
  | .var _, h, hsame => ⟨(hsame id h.2 (Nat.le_refl id)).trans h.1, Nat.le_trans hlo h.2⟩
  | .binary _ _ _, ⟨i, j, hn, hl, hr, hj⟩, hsame => by
    have hli := hl.le
    have hrj := hr.le
    refine ⟨i, j, ?_, ?_, ?_, hj⟩
    · rw [hsame id (by omega) (Nat.le_refl id), hn]
    · exact hl.congr hlo fun k h1 h2 => hsame k h1 (by omega)
    · exact hr.congr (Nat.le_refl _) fun k h1 h2 => hsame k (by omega) (by omega)
  | .unary _ _, ⟨i, hn, ho, hi⟩, hsame => by
    have hle := ho.le
    refine ⟨i, ?_, ?_, hi⟩
    · rw [hsame id (by omega) (Nat.le_refl id), hn]
    · exact ho.congr hlo fun k h1 h2 => hsame k h1 (by omega)
  | .call _ _, ⟨link, hn, hargs⟩, hsame => by
    have hle := hargs.le
    refine ⟨link, ?_, ?_⟩
    · rw [hsame id hle (Nat.le_refl id), hn]
    · exact hargs.congr hlo fun k h1 h2 => hsame k h1 (by omega)

theorem ArgsAt.congr {a a' : Arena} {lo lo' hi : Nat} {link : Option Nat} (hlo : lo' ≤ lo) :
    ∀ {args : List Expr}, ArgsAt a args lo hi link →
      (∀ i, lo ≤ i → i < hi → a'.node i = a.node i) → ArgsAt a' args lo' hi link
  | [], h, _ => ⟨h.1, Nat.le_trans hlo h.2⟩
  | _ :: _, ⟨l, i, next, hlink, hl, hn, he, hrest⟩, hsame => by
    have hei := he.le
    have hil := hrest.le
    refine ⟨l, i, next, hlink, hl, ?_, ?_, ?_⟩
    · rw [hsame l (by omega) hl, hn]
    · exact he.congr hlo fun k h1 h2 => hsame k h1 (by omega)
    · exact hrest.congr (Nat.le_refl _) fun k h1 h2 => hsame k (by omega) (by omega)

end

mutual

/-- A statement stands in an arena by the nodes of its range alone. -/
theorem Stmt.At.congr {a a' : Arena} (hsize : a.size ≤ a'.size) {lo lo' id : Nat} (hlo : lo' ≤ lo) :
    ∀ {s : Stmt}, s.At a lo id → (∀ i, lo ≤ i → i ≤ id → a'.node i = a.node i) → s.At a' lo' id
  | .assign _ _, ⟨i, hn, hv, hi⟩, hsame => by
    have hle := hv.le
    refine ⟨i, ?_, ?_, hi⟩
    · rw [hsame id (by omega) (Nat.le_refl id), hn]
    · exact hv.congr hlo fun k h1 h2 => hsame k h1 (by omega)
  | .expr _, h, hsame => Expr.At.congr hlo h hsame
  | .ret none, h, hsame => ⟨(hsame id h.2 (Nat.le_refl id)).trans h.1, Nat.le_trans hlo h.2⟩
  | .ret (some _), ⟨i, hn, hv, hi⟩, hsame => by
    have hle := hv.le
    refine ⟨i, ?_, ?_, hi⟩
    · rw [hsame id (by omega) (Nat.le_refl id), hn]
    · exact hv.congr hlo fun k h1 h2 => hsame k h1 (by omega)
  | .block _, h, hsame => ListAt.congr hsize hlo h hsame
  | .ifElse _ _ none, ⟨c, i, hn, hc, ht, hi⟩, hsame => by
    have hcle := hc.le
    have htle := ht.le
    refine ⟨c, i, ?_, ?_, ?_, hi⟩
    · rw [hsame id (by omega) (Nat.le_refl id), hn]
    · exact hc.congr hlo fun k h1 h2 => hsame k h1 (by omega)
    · exact ht.congr hsize (Nat.le_refl _) fun k h1 h2 => hsame k (by omega) (by omega)
  | .ifElse _ _ (some _), ⟨c, i, j, hn, hc, ht, he, hj⟩, hsame => by
    have hcle := hc.le
    have htle := ht.le
    have hele := he.le
    refine ⟨c, i, j, ?_, ?_, ?_, ?_, hj⟩
    · rw [hsame id (by omega) (Nat.le_refl id), hn]
    · exact hc.congr hlo fun k h1 h2 => hsame k h1 (by omega)
    · exact ht.congr hsize (Nat.le_refl _) fun k h1 h2 => hsame k (by omega) (by omega)
    · exact he.congr hsize (Nat.le_refl _) fun k h1 h2 => hsame k (by omega) (by omega)
  | .whileLoop _ _, ⟨c, i, hn, hc, hb, hi⟩, hsame => by
    have hcle := hc.le
    have hble := hb.le
    refine ⟨c, i, ?_, ?_, ?_, hi⟩
    · rw [hsame id (by omega) (Nat.le_refl id), hn]
    · exact hc.congr hlo fun k h1 h2 => hsame k h1 (by omega)
    · exact hb.congr hsize (Nat.le_refl _) fun k h1 h2 => hsame k (by omega) (by omega)
  | .function _ _ _ _, ⟨i, hn, hb, hi⟩, hsame => by
    have hble := hb.le
    refine ⟨i, ?_, ?_, hi⟩
    · rw [hsame id (by omega) (Nat.le_refl id), hn]
    · exact hb.congr hsize hlo fun k h1 h2 => hsame k h1 (by omega)

theorem ListAt.congr {a a' : Arena} (hsize : a.size ≤ a'.size) {id : Nat} :
    ∀ {body : List Stmt} {before : Option Nat} {lo lo' : Nat}, lo' ≤ lo →
      ListAt a body before lo id →
      (∀ i, lo ≤ i → i ≤ id → a'.node i = a.node i) → ListAt a' body before lo' id
  | [], before, lo, lo', hlo, h, hsame => by
    rcases h with h | ⟨hb, hn, hid, hle⟩
    · exact .inl h
    · exact .inr ⟨hb, (hsame id hle (Nat.le_refl id)).trans hn, by omega, by omega⟩
  | _ :: _, before, lo, lo', hlo, ⟨i, link, hs, hi, hn, hrest⟩, hsame => by
    have hsle := hs.le
    have hlink := hrest.before_le (Nat.lt_succ_self link)
    refine ⟨i, link, ?_, hi, ?_, ?_⟩
    · exact hs.congr hsize hlo fun k h1 h2 => hsame k h1 (by omega)
    · rw [hsame link (by omega) hlink, hn]
    · exact hrest.congr hsize (Nat.le_refl _) fun k h1 h2 => hsame k (by omega) (by omega)

end

theorem ListAt.mono {body : List Stmt} {lo lo' : Nat} (h : ListAt a body none lo id)
    (hlo : lo' ≤ lo) : ListAt a body none lo' id :=
  h.congr (Nat.le_refl _) hlo fun _ _ _ => rfl

/-! ## Arenas that grow -/

/-- The second arena has the places of the first, with their nodes. -/
structure Arena.Extends (a a' : Arena) : Prop where
  size : a.size ≤ a'.size
  node : ∀ i, i < a.size → a'.node i = a.node i

namespace Arena.Extends

variable {a a' a'' : Arena} {lo id : Nat}

theorem refl (a : Arena) : a.Extends a := ⟨Nat.le_refl _, fun _ _ => rfl⟩

theorem trans (h1 : a.Extends a') (h2 : a'.Extends a'') : a.Extends a'' where
  size := Nat.le_trans h1.size h2.size
  node i hi := (h2.node i (Nat.lt_of_lt_of_le hi h1.size)).trans (h1.node i hi)

theorem push (a : Arena) (n : Node) : a.Extends (a.push n).2 where
  size := by simp
  node i hi := by rw [node_push, if_neg (Nat.ne_of_lt hi)]

/-- A tree that was there before is there still. -/
theorem exprAt (h : a.Extends a') {e : Expr} (he : e.At a lo id) : e.At a' lo id :=
  he.congr (Nat.le_refl lo) fun i _ hi => h.node i (Nat.lt_of_le_of_lt hi he.lt_size)

theorem stmtAt (h : a.Extends a') {s : Stmt} (hs : s.At a lo id) : s.At a' lo id :=
  hs.congr h.size (Nat.le_refl lo) fun i _ hi => h.node i (Nat.lt_of_le_of_lt hi hs.lt_size)

theorem listAt (h : a.Extends a') {body : List Stmt} (hb : ListAt a body none lo id) :
    ListAt a' body none lo id :=
  hb.congr h.size (Nat.le_refl lo) fun i _ hi => h.node i (Nat.lt_of_le_of_lt hi hb.lt_size)

end Arena.Extends

/-! ## The last statement of a list -/

/-- A list ends in a link to its last statement and to the links before it. -/
theorem listAt_concat {s : Stmt} :
    ∀ {body : List Stmt} {before : Option Nat} {lo : Nat}, ListAt a (body ++ [s]) before lo id ↔
      ∃ (i lo' : Nat) (prev : Option Nat), i < id ∧ a.node id = .sequence prev (some i) ∧
        s.At a lo' i ∧ ((body = [] ∧ prev = before ∧ lo' = lo) ∨
          (body ≠ [] ∧ ∃ p, ListAt a body before lo p ∧ prev = some p ∧ lo' = p + 1))
  | [], before, lo => by
    constructor
    · rintro ⟨i, link, hs, hi, hn, hlast⟩
      rcases hlast with hlast | ⟨hnone, _⟩
      · cases hlast
        exact ⟨i, lo, before, hi, hn, hs, .inl ⟨rfl, rfl, rfl⟩⟩
      · cases hnone
    · rintro ⟨i, lo', prev, hi, hn, hs, ⟨_, rfl, rfl⟩ | ⟨hne, _⟩⟩
      · exact ⟨i, id, hs, hi, hn, .inl rfl⟩
      · exact absurd rfl hne
  | t :: body, before, lo => by
    constructor
    · rintro ⟨k, link, ht, hk, hnode, hrest⟩
      obtain ⟨i, lo', prev, hi, hn, hs, hprev⟩ := listAt_concat.mp hrest
      refine ⟨i, lo', prev, hi, hn, hs, .inr ⟨by simp, ?_⟩⟩
      rcases hprev with ⟨rfl, rfl, rfl⟩ | ⟨_, p, hbody, rfl, rfl⟩
      · exact ⟨link, ⟨k, link, ht, hk, hnode, .inl rfl⟩, rfl, rfl⟩
      · exact ⟨p, ⟨k, link, ht, hk, hnode, hbody⟩, rfl, rfl⟩
    · rintro ⟨i, lo', prev, hi, hn, hs, ⟨hnil, _⟩ | ⟨_, p, ⟨k, link, ht, hk, hnode, hbody⟩, rfl, rfl⟩⟩
      · cases hnil
      · refine ⟨k, link, ht, hk, hnode, listAt_concat.mpr ⟨i, p + 1, some p, hi, hn, hs, ?_⟩⟩
        cases body with
        | nil =>
          rcases hbody with hlast | ⟨hnone, _⟩
          · exact .inl ⟨rfl, hlast.symm, by rw [Option.some.inj hlast]⟩
          · cases hnone
        | cons u body => exact .inr ⟨by simp, p, hbody, rfl, rfl⟩

end Ifj22
