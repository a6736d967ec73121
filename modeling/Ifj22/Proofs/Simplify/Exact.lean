import Ifj22.Proofs.Meaning.Integer
import Ifj22.Proofs.Simplify.Arena
import Ifj22.Proofs.Tree.Layout
import Mathlib.Data.Set.Card
set_option autoImplicit false

/-!
# Simplify: folding ints is exact

An expression of int constants, sums, differences, products, comparisons, negations and logical
complements has a mathematical value.  Folding puts that value in the place of a part if the values of
all parts below it fit into 64 bits, and leaves the operation alone otherwise.  `Expr.Folded` says so
of all places of an expression, and not just of its root: a part that fits is folded also where what
stands above it is not.
-/

namespace Ifj22

variable {e : Expr} {x : Nat}

/-! ## Values -/

/-- Sum, difference, product and the eight comparisons. -/
def BinOp.isExact (op : BinOp) : Bool := (op.isArithmetic && op != .div) || op.isComparison

/-- The mathematical result of an operation. -/
def BinOp.exact : BinOp → Int → Int → Int
  | .add, a, b => a + b
  | .sub, a, b => a - b
  | .mul, a, b => a * b
  | op, a, b => bit (op.holds a b)

/-- The mathematical result of an operation. -/
def UnaryOp.exact : UnaryOp → Int → Int
  | .negate, a => -a
  | .not, a => bit (a == 0)

/-- The value fits into 64 bits. -/
def Number.inRange (n : Int) : Bool := decide (-2 ^ 63 ≤ n) && decide (n < 2 ^ 63)

/-- The expression is made of int constants with sums, differences, products, comparisons,
negations and logical complements.  Division is not among them: its result is a float. -/
def Expr.isExact : Expr → Bool
  | .constant (.int _) => true
  | .binary op left right => op.isExact && left.isExact && right.isExact
  | .unary _ operand => operand.isExact
  | _ => false

/-- The mathematical value of such an expression. -/
def Expr.exact : Expr → Int
  | .constant (.int w) => w.toInt
  | .binary op left right => op.exact left.exact right.exact
  | .unary op operand => op.exact operand.exact
  | _ => 0

/-- The values of all parts of the expression fit into 64 bits.  All parts count: one that does
not fit is not folded, and then nothing around it is. -/
def Expr.fits : Expr → Bool
  | .binary op left right =>
    left.fits && right.fits && Number.inRange (op.exact left.exact right.exact)
  | .unary op operand => operand.fits && Number.inRange (op.exact operand.exact)
  | e => Number.inRange e.exact

/-! ## Words -/

namespace Number

theorem inRange_toInt (w : Int64) : inRange w.toInt = true := by
  have hlow := w.le_toInt
  have hhigh := w.toInt_lt
  simp only [inRange, Bool.and_eq_true, decide_eq_true_eq]
  omega

theorem word?_eq_none_of_not_inRange {n : Int} (h : inRange n = false) : word? n = none := by
  cases hw : word? n with
  | none => rfl
  | some w =>
    rw [← toInt_of_word? hw, inRange_toInt] at h
    cases h

theorem exists_word?_of_inRange {n : Int} (h : inRange n = true) :
    ∃ w, word? n = some w ∧ w.toInt = n := by
  simp only [inRange, Bool.and_eq_true, decide_eq_true_eq] at h
  have hword : word? n = some (Int64.ofInt n) :=
    if_pos ⟨h.1, Int.le_of_lt_add_one h.2⟩
  exact ⟨_, hword, toInt_of_word? hword⟩

theorem word?_bit (b : Bool) : (word? (bit b)).map Node.int = some (.ofBool b) := by
  cases b <;> rfl

end Number

theorem Node.foldBinary?_exact {op : BinOp} (hop : op.isExact = true) (x y : Int64) :
    Node.foldBinary? op (.int x) (.int y) =
      (Number.word? (op.exact x.toInt y.toInt)).map .int := by
  have hbeq : (x == y) = (x.toInt == y.toInt) := by
    rw [Bool.eq_iff_iff, beq_iff_eq, beq_iff_eq, Int64.toInt_inj]
  cases op with
  | add | sub | mul => rfl
  | less | lessEqual | greater | greaterEqual =>
    rw [BinOp.exact, Number.word?_bit]
    · simp [foldBinary?, foldInts?, BinOp.holds, Int64.lt_iff_toInt_lt, Int64.le_iff_toInt_le]
    all_goals simp
  | equal | notEqual | identical | notIdentical =>
    rw [BinOp.exact, Number.word?_bit]
    · simp [foldBinary?, foldInts?, BinOp.holds, bne, hbeq]
    all_goals simp
  | _ => cases hop

theorem Node.foldUnary?_exact (op : UnaryOp) (x : Int64) :
    Node.foldUnary? op (.int x) = (Number.word? (op.exact x.toInt)).map .int := by
  cases op with
  | negate => rfl
  | not =>
    have hzero : (x != 0) = !(x.toInt == 0) := by
      rw [bne, Bool.not_inj_iff, Bool.eq_iff_iff, beq_iff_eq, beq_iff_eq, ← Int64.toInt_inj]
      rfl
    rw [UnaryOp.exact, Number.word?_bit]
    show some (ofBool !(x != 0)) = _
    rw [hzero, Bool.not_not]

/-! ## Reading an expression -/

/-- The place holds the expression, followed `fuel` levels down.  It does not matter where the parts
lie, and two of them may share a place. -/
inductive Expr.ReadAt (a : Arena) : Nat → Expr → Nat → Prop
  | int {fuel id : Nat} {w : Int64} (hn : a.node id = .int w) :
    ReadAt a (fuel + 1) (.constant (.int w)) id
  | binary {fuel id i j : Nat} {op : BinOp} {left right : Expr} (hn : a.node id = .binary op i j)
    (hop : op.isExact = true) (hl : ReadAt a fuel left i) (hr : ReadAt a fuel right j) :
    ReadAt a (fuel + 1) (.binary op left right) id
  | unary {fuel id i : Nat} {op : UnaryOp} {operand : Expr} (hn : a.node id = .unary op i)
    (ho : ReadAt a fuel operand i) : ReadAt a (fuel + 1) (.unary op operand) id

section

variable {a : Arena} {fuel id : Nat}

theorem Expr.readAt_of_exprAt? (h : a.exprAt? fuel id = some e) (he : e.isExact = true) :
    e.ReadAt a fuel id := by
  induction fuel generalizing e id with
  | zero => cases h
  | succ fuel ih =>
    rw [Arena.exprAt?] at h
    cases hn : a.node id <;> rw [hn] at h
    case int w =>
      cases h
      exact .int hn
    case binary op i j =>
      obtain ⟨left, hl, h⟩ := Option.bind_eq_some_iff.mp h
      obtain ⟨right, hr, h⟩ := Option.bind_eq_some_iff.mp h
      cases h
      rw [Expr.isExact, Bool.and_eq_true_iff, Bool.and_eq_true_iff] at he
      exact .binary hn he.1.1 (ih hl he.1.2) (ih hr he.2)
    case unary op i =>
      obtain ⟨operand, ho, rfl⟩ := Option.map_eq_some_iff.mp h
      exact .unary hn (ih ho he)
    case call name args =>
      obtain ⟨args, _, rfl⟩ := Option.map_eq_some_iff.mp h
      cases he
    all_goals cases h <;> cases he

theorem Expr.ReadAt.isExact (h : e.ReadAt a fuel id) : e.isExact = true := by
  induction h with
  | int => rfl
  | binary _ hop _ _ ihl ihr => rw [Expr.isExact, hop, ihl, ihr]; rfl
  | unary _ _ ih => exact ih

theorem Expr.ReadAt.exprAt?_eq (h : e.ReadAt a fuel id) {k : Nat} (hk : fuel ≤ k) :
    a.exprAt? k id = some e := by
  induction h generalizing k with
  | int hn =>
    obtain ⟨k, rfl⟩ := exists_fuel hk
    simp [Arena.exprAt?, hn, Node.constant?]
  | binary hn _ _ _ ihl ihr =>
    obtain ⟨k, rfl⟩ := exists_fuel hk
    simp [Arena.exprAt?, hn, ihl (Nat.le_of_succ_le_succ hk), ihr (Nat.le_of_succ_le_succ hk)]
  | unary hn _ ih =>
    obtain ⟨k, rfl⟩ := exists_fuel hk
    simp [Arena.exprAt?, hn, ih (Nat.le_of_succ_le_succ hk)]

/-- What stands at the places of an expression is a part of it. -/
theorem Expr.ReadAt.part (h : e.ReadAt a fuel id) (hx : a.Reaches id x) :
    ∃ k part, Expr.ReadAt a k part x ∧ k ≤ fuel ∧ part.size ≤ e.size := by
  induction hx with
  | refl => exact ⟨fuel, e, h, le_rfl, le_rfl⟩
  | tail _ hc ih =>
    obtain ⟨k, part, hpart, hk, hsize⟩ := ih
    unfold Arena.children at hc
    cases hpart with
    | int hn => rw [hn] at hc; cases hc
    | binary hn _ hl hr =>
      rw [hn, Node.children, List.mem_pair] at hc
      rw [Expr.size] at hsize
      rcases hc with rfl | rfl
      · exact ⟨_, _, hl, by omega, by omega⟩
      · exact ⟨_, _, hr, by omega, by omega⟩
    | unary hn ho =>
      rw [hn, Node.children, List.mem_singleton] at hc
      rw [Expr.size] at hsize
      exact ⟨_, _, hc ▸ ho, by omega, by omega⟩

/-- No part of an expression reaches the place of the whole. -/
theorem Expr.ReadAt.not_reaches (h : e.ReadAt a fuel id) {part : Expr} {k i : Nat}
    (hpart : part.ReadAt a k i) (hk : k ≤ fuel) (hsize : part.size < e.size) : ¬ a.Reaches i id := by
  intro hreach
  obtain ⟨k', e', he', hk', hsize'⟩ := hpart.part hreach
  have heq := (he'.exprAt?_eq (hk'.trans hk)).symm.trans (h.exprAt?_eq le_rfl)
  rw [Option.some.inj heq] at hsize'
  omega

end

/-! ## Folded places -/

/-- The node is an operation. -/
def Node.isOperation : Node → Bool
  | .binary _ _ _ | .unary _ _ => true
  | _ => false

theorem Node.constant?_of_isOperation {n : Node} (h : n.isOperation = true) :
    n.constant? = none := by
  cases n <;> first | rfl | cases h

/-- Of the expression at a place folding has made the int with its value, if all of it fits, and has
left what it was before, otherwise. -/
structure Expr.Folded (a a' : Arena) (e : Expr) (id : Nat) : Prop where
  read : a.expr? id = some e
  isExact : e.isExact = true
  int_iff : ∀ w, a'.node id = .int w ↔ e.fits = true ∧ w.toInt = e.exact
  kept : e.fits = false → a'.node id = a.node id

/-- All that a place reaches has been folded. -/
def Arena.Done (a a' : Arena) (id : Nat) : Prop :=
  ∀ x, a.Reaches id x → ∃ part, Expr.Folded a a' part x

section

variable {a a' b : Arena} {id : Nat}

theorem Expr.Folded.congr (h : e.Folded a a' id) (hsame : b.node id = a'.node id) :
    e.Folded a b id := by
  refine ⟨h.read, h.isExact, ?_, ?_⟩ <;> rw [hsame]
  · exact h.int_iff
  · exact h.kept

/-- An expression that fits has become the int with its value. -/
theorem Expr.Folded.node_of_fits (h : e.Folded a a' id) (hfits : e.fits = true) :
    ∃ w, a'.node id = .int w ∧ w.toInt = e.exact := by
  have hrange : Number.inRange e.exact = true := by
    cases e with
    | binary => exact (Bool.and_eq_true_iff.mp hfits).2
    | unary => exact (Bool.and_eq_true_iff.mp hfits).2
    | _ => exact hfits
  obtain ⟨w, _, hw⟩ := Number.exists_word?_of_inRange hrange
  exact ⟨w, (h.int_iff w).mpr ⟨hfits, hw⟩, hw⟩

/-- An expression that does not fit is an operation, and still is. -/
theorem Expr.Folded.isOperation_of_not_fits (h : e.Folded a a' id) (hfits : e.fits = false) :
    (a.node id).isOperation = true := by
  obtain ⟨fuel, hread⟩ : ∃ fuel, e.ReadAt a fuel id := ⟨_, Expr.readAt_of_exprAt? h.read h.isExact⟩
  cases hread with
  | @int _ _ w =>
    have hfit : Number.inRange w.toInt = false := hfits
    rw [Number.inRange_toInt] at hfit
    cases hfit
  | binary hn => rw [hn]; rfl
  | unary hn => rw [hn]; rfl

theorem Expr.Folded.constant?_of_not_fits (h : e.Folded a a' id) (hfits : e.fits = false) :
    (a'.node id).constant? = none := by
  rw [h.kept hfits]
  exact Node.constant?_of_isOperation (h.isOperation_of_not_fits hfits)

end

/-! ## Operations -/

/-- What an operation folds to: the int with the value of the expression, if all of it fits. -/
def Expr.FoldsTo (e : Expr) (o : Option Node) : Prop :=
  (e.fits = true ∧ ∃ w : Int64, o = some (.int w) ∧ w.toInt = e.exact) ∨ (e.fits = false ∧ o = none)

theorem Expr.foldsTo_of_word? (hfits : e.fits = Number.inRange e.exact) :
    e.FoldsTo ((Number.word? e.exact).map .int) := by
  cases hrange : Number.inRange e.exact with
  | true =>
    obtain ⟨w, hword, hw⟩ := Number.exists_word?_of_inRange hrange
    exact .inl ⟨hfits.trans hrange, w, by rw [hword]; rfl, hw⟩
  | false =>
    exact .inr ⟨hfits.trans hrange, by rw [Number.word?_eq_none_of_not_inRange hrange]; rfl⟩

section

variable {a a' : Arena} {i j : Nat}

theorem Expr.Folded.foldsTo_binary {op : BinOp} {left right : Expr} (hop : op.isExact = true)
    (hl : left.Folded a a' i) (hr : right.Folded a a' j) :
    (Expr.binary op left right).FoldsTo (Node.foldBinary? op (a'.node i) (a'.node j)) := by
  cases hfl : left.fits with
  | false =>
    refine .inr ⟨by rw [Expr.fits, hfl]; rfl, ?_⟩
    rw [Node.foldBinary?_eq, hl.constant?_of_not_fits hfl]
    rfl
  | true =>
    cases hfr : right.fits with
    | false =>
      refine .inr ⟨by rw [Expr.fits, hfl, hfr]; rfl, ?_⟩
      rw [Node.foldBinary?_eq, hr.constant?_of_not_fits hfr]
      cases (a'.node i).constant? <;> rfl
    | true =>
      obtain ⟨x, hx, hxv⟩ := hl.node_of_fits hfl
      obtain ⟨y, hy, hyv⟩ := hr.node_of_fits hfr
      rw [hx, hy, Node.foldBinary?_exact hop, hxv, hyv]
      exact Expr.foldsTo_of_word? (by rw [Expr.fits, hfl, hfr]; rfl)

theorem Expr.Folded.foldsTo_unary {op : UnaryOp} {operand : Expr} (ho : operand.Folded a a' i) :
    (Expr.unary op operand).FoldsTo (Node.foldUnary? op (a'.node i)) := by
  cases hfo : operand.fits with
  | false =>
    refine .inr ⟨by rw [Expr.fits, hfo]; rfl, ?_⟩
    rw [Node.foldUnary?_eq, ho.constant?_of_not_fits hfo]
    rfl
  | true =>
    obtain ⟨x, hx, hxv⟩ := ho.node_of_fits hfo
    rw [hx, Node.foldUnary?_exact, hxv]
    exact Expr.foldsTo_of_word? (by rw [Expr.fits, hfo]; rfl)

end

/-! ## Folding in place -/

theorem Edit.foldAt_int {b : Arena} {fuel id : Nat} {w : Int64} (hn : b.node id = .int w) :
    foldAt (fuel + 1) id b = (0, b) := by
  rw [foldAt, get_bind, hn]
  rfl

/-- The places where a stage of folding differs from the start. -/
def Arena.changed (a a' : Arena) : Set Nat := {i | a'.node i ≠ a.node i}

/-- A stage of folding: a place that is not as it was at the start is an operation, and all that it
reaches has been folded.  Such a place is left alone when it is come to again. -/
structure Arena.Folding (a a' : Arena) : Prop where
  size_eq : a'.size = a.size
  isOperation : ∀ i ∈ a.changed a', (a.node i).isOperation = true
  done : ∀ i ∈ a.changed a', a.Done a' i

/-- What folding at a place does between two stages, with its count. -/
structure Arena.Folds (a : Arena) (id : Nat) (b : Arena) (ran : Nat × Arena) : Prop where
  folding : a.Folding ran.2
  done : a.Done ran.2 id
  kept : ∀ i ∈ a.changed b, ran.2.node i = b.node i
  outside : ∀ i, ¬ a.Reaches id i → ran.2.node i = b.node i
  count : (a.changed ran.2).ncard = (a.changed b).ncard + ran.1

section

variable {a b b' : Arena} {fuel id : Nat}

/-- What has been folded stays so at later stages. -/
theorem Arena.Done.later (h : a.Done b id) (hb : a.Folding b')
    (hkept : ∀ i ∈ a.changed b, b'.node i = b.node i) : a.Done b' id := by
  intro x hx
  obtain ⟨part, hpart⟩ := h x hx
  by_cases hchanged : x ∈ a.changed b
  · exact ⟨part, hpart.congr (hkept x hchanged)⟩
  by_cases hchanged' : x ∈ a.changed b'
  · exact hb.done x hchanged' x .refl
  · exact ⟨part, hpart.congr ((not_not.mp hchanged').trans (not_not.mp hchanged).symm)⟩

theorem Arena.Folding.finite (h : a.Folding b) : (a.changed b).Finite := by
  refine (Set.finite_lt_nat a.size).subset fun i hi => Arena.lt_size_of_node rfl fun hn => ?_
  have hop := h.isOperation i hi
  rw [hn] at hop
  cases hop

/-- Nothing is to be done at a place that has been folded. -/
theorem Arena.Folds.refl (hb : a.Folding b) (hdone : a.Done b id) : a.Folds id b (0, b) :=
  ⟨hb, hdone, fun _ _ => rfl, fun _ _ => rfl, rfl⟩

/-- The root of an expression is folded behind its operands. -/
theorem Arena.folds_root {o : Option Node} (hread : a.expr? id = some e) (hexact : e.isExact = true)
    (ho : e.FoldsTo o) (hop : (a.node id).isOperation = true) (hb : a.Folding b)
    (hsame : b.node id = a.node id) (hchildren : ∀ c ∈ a.children id, a.Done b c) :
    a.Folds id b (Edit.replace? id o b) := by
  have hint : ∀ w, a.node id ≠ .int w := fun w hn => by
    rw [hn] at hop
    cases hop
  have hdone : ∀ {b'}, e.Folded a b' id → (∀ c ∈ a.children id, a.Done b' c) → a.Done b' id := by
    intro b' hroot hchildren x hx
    rcases Relation.ReflTransGen.cases_head hx with rfl | ⟨c, hc, hcx⟩
    · exact ⟨e, hroot⟩
    · exact hchildren c hc x hcx
  rcases ho with ⟨hfits, w, rfl, hw⟩ | ⟨hfits, rfl⟩
  · have hid : id < b.size := hb.size_eq ▸ Arena.lt_size_of_node rfl fun hn => by
      rw [hn] at hop
      cases hop
    have hnode : (b.set id (.int w)).node id = .int w := by rw [Arena.node_set, if_pos ⟨rfl, hid⟩]
    have hothers : ∀ i, i ≠ id → (b.set id (.int w)).node i = b.node i := fun i hi => by
      rw [Arena.node_set, if_neg fun h => hi h.1]
    have hroot : e.Folded a (b.set id (.int w)) id := by
      refine ⟨hread, hexact, fun v => ?_, fun h => ?_⟩
      · rw [hnode, Node.int.injEq, ← hw, Int64.toInt_inj]
        exact ⟨fun h => ⟨hfits, h.symm⟩, fun h => h.2.symm⟩
      · rw [hfits] at h
        cases h
    have hlater : ∀ i, a.Done b i → a.Done (b.set id (.int w)) i := by
      intro i h x hx
      by_cases hne : x = id
      · exact ⟨e, hne ▸ hroot⟩
      · obtain ⟨part, hpart⟩ := h x hx
        exact ⟨part, hpart.congr (hothers x hne)⟩
    have hnew : id ∉ a.changed b := not_not.mpr hsame
    have hchanged : a.changed (b.set id (.int w)) = insert id (a.changed b) := by
      ext i
      rw [Set.mem_insert_iff]
      by_cases hi : i = id
      · subst hi
        exact iff_of_true (fun h => hint w (h.symm.trans hnode)) (.inl rfl)
      · unfold Arena.changed
        rw [Set.mem_ofPred_eq, hothers i hi]
        exact ⟨.inr, fun h => h.resolve_left hi⟩
    refine ⟨⟨?_, fun i hi => ?_, fun i hi => ?_⟩, ?_, fun i hi => ?_, fun i hi => ?_, ?_⟩
    · exact (Arena.size_set ..).trans hb.size_eq
    · rcases hchanged ▸ hi with rfl | hi
      · exact hop
      · exact hb.isOperation i hi
    · rcases hchanged ▸ hi with rfl | hi
      · exact hdone hroot fun c hc => hlater c (hchildren c hc)
      · exact hlater i (hb.done i hi)
    · exact hdone hroot fun c hc => hlater c (hchildren c hc)
    · exact hothers i fun heq => hnew (heq ▸ hi)
    · exact hothers i fun heq => hi (heq ▸ .refl)
    · exact (congrArg Set.ncard hchanged).trans (Set.ncard_insert_of_notMem hnew hb.finite)
  · have hroot : e.Folded a b id := by
      refine ⟨hread, hexact, fun v => ⟨fun h => ?_, fun h => ?_⟩, fun _ => hsame⟩
      · exact absurd (hsame.symm.trans h) (hint v)
      · rw [hfits] at h
        cases h.1
    exact .refl hb (hdone hroot hchildren)

theorem Arena.Folds.trans {i : Nat} {ran ran' : Nat × Arena} (h : a.Folds i b ran)
    (hi : i ∈ a.children id) (h' : a.Folds id ran.2 ran') :
    a.Folds id b (ran.1 + ran'.1, ran'.2) := by
  refine ⟨h'.folding, h'.done, fun x hx => ?_, fun x hx => ?_, ?_⟩
  · have hkept := h.kept x hx
    exact (h'.kept x fun hsame => hx (hkept.symm.trans hsame)).trans hkept
  · exact (h'.outside x hx).trans (h.outside x fun hreach => hx (.head hi hreach))
  · rw [h'.count, h.count, Nat.add_assoc]

theorem Arena.Done.folded (h : a.Done b id) (hread : a.expr? id = some e) : e.Folded a b id := by
  obtain ⟨part, hpart⟩ := h id .refl
  rwa [Option.some.inj (hread.symm.trans hpart.read)]

/-- A place that differs from the start has become an int. -/
theorem Arena.Folding.node_eq_int (hb : a.Folding b) (hid : id ∈ a.changed b) :
    ∃ w, b.node id = .int w := by
  obtain ⟨part, hpart⟩ := hb.done id hid id .refl
  cases hfits : part.fits with
  | true =>
    obtain ⟨w, hw, _⟩ := hpart.node_of_fits hfits
    exact ⟨w, hw⟩
  | false => exact absurd (hpart.kept hfits) hid

/-- Folding at a place folds all that it reaches, from any stage on. -/
theorem Arena.folds_foldAt (h : e.ReadAt a fuel id) (hfuel : fuel ≤ a.size) (hb : a.Folding b) :
    a.Folds id b (Edit.foldAt fuel id b) := by
  induction h generalizing b with
  | @int fuel id w hn =>
    have hread : (Expr.constant (.int w)).ReadAt a (fuel + 1) id := .int hn
    have hsame : b.node id = a.node id := by_contra fun hchanged => by
      have hop := hb.isOperation id hchanged
      rw [hn] at hop
      cases hop
    have hfits : (Expr.constant (.int w)).fits = true := Number.inRange_toInt w
    rw [Edit.foldAt_int (hsame.trans hn)]
    refine .refl hb fun x hx => ?_
    rcases Relation.ReflTransGen.cases_head hx with rfl | ⟨c, hc, _⟩
    · refine ⟨_, hread.exprAt?_eq hfuel, rfl, fun v => ?_, fun _ => hsame⟩
      rw [hsame, hn, hfits, Expr.exact, Int64.toInt_inj]
      exact ⟨fun hv => ⟨rfl, (Node.int.inj hv).symm⟩, fun hv => congrArg Node.int hv.2.symm⟩
    · rw [Arena.children, hn] at hc
      cases hc
  | @binary fuel id i j op left right hn hop hl hr ihl ihr =>
    by_cases hchanged : id ∈ a.changed b
    · obtain ⟨w, hw⟩ := hb.node_eq_int hchanged
      rw [Edit.foldAt_int hw]
      exact .refl hb (hb.done id hchanged)
    have hwhole : (Expr.binary op left right).ReadAt a (fuel + 1) id := .binary hn hop hl hr
    have h1 := ihl (Nat.le_of_succ_le hfuel) hb
    have h2 := ihr (Nat.le_of_succ_le hfuel) h1.folding
    have hi : i ∈ a.children id := by rw [Arena.children, hn]; simp [Node.children]
    have hj : j ∈ a.children id := by rw [Arena.children, hn]; simp [Node.children]
    have hstart : b.node id = a.node id := not_not.mp hchanged
    have hsame : (Edit.foldAt fuel j (Edit.foldAt fuel i b).2).2.node id = a.node id := by
      rw [h2.outside id (hwhole.not_reaches hr (Nat.le_succ _) (by rw [Expr.size]; omega)),
        h1.outside id (hwhole.not_reaches hl (Nat.le_succ _) (by rw [Expr.size]; omega)), hstart]
    have hleft := h1.done.later h2.folding h2.kept
    have hfolds := (hleft.folded (hl.exprAt?_eq (Nat.le_of_succ_le hfuel))).foldsTo_binary hop
      (h2.done.folded (hr.exprAt?_eq (Nat.le_of_succ_le hfuel)))
    have h3 := Arena.folds_root (hwhole.exprAt?_eq hfuel) hwhole.isExact hfolds
      (by rw [hn]; rfl) h2.folding hsame fun c hc => by
        rw [Arena.children, hn, Node.children, List.mem_pair] at hc
        rcases hc with rfl | rfl
        · exact hleft
        · exact h2.done
    have hall := h1.trans hi (h2.trans hj h3)
    rw [← Nat.add_assoc] at hall
    rw [Edit.foldAt, Edit.get_bind, hstart.trans hn]
    exact hall
  | @unary fuel id i op operand hn ho ih =>
    by_cases hchanged : id ∈ a.changed b
    · obtain ⟨w, hw⟩ := hb.node_eq_int hchanged
      rw [Edit.foldAt_int hw]
      exact .refl hb (hb.done id hchanged)
    have hwhole : (Expr.unary op operand).ReadAt a (fuel + 1) id := .unary hn ho
    have h1 := ih (Nat.le_of_succ_le hfuel) hb
    have hi : i ∈ a.children id := by rw [Arena.children, hn]; simp [Node.children]
    have hstart : b.node id = a.node id := not_not.mp hchanged
    have hsame : (Edit.foldAt fuel i b).2.node id = a.node id := by
      rw [h1.outside id (hwhole.not_reaches ho (Nat.le_succ _) (by rw [Expr.size]; omega)), hstart]
    have hfolds : (Expr.unary op operand).FoldsTo
        (Node.foldUnary? op ((Edit.foldAt fuel i b).2.node i)) :=
      (h1.done.folded (ho.exprAt?_eq (Nat.le_of_succ_le hfuel))).foldsTo_unary
    have h2 := Arena.folds_root (hwhole.exprAt?_eq hfuel) hwhole.isExact hfolds
      (by rw [hn]; rfl) h1.folding hsame fun c hc => by
        rw [Arena.children, hn, Node.children, List.mem_singleton] at hc
        exact hc ▸ h1.done
    rw [Edit.foldAt, Edit.get_bind, hstart.trans hn]
    exact h1.trans hi h2

end

/-! ## All places -/

/-- The places that a root reaches where an operation has become a constant. -/
def Arena.turned (a a' : Arena) (root : Nat) : Set Nat :=
  {i | a.Reaches root i ∧ (a.node i).isOperation = true ∧ (a'.node i).isLiteral = true}

/-- Folding an expression of ints at a place, wherever its parts lie.  A node of the expression becomes
an int just if the mathematical values of all nodes at and below it fit into 64 bits, and the int is its
own value; any other node stays as it is, and so does all that the place does not reach.  The count is
the number of operations that have become constants. -/
theorem fold_exact_on_ints {e : Expr} {a : Arena} {id : Nat} (hexact : e.isExact = true)
    (hread : a.expr? id = some e) :
    ∃ a', (Edit.fold id).run a = ((a.turned a' id).ncard, a') ∧
      (∀ i, a.Reaches id i → ∃ part, a.expr? i = some part ∧ part.isExact = true ∧
        (∀ w, a'.node i = .int w ↔ part.fits = true ∧ w.toInt = part.exact) ∧
        (part.fits = true → ∃ w, a'.node i = .int w) ∧
        (part.fits = false → (a.node i).isOperation = true ∧ a'.node i = a.node i)) ∧
      ∀ i, ¬ a.Reaches id i → a'.node i = a.node i := by
  have hnone : a.changed a = ∅ := Set.eq_empty_of_forall_notMem fun i hi => hi rfl
  have hstart : a.Folding a := ⟨rfl, by simp [hnone], by simp [hnone]⟩
  have h := Arena.folds_foldAt (Expr.readAt_of_exprAt? hread hexact) le_rfl hstart
  generalize hrun : Edit.foldAt a.size id a = ran at h
  obtain ⟨n, a'⟩ := ran
  have hturned : a.turned a' id = a.changed a' := by
    ext i
    constructor
    · rintro ⟨_, hop, hliteral⟩ hsame
      rw [hsame] at hliteral
      cases hn : a.node i <;> rw [hn] at hop hliteral
      case binary => cases hliteral
      case unary => cases hliteral
      all_goals cases hop
    · intro hi
      obtain ⟨w, hw⟩ := h.folding.node_eq_int hi
      refine ⟨by_contra fun hout => hi (h.outside i hout), h.folding.isOperation i hi, ?_⟩
      rw [hw]
      rfl
  refine ⟨a', ?_, fun i hi => ?_, h.outside⟩
  · have hcount : (a.changed a').ncard = n := by rw [h.count, hnone, Set.ncard_empty, Nat.zero_add]
    rw [hturned, hcount]
    exact hrun
  · obtain ⟨part, hpart⟩ := h.done i hi
    refine ⟨part, hpart.read, hpart.isExact, hpart.int_iff, fun hfits => ?_,
      fun hfits => ⟨hpart.isOperation_of_not_fits hfits, hpart.kept hfits⟩⟩
    obtain ⟨w, hw, _⟩ := hpart.node_of_fits hfits
    exact ⟨w, hw⟩

/-- The sum of 9223372036854775807 and 1 does not fit, so the comparison above it stays; the product on
its other side is folded, and negated. -/
theorem fold_exact_on_ints_sample :
    let a : Arena := ⟨#[.int 9223372036854775807, .int 1, .binary .add 0 1, .int 2, .int 3,
      .binary .mul 3 4, .unary .negate 5, .binary .less 2 6]⟩
    ∃ a', (Edit.fold 7).run a = (2, a') ∧ (a.turned a' 7).ncard = 2 ∧
      a'.node 2 = .binary .add 0 1 ∧ a'.node 6 = .int (-6) ∧ a'.node 7 = .binary .less 2 6 := by
  intro a
  have hread : a.expr? 7 = some (.binary .less
      (.binary .add (.constant (.int 9223372036854775807)) (.constant (.int 1)))
      (.unary .negate (.binary .mul (.constant (.int 2)) (.constant (.int 3))))) := rfl
  obtain ⟨a', hrun, hparts, _⟩ := fold_exact_on_ints (by decide) hread
  have hcount : ((Edit.fold 7).run a).1 = 2 := by decide
  have hturned : (a.turned a' 7).ncard = 2 := by rw [← hcount, hrun]
  have hreach₂ : a.Reaches 7 2 := .single (by decide)
  have hreach₆ : a.Reaches 7 6 := .single (by decide)
  obtain ⟨_, hsum, _, _, _, hkept₂⟩ := hparts 2 hreach₂
  obtain ⟨_, hnegated, _, hint₆, _⟩ := hparts 6 hreach₆
  obtain ⟨_, hless, _, _, _, hkept₇⟩ := hparts 7 .refl
  cases hsum
  cases hnegated
  cases hless
  refine ⟨a', hturned ▸ hrun, hturned, (hkept₂ ?_).2, (hint₆ (-6)).mpr ?_, (hkept₇ ?_).2⟩ <;> decide

end Ifj22
