import Ifj22.Proofs.Tree.Place
import Mathlib.Data.List.Forall2
set_option autoImplicit false

/-!
# Tree: the members of a list in an arena

The members of an argument list or a statement list lie in slots: ranges of places, each with the
root of a member at its end.  The links of the list lie between and behind the slots.  Walking over
the list by places visits the slots in order (`ArgLinks.arguments_eq`, `StmtLinks.statements_eq`),
and an edit that stays inside the slots leaves the links as they are.
-/

namespace Ifj22

variable {S : Nat → Prop} {a a' : Arena} {e : Expr} {id lo : Nat} {body : List Stmt} {hi : Nat}
  {link : Option Nat}

/-- A range of places for a tree with its root at the end. -/
structure Slot where
  lo : Nat
  id : Nat
  deriving DecidableEq, Repr, Inhabited

namespace Slot

/-- The place lies in the slot. -/
def Has (s : Slot) (i : Nat) : Prop := s.lo ≤ i ∧ i ≤ s.id

/-- The first slot ends before the second starts. -/
def Before (s t : Slot) : Prop := s.id < t.lo

end Slot

/-! ## Arenas that differ in some places only -/

/-- The arenas have one size and differ at places of `S` only. -/
structure Arena.Differs (S : Nat → Prop) (a a' : Arena) : Prop where
  size_eq : a'.size = a.size
  node_eq : ∀ i, ¬ S i → a'.node i = a.node i

namespace Arena.Differs

theorem refl (S : Nat → Prop) (a : Arena) : a.Differs S a := ⟨rfl, fun _ _ => rfl⟩

theorem mono {T : Nat → Prop} (h : a.Differs S a') (hsub : ∀ i, S i → T i) : a.Differs T a' :=
  ⟨h.size_eq, fun i hi => h.node_eq i fun hs => hi (hsub i hs)⟩

theorem trans {b c : Arena} (h1 : a.Differs S b) (h2 : b.Differs S c) : a.Differs S c :=
  ⟨h2.size_eq.trans h1.size_eq, fun i hi => (h2.node_eq i hi).trans (h1.node_eq i hi)⟩

theorem set (a : Arena) (id : Nat) (n : Node) : a.Differs (· = id) (a.set id n) := by
  refine ⟨Arena.size_set a id n, fun i hi => ?_⟩
  rw [Arena.node_set, if_neg fun h => hi h.1]

end Arena.Differs

theorem Expr.At.of_differs (h : e.At a lo id) (hd : a.Differs S a')
    (hS : ∀ i, S i → i < lo ∨ id < i) : e.At a' lo id :=
  h.congr (Nat.le_refl lo) fun i h1 h2 => hd.node_eq i fun hs => by have := hS i hs; omega

theorem Stmt.At.of_differs {s : Stmt} (h : s.At a lo id) (hd : a.Differs S a')
    (hS : ∀ i, S i → i < lo ∨ id < i) : s.At a' lo id :=
  h.congr (Nat.le_of_eq hd.size_eq.symm) (Nat.le_refl lo) fun i h1 h2 =>
    hd.node_eq i fun hs => by have := hS i hs; omega

theorem ListAt.of_differs (h : ListAt a body none lo id) (hd : a.Differs S a')
    (hS : ∀ i, S i → i < lo ∨ id < i) : ListAt a' body none lo id :=
  h.congr (Nat.le_of_eq hd.size_eq.symm) (Nat.le_refl lo) fun i h1 h2 =>
    hd.node_eq i fun hs => by have := hS i hs; omega

/-! ## Edits beside a tree -/

section Beside

variable {a a' : Arena} {lo id lo' id' : Nat}

theorem Expr.At.behind (h : e.At a lo id) (hd : a.Differs (Slot.mk lo' id').Has a')
    (hlt : id' < lo) : e.At a' lo id :=
  h.of_differs hd fun _ hi => .inl (Nat.lt_of_le_of_lt hi.2 hlt)

theorem Expr.At.ahead (h : e.At a lo id) (hd : a.Differs (Slot.mk lo' id').Has a')
    (hlt : id < lo') : e.At a' lo id :=
  h.of_differs hd fun _ hi => .inr (Nat.lt_of_lt_of_le hlt hi.1)

theorem ListAt.behind (h : ListAt a body none lo id) (hd : a.Differs (Slot.mk lo' id').Has a')
    (hlt : id' < lo) : ListAt a' body none lo id :=
  h.of_differs hd fun _ hi => .inl (Nat.lt_of_le_of_lt hi.2 hlt)

theorem ListAt.ahead (h : ListAt a body none lo id) (hd : a.Differs (Slot.mk lo' id').Has a')
    (hlt : id < lo') : ListAt a' body none lo id :=
  h.of_differs hd fun _ hi => .inr (Nat.lt_of_lt_of_le hlt hi.1)

theorem Arena.Differs.node_behind (hd : a.Differs (Slot.mk lo' id').Has a') {i : Nat}
    (hlt : id' < i) : a'.node i = a.node i :=
  hd.node_eq i fun hi => Nat.lt_irrefl i (Nat.lt_of_le_of_lt hi.2 hlt)

/-- An edit of a part is an edit of the whole. -/
theorem Arena.Differs.widen (hd : a.Differs (Slot.mk lo' id').Has a') (hlo : lo ≤ lo')
    (hid : id' ≤ id) : a.Differs (Slot.mk lo id).Has a' :=
  hd.mono fun _ hi => ⟨Nat.le_trans hlo hi.1, Nat.le_trans hi.2 hid⟩

end Beside

/-! ## Editing slot by slot -/

/-- What an arena holds in a slot depends on the places of the slot only. -/
def Local {ι : Type} (held : Arena → Slot → ι → Prop) : Prop :=
  ∀ {a a' : Arena} {s : Slot} {x : ι} {S : Nat → Prop}, held a s x → a.Differs S a' →
    (∀ i, S i → i < s.lo ∨ s.id < i) → held a' s x

theorem local_expr : Local fun a s (e : Expr) => e.At a s.lo s.id := Expr.At.of_differs

theorem local_stmt : Local fun a s (t : Stmt) => t.At a s.lo s.id := Stmt.At.of_differs

section Slots

variable {ι : Type} {held : Arena → Slot → ι → Prop} {a a1 a2 : Arena} {s : Slot}
  {slots : List Slot} {x : ι} {items : List ι}

/-- An edit in one slot leaves the slots behind it alone. -/
theorem Local.behind (hlocal : Local held) (heach : List.Forall₂ (held a) slots items)
    (hd : a.Differs s.Has a1) (hbefore : ∀ t ∈ slots, s.Before t) :
    List.Forall₂ (held a1) slots items := by
  induction heach with
  | nil => exact .nil
  | @cons t y slots items hy _ ih =>
    refine .cons (hlocal hy hd fun i hi => .inl ?_) (ih fun u hu => hbefore u (.tail t hu))
    have := hbefore t (.head _)
    unfold Slot.Before at this
    unfold Slot.Has at hi
    omega

/-- An edit in one slot followed by edits in slots behind it. -/
theorem Local.cons (hlocal : Local held) (hx : held a1 s x) (hd1 : a.Differs s.Has a1)
    (heach : List.Forall₂ (held a2) slots items)
    (hd2 : a1.Differs (fun i => ∃ t ∈ slots, t.Has i) a2) (hbefore : ∀ t ∈ slots, s.Before t) :
    List.Forall₂ (held a2) (s :: slots) (x :: items) ∧
      a.Differs (fun i => ∃ t ∈ s :: slots, t.Has i) a2 := by
  refine ⟨.cons (hlocal hx hd2 ?_) heach, ?_⟩
  · rintro i ⟨t, ht, hhas⟩
    have := hbefore t ht
    unfold Slot.Before at this
    unfold Slot.Has at hhas
    omega
  · refine (hd1.mono fun i hi => ⟨s, (.head _), hi⟩).trans (hd2.mono ?_)
    rintro i ⟨t, ht, hhas⟩
    exact ⟨t, .tail s ht, hhas⟩

end Slots

/-! ## Argument lists -/

/-- The links of an argument list, from `lo` on and below `hi`, whose values lie in the slots. -/
def ArgLinks (a : Arena) : List Slot → Nat → Nat → Option Nat → Prop
  | [], lo, hi, link => link = none ∧ lo ≤ hi
  | s :: rest, lo, hi, link =>
    s.lo = lo ∧ s.lo ≤ s.id ∧ ∃ (l : Nat) (next : Option Nat), link = some l ∧ l < hi ∧
      a.node l = .argument s.id next ∧ ArgLinks a rest (s.id + 1) l next

theorem argsAt_iff {args : List Expr} :
    ArgsAt a args lo hi link ↔ ∃ slots : List Slot, ArgLinks a slots lo hi link ∧
      List.Forall₂ (fun s e => e.At a s.lo s.id) slots args := by
  constructor
  · intro h
    induction args generalizing lo hi link with
    | nil => exact ⟨[], h, .nil⟩
    | cons e rest ih =>
      obtain ⟨l, i, next, hlink, hl, hn, he, hrest⟩ := h
      obtain ⟨slots, hlinks, heach⟩ := ih hrest
      exact ⟨⟨lo, i⟩ :: slots, ⟨rfl, he.le, l, next, hlink, hl, hn, hlinks⟩, .cons he heach⟩
  · rintro ⟨slots, hlinks, heach⟩
    induction heach generalizing lo hi link with
    | nil => exact hlinks
    | @cons s e slots rest he _ ih =>
      obtain ⟨rfl, _, l, next, hlink, hl, hn, hrest⟩ := hlinks
      exact ⟨l, s.id, next, hlink, hl, hn, he, ih hrest⟩

namespace ArgLinks

theorem le : ∀ {slots : List Slot} {lo hi : Nat} {link : Option Nat},
    ArgLinks a slots lo hi link → lo ≤ hi
  | [], _, _, _, h => h.2
  | s :: rest, lo, hi, link, ⟨hlo, hle, l, next, _, hl, _, hrest⟩ => by
    have := hrest.le
    omega

/-- The slots lie in the range of the list, with their links above them. -/
theorem bounds : ∀ {slots : List Slot} {lo hi : Nat} {link : Option Nat},
    ArgLinks a slots lo hi link → ∀ s ∈ slots, lo ≤ s.lo ∧ s.id + 1 < hi
  | [], _, _, _, _ => by simp
  | s :: rest, lo, hi, link, ⟨hlo, hle, l, next, _, hl, _, hrest⟩ => by
    intro t ht
    have hil := hrest.le
    rcases List.mem_cons.mp ht with rfl | ht
    · omega
    · have := hrest.bounds t ht
      omega

theorem pairwise : ∀ {slots : List Slot} {lo hi : Nat} {link : Option Nat},
    ArgLinks a slots lo hi link → slots.Pairwise Slot.Before
  | [], _, _, _, _ => .nil
  | s :: rest, lo, hi, link, ⟨hlo, hle, l, next, _, hl, _, hrest⟩ => by
    refine .cons (fun t ht => ?_) hrest.pairwise
    have := hrest.bounds t ht
    unfold Slot.Before
    omega

/-- An edit that touches the list inside its slots only leaves the links alone. -/
theorem of_differs (hd : a.Differs S a') :
    ∀ {slots : List Slot} {lo hi : Nat} {link : Option Nat}, ArgLinks a slots lo hi link →
      (∀ i, S i → lo ≤ i → i < hi → ∃ s ∈ slots, s.Has i) → ArgLinks a' slots lo hi link
  | [], _, _, _, h, _ => h
  | s :: rest, lo, hi, link, ⟨hlo, hle, l, next, hlink, hl, hn, hrest⟩, hS => by
    have hil := hrest.le
    refine ⟨hlo, hle, l, next, hlink, hl, ?_, hrest.of_differs hd fun i hi hlo' hl' => ?_⟩
    · rw [hd.node_eq, hn]
      intro hs
      obtain ⟨t, ht, hhas⟩ := hS l hs (by omega) hl
      unfold Slot.Has at hhas
      rcases List.mem_cons.mp ht with rfl | ht
      · omega
      · have := hrest.bounds t ht
        omega
    · obtain ⟨t, ht, hhas⟩ := hS i hi (by omega) (by omega)
      rcases List.mem_cons.mp ht with rfl | ht
      · unfold Slot.Has at hhas
        omega
      · exact ⟨t, ht, hhas⟩

theorem argumentsFrom_eq : ∀ {slots : List Slot} {lo hi fuel : Nat}
    {link : Option Nat}, ArgLinks a slots lo hi link → hi ≤ fuel →
      a.argumentsFrom fuel link = slots.map (·.id)
  | [], lo, hi, fuel, link, h, _ => by
    rw [h.1]
    cases fuel <;> rfl
  | s :: rest, lo, hi, fuel, link, ⟨_, _, l, next, hlink, hl, hn, hrest⟩, hfuel => by
    obtain ⟨fuel, rfl⟩ := exists_fuel (Nat.lt_of_lt_of_le hl hfuel)
    rw [hlink]
    simp only [Arena.argumentsFrom, hn, List.map_cons]
    rw [hrest.argumentsFrom_eq (by omega)]

/-- The values of an argument list are the roots of its slots. -/
theorem arguments_eq {slots : List Slot} (h : ArgLinks a slots lo hi link) (hhi : hi ≤ a.size) :
    a.arguments link = slots.map (·.id) := h.argumentsFrom_eq hhi

end ArgLinks

/-! ## Statement lists -/

/-- The links behind `before` of a statement list whose last link is at `id`; the statements lie in
the slots. -/
def StmtLinks (a : Arena) : List Slot → Option Nat → Nat → Nat → Prop
  | [], before, lo, id =>
    before = some id ∨ (before = none ∧ a.node id = .empty ∧ id < a.size ∧ lo ≤ id)
  | s :: rest, before, lo, id =>
    s.lo = lo ∧ s.lo ≤ s.id ∧ ∃ link : Nat, s.id < link ∧
      a.node link = .sequence before (some s.id) ∧ StmtLinks a rest (some link) (link + 1) id

theorem listAt_iff {before : Option Nat} :
    ListAt a body before lo id ↔ ∃ slots : List Slot, StmtLinks a slots before lo id ∧
      List.Forall₂ (fun s t => t.At a s.lo s.id) slots body := by
  constructor
  · intro h
    induction body generalizing before lo with
    | nil => exact ⟨[], h, .nil⟩
    | cons s rest ih =>
      obtain ⟨i, link, hs, hi, hn, hrest⟩ := h
      obtain ⟨slots, hlinks, heach⟩ := ih hrest
      exact ⟨⟨lo, i⟩ :: slots, ⟨rfl, hs.le, link, hi, hn, hlinks⟩, .cons hs heach⟩
  · rintro ⟨slots, hlinks, heach⟩
    induction heach generalizing before lo with
    | nil => exact hlinks
    | @cons s t slots rest ht _ ih =>
      obtain ⟨rfl, _, link, hi, hn, hrest⟩ := hlinks
      exact ⟨s.id, link, ht, hi, hn, ih hrest⟩

namespace StmtLinks

theorem before_le : ∀ {slots : List Slot} {b lo : Nat},
    StmtLinks a slots (some b) lo id → b < lo → b ≤ id
  | [], b, lo, h, _ => by
    rcases h with h | h
    · exact Nat.le_of_eq (Option.some.inj h)
    · exact absurd h.1 (by simp)
  | s :: rest, b, lo, ⟨hlo, hle, link, hi, _, hrest⟩, hb => by
    have := hrest.before_le (Nat.lt_succ_self link)
    omega

/-- The slots lie in the range of the list. -/
theorem bounds : ∀ {slots : List Slot} {before : Option Nat} {lo : Nat},
    StmtLinks a slots before lo id → ∀ s ∈ slots, lo ≤ s.lo ∧ s.id < id
  | [], _, _, _ => by simp
  | s :: rest, before, lo, ⟨hlo, hle, link, hi, _, hrest⟩ => by
    intro t ht
    have hlink := hrest.before_le (Nat.lt_succ_self link)
    rcases List.mem_cons.mp ht with rfl | ht
    · omega
    · have := hrest.bounds t ht
      omega

theorem pairwise : ∀ {slots : List Slot} {before : Option Nat} {lo : Nat},
    StmtLinks a slots before lo id → slots.Pairwise Slot.Before
  | [], _, _, _ => .nil
  | s :: rest, before, lo, ⟨hlo, hle, link, hi, _, hrest⟩ => by
    refine .cons (fun t ht => ?_) hrest.pairwise
    have := hrest.bounds t ht
    unfold Slot.Before
    omega

/-- An edit that touches the list inside its slots only leaves the links alone. -/
theorem of_differs (hd : a.Differs S a') :
    ∀ {slots : List Slot} {before : Option Nat} {lo : Nat}, StmtLinks a slots before lo id →
      (∀ i, S i → lo ≤ i → i ≤ id → ∃ s ∈ slots, s.Has i) → StmtLinks a' slots before lo id
  | [], before, lo, h, hS => by
    rcases h with h | ⟨hb, hn, hid, hlo⟩
    · exact .inl h
    · refine .inr ⟨hb, ?_, by rw [hd.size_eq]; exact hid, hlo⟩
      rw [hd.node_eq id fun hs => ?_, hn]
      obtain ⟨t, ht, _⟩ := hS id hs hlo (Nat.le_refl id)
      exact absurd ht (by simp)
  | s :: rest, before, lo, ⟨hlo, hle, link, hi, hn, hrest⟩, hS => by
    have hlink := hrest.before_le (Nat.lt_succ_self link)
    refine ⟨hlo, hle, link, hi, ?_, hrest.of_differs hd fun i hs hlo' hid => ?_⟩
    · rw [hd.node_eq, hn]
      intro hs
      obtain ⟨t, ht, hhas⟩ := hS link hs (by omega) hlink
      unfold Slot.Has at hhas
      rcases List.mem_cons.mp ht with rfl | ht
      · omega
      · have := hrest.bounds t ht
        omega
    · obtain ⟨t, ht, hhas⟩ := hS i hs (by omega) hid
      rcases List.mem_cons.mp ht with rfl | ht
      · unfold Slot.Has at hhas
        omega
      · exact ⟨t, ht, hhas⟩

/-- The walk back over the links of a list meets its statements in order. -/
theorem linksOnto_eq : ∀ {slots : List Slot} {b lo : Nat}
    (done : List Slot) (links : List Nat), StmtLinks a slots (some b) lo id → b < lo →
      (∀ fuel tail, b < fuel → a.linksOnto fuel b tail = links ++ tail) →
      links.filterMap a.linkStmt? = done.map (·.id) →
      ∃ links' : List Nat,
        (∀ fuel tail, id < fuel → a.linksOnto fuel id tail = links' ++ tail) ∧
        links'.filterMap a.linkStmt? = (done ++ slots).map (·.id)
  | [], b, lo, done, links, h, _, hwalk, hdone => by
    rcases h with h | h
    · cases h
      exact ⟨links, hwalk, by simpa using hdone⟩
    · exact absurd h.1 (by simp)
  | s :: rest, b, lo, done, links, ⟨hlo, hle, link, hi, hn, hrest⟩, hb, hwalk, hdone => by
    have hnext := linksOnto_eq (done ++ [s]) (links ++ [link]) hrest
      (Nat.lt_succ_self link) ?_ ?_
    · simpa using hnext
    · intro fuel tail hfuel
      obtain ⟨fuel, rfl⟩ := exists_fuel hfuel
      simp only [Arena.linksOnto, hn]
      rw [hwalk fuel (link :: tail) (by omega)]
      simp
    · simp [hdone, Arena.linkStmt?, hn]

/-- The statements of a list are the roots of its slots. -/
theorem statements_eq {slots : List Slot} (h : StmtLinks a slots none lo id) (hid : id < a.size) :
    a.statements id = slots.map (·.id) := by
  unfold Arena.statements Arena.sequence
  cases slots with
  | nil =>
    rcases h with h | ⟨_, hn, _, _⟩
    · exact absurd h (by simp)
    · cases hsize : a.size with
      | zero => omega
      | succ n => simp [Arena.linksOnto, hn, Node.empty, Arena.linkStmt?]
  | cons s rest =>
    obtain ⟨hlo, hle, link, hi, hn, hrest⟩ := h
    obtain ⟨links, hwalk, hstmts⟩ := linksOnto_eq [s] [link] hrest
      (Nat.lt_succ_self link)
      (by
        intro fuel tail hfuel
        cases fuel with
        | zero => omega
        | succ fuel => simp [Arena.linksOnto, hn])
      (by simp [Arena.linkStmt?, hn])
    rw [hwalk a.size [] hid, List.append_nil, hstmts]
    simp

end StmtLinks

end Ifj22
