import Ifj22.Parser.Stmt
import Ifj22.Proofs.Outcome
import Ifj22.Proofs.Tree.Place
set_option autoImplicit false

/-!
# Parser: steps over tokens

A step passes tokens and puts nodes into the arena.  There are two ways to say what it does, each
with one rule for every elementary step.  `p.Takes m Q` is about any tokens that end with the end of
the text: the step `m`, taken from the parser `p`, does not fail internally, whatever it ends in it
has passed no end of the text, and the tokens it has passed satisfy `Q` with its value.
`p.Finds m rest Q` is about tokens that are known: the step succeeds and stops before `rest`, with a
value that satisfies `Q`.
-/

namespace Ifj22

/-- The failures that are not the program's fault. -/
def CompileError.Internal : CompileError → Prop
  | .internal _ => True
  | _ => False

namespace Parser

variable {α β : Type} {p p' p'' : Parser} {t : Token} {k : TokenKind} {ts us rest : List Token}

/-! ## Places -/

/-- The tokens from the current one on. -/
def ahead (p : Parser) : List Token := p.tokens.toList.drop p.index

/-- The parser behind the current token. -/
def skip (p : Parser) : Parser := { p with index := p.index + 1 }

/-- The parser with one more node in its arena. -/
def grow (p : Parser) (node : Node) : Parser := { p with arena := (p.arena.push node).2 }

@[simp] theorem arena_skip (p : Parser) : p.skip.arena = p.arena := rfl

@[simp] theorem size_grow (p : Parser) (node : Node) :
    (p.grow node).arena.size = p.arena.size + 1 := by
  simp [grow]

@[simp] theorem node_grow (p : Parser) (node : Node) :
    (p.grow node).arena.node p.arena.size = node := by
  simp [grow, Arena.node_push]

theorem current?_of_ahead (h : p.ahead = t :: rest) : p.current? = some t := by
  have hget : p.tokens[p.index]? = some t := by
    have hhead := congrArg List.head? h
    unfold ahead at hhead
    rw [List.head?_drop, Array.getElem?_toList] at hhead
    exact hhead
  obtain ⟨hlt, _⟩ := Array.getElem?_eq_some_iff.mp hget
  rw [current?, show min p.index (p.tokens.size - 1) = p.index by omega, hget]

theorem kind_of_ahead (h : p.ahead = t :: rest) : p.kind = t.kind := by
  rw [kind, current?_of_ahead h]
  rfl

theorem kindAhead_of_ahead {u : Token} (h : p.ahead = t :: u :: rest) : p.kindAhead = u.kind := by
  have hget : p.tokens[p.index + 1]? = some u := by
    have hsecond := congrArg (·[1]?) h
    unfold ahead at hsecond
    rw [List.getElem?_drop, Array.getElem?_toList] at hsecond
    exact hsecond
  rw [kindAhead, hget]
  rfl

theorem ahead_length_le (p : Parser) : p.ahead.length ≤ p.tokens.size := by
  unfold ahead
  rw [List.length_drop, Array.length_toList]
  exact Nat.sub_le _ _

theorem ahead_skip (h : p.ahead = t :: rest) : p.skip.ahead = rest := by
  show p.tokens.toList.drop (p.index + 1) = rest
  rw [← List.drop_drop]
  show p.ahead.drop 1 = rest
  rw [h]
  rfl

/-! ## Elementary steps as equations -/

section

variable {f : Unit → Parse β} {g : String → Parse β} {c : Bool → Parse β}

theorem advance_bind (h : p.kind ≠ .eof) : (advance >>= f) p = f () p.skip := by
  show f () (if p.kind = .eof then p else p.skip) = _
  rw [if_neg h]

theorem expect_bind (h : p.ahead = t :: rest) (hk : t.kind = k) (hne : k ≠ .eof) :
    (expect k >>= g) p = g t.lexeme p.skip := by
  have hkind : p.kind = k := (kind_of_ahead h).trans hk
  unfold expect
  rw [bind_assoc, get_bind, if_pos hkind, bind_assoc, advance_bind (hkind ▸ hne), pure_bind,
    current?_of_ahead h]
  rfl

theorem accept_bind (h : p.ahead = t :: rest) (hk : t.kind = k) (hne : k ≠ .eof) :
    (accept k >>= c) p = c true p.skip := by
  have hkind : p.kind = k := (kind_of_ahead h).trans hk
  unfold accept
  rw [bind_assoc, get_bind, if_pos hkind, bind_assoc, advance_bind (hkind ▸ hne), pure_bind]

theorem accept_bind_not (hk : p.kind ≠ k) : (accept k >>= c) p = c false p := by
  unfold accept
  rw [bind_assoc, get_bind, if_neg hk, pure_bind]

/-- The end of the text is found without passing it. -/
theorem expect_eof_bind (h : p.kind = .eof) :
    (expect .eof >>= g) p = g ((p.current?.map (·.lexeme)).getD "") p := by
  have hadvance : (advance >>= fun _ =>
      (pure ((p.current?.map (·.lexeme)).getD "") : Parse String)) p =
      .ok ((p.current?.map (·.lexeme)).getD "") p := by
    show EStateM.Result.ok _ (if p.kind = .eof then p else _) = _
    rw [if_pos h]
  unfold expect
  rw [bind_assoc, get_bind, if_pos h]
  show EStateM.bind _ _ p = _
  unfold EStateM.bind
  rw [hadvance]

theorem push_bind {f : NodeId → Parse β} (node : Node) :
    (push node >>= f) p = f p.arena.size (p.grow node) := rfl

end

/-! ## Any tokens -/

/-- The second parser has the tokens of the first, and an arena that extends that of the first. -/
structure Onward (p p' : Parser) : Prop where
  tokens : p'.tokens = p.tokens
  arena : p.arena.Extends p'.arena

namespace Onward

theorem refl (p : Parser) : p.Onward p := ⟨rfl, .refl _⟩

theorem trans (h1 : p.Onward p') (h2 : p'.Onward p'') : p.Onward p'' :=
  ⟨h2.tokens.trans h1.tokens, h1.arena.trans h2.arena⟩

theorem skip (p : Parser) : p.Onward p.skip := ⟨rfl, .refl _⟩

theorem grow (p : Parser) (node : Node) : p.Onward (p.grow node) := ⟨rfl, .push p.arena node⟩

end Onward

/-- The tokens end with the end of the text, wherever the parser stands in them. -/
def Ends (p : Parser) : Prop := ∃ init last, p.tokens.toList = init ++ [last] ∧ last.kind = .eof

/-- The token is the current one, and there are more behind it. -/
def Next (p : Parser) (t : Token) : Prop := p.ahead = t :: p.skip.ahead

theorem Next.length (h : p.Next t) : p.ahead.length = p.skip.ahead.length + 1 := by
  rw [h, List.length_cons]

/-- Where the end has not been reached, the current token is the next one. -/
theorem Ends.next (hp : p.Ends) (hk : p.kind ≠ .eof) : ∃ t, p.Next t := by
  cases hahead : p.ahead with
  | cons t rest => exact ⟨t, by rw [Next, ahead_skip hahead, hahead]⟩
  | nil =>
    -- behind the list the current token is the last one
    obtain ⟨init, last, htokens, hlast⟩ := hp
    have hsize : p.tokens.size = init.length + 1 := by
      rw [← Array.length_toList, htokens, List.length_append, List.length_singleton]
    have hindex : p.tokens.size ≤ p.index := by
      unfold ahead at hahead
      rw [List.drop_eq_nil_iff, Array.length_toList] at hahead
      exact hahead
    refine absurd ?_ hk
    have hmin : min p.index (p.tokens.size - 1) = init.length := by omega
    rw [kind, current?, hmin, ← Array.getElem?_toList, htokens, List.getElem?_concat_length]
    exact hlast

/-- The second parser stands right behind the tokens that come first from the first one on, and none
of them is the end of the text. -/
structure Passes (p : Parser) (ts : List Token) (p' : Parser) : Prop extends p.Onward p' where
  passed : p.ahead = ts ++ p'.ahead
  index : p'.index = p.index + ts.length
  inside : ∀ t ∈ ts, t.kind ≠ .eof

namespace Passes

theorem refl (p : Parser) : p.Passes [] p := ⟨.refl p, rfl, rfl, by simp⟩

theorem trans (h1 : p.Passes ts p') (h2 : p'.Passes us p'') : p.Passes (ts ++ us) p'' where
  toOnward := h1.toOnward.trans h2.toOnward
  passed := by rw [h1.passed, h2.passed, List.append_assoc]
  index := by rw [h2.index, h1.index, List.length_append, Nat.add_assoc]
  inside t ht := (List.mem_append.mp ht).elim (h1.inside t) (h2.inside t)

theorem skip (h : p.Next t) (hk : t.kind ≠ .eof) : p.Passes [t] p.skip :=
  ⟨.skip p, h, rfl, by simpa using hk⟩

theorem grow (p : Parser) (node : Node) : p.Passes [] (p.grow node) :=
  ⟨.grow p node, rfl, rfl, by simp⟩

theorem ends (h : p.Passes ts p') (hp : p.Ends) : p'.Ends := by
  unfold Ends
  rw [h.tokens]
  exact hp

theorem length (h : p.Passes ts p') : p.ahead.length = ts.length + p'.ahead.length := by
  rw [h.passed, List.length_append]

theorem mem (h : p.Passes ts p') (ht : t ∈ ts) : t ∈ p.tokens.toList :=
  List.mem_of_mem_drop (h.passed ▸ List.mem_append_left _ ht)

end Passes

/-- The step does not fail internally, it has passed no end of the text, and if it succeeds, the
tokens it has passed satisfy `Q` with its value. -/
def Takes (p : Parser) (m : Parse α) (Q : List Token → α → Parser → Prop) : Prop :=
  Meets m p (fun e p' => ¬ e.Internal ∧ ∃ ts, p.Passes ts p') fun a p' =>
    ∃ ts, p.Passes ts p' ∧ Q ts a p'

namespace Takes

variable {m : Parse α} {Q Q' : List Token → α → Parser → Prop}
  {R : List Token → β → Parser → Prop}

theorem imp (h : p.Takes m Q) (himp : ∀ ts a p', p.Passes ts p' → Q ts a p' → Q' ts a p') :
    p.Takes m Q' := by
  refine Meets.imp h ?_
  rintro a p' ⟨ts, hpass, hq⟩
  exact ⟨ts, hpass, himp ts a p' hpass hq⟩

/-- The step goes on from another parser with what is left of it. -/
theorem of_run {m' : Parse α} (hpass : p.Passes ts p') (hrun : m p = m' p')
    (h : p'.Takes m' fun us => Q (ts ++ us)) : p.Takes m Q := by
  have hmeets : Meets m' p' (fun e p'' => ¬ e.Internal ∧ ∃ us, p.Passes us p'') fun a p'' =>
      ∃ us, p.Passes us p'' ∧ Q us a p'' := by
    refine Meets.mono h ?_ ?_
    · rintro e p'' ⟨he, us, hus⟩
      exact ⟨he, ts ++ us, hpass.trans hus⟩
    · rintro a p'' ⟨us, hus, hq⟩
      exact ⟨ts ++ us, hpass.trans hus, hq⟩
  unfold Takes Meets at *
  rw [hrun]
  exact hmeets

theorem bind {f : α → Parse β} (hm : p.Takes m Q)
    (hf : ∀ ts a p', p.Passes ts p' → Q ts a p' →
      p'.Takes (f a) fun us b p'' => R (ts ++ us) b p'') : p.Takes (m >>= f) R := by
  cases hrun : m p with
  | ok a p1 =>
    obtain ⟨ts, hpass, hq⟩ := Meets.of_ok hm hrun
    refine of_run hpass ?_ (hf ts a p1 hpass hq)
    show EStateM.bind m f p = _
    rw [EStateM.bind, hrun]
  | error e p1 =>
    have herror := Meets.of_error hm hrun
    have hbind : (m >>= f) p = .error e p1 := by
      show EStateM.bind m f p = _
      rw [EStateM.bind, hrun]
    unfold Takes Meets
    rw [hbind]
    exact herror

theorem get {f : Parser → Parse β} (hf : p.Takes (f p) R) : p.Takes (MonadState.get >>= f) R := hf

theorem pure {a : α} (h : Q [] a p) : p.Takes (Pure.pure a) Q :=
  ⟨[], .refl p, h⟩

theorem ite {c : Prop} [Decidable c] {m m' : Parse α}
    (ht : c → p.Takes m Q) (hf : ¬ c → p.Takes m' Q) : p.Takes (if c then m else m') Q :=
  meets_ite ht hf

theorem throw {e : CompileError} (h : ¬ e.Internal) : p.Takes (MonadExcept.throw e) Q :=
  ⟨h, [], .refl p⟩

theorem fail (fault : GrammarFault) : p.Takes (fail fault) Q :=
  .get (.throw id)

theorem failExpecting (expected : Expected) : p.Takes (failExpecting expected) Q := by
  unfold Parser.failExpecting
  refine .get ?_
  split <;> exact .fail _

theorem advance {f : Unit → Parse β} (hp : p.Ends) (hk : p.kind ≠ .eof)
    (hf : ∀ t, p.Next t → p.skip.Takes (f ()) fun us => R (t :: us)) :
    p.Takes (Parser.advance >>= f) R := by
  obtain ⟨t, ht⟩ := hp.next hk
  exact of_run (.skip ht (kind_of_ahead ht ▸ hk)) (advance_bind hk) (hf t ht)

theorem expect_not {f : String → Parse β} (hk : p.kind ≠ k) :
    p.Takes (Parser.expect k >>= f) R := by
  refine .bind (Q := fun _ _ _ => False) ?_ fun _ _ _ _ h => h.elim
  unfold Parser.expect
  refine .get ?_
  rw [if_neg hk]
  exact .failExpecting _

theorem expect {f : String → Parse β} (hp : p.Ends) (hk : k ≠ .eof)
    (hf : ∀ t, p.Next t → t.kind = k → p.skip.Takes (f t.lexeme) fun us => R (t :: us)) :
    p.Takes (Parser.expect k >>= f) R := by
  by_cases hkind : p.kind = k
  · obtain ⟨t, ht⟩ := hp.next (hkind ▸ hk)
    have htk : t.kind = k := (kind_of_ahead ht).symm.trans hkind
    exact of_run (.skip ht (htk ▸ hk)) (expect_bind ht htk hk) (hf t ht htk)
  · exact expect_not hkind

theorem expect_eof {f : String → Parse β} (hf : p.kind = .eof → ∀ lexeme, p.Takes (f lexeme) R) :
    p.Takes (Parser.expect .eof >>= f) R := by
  by_cases hkind : p.kind = .eof
  · exact of_run (.refl p) (expect_eof_bind hkind) (hf hkind _)
  · exact expect_not hkind

theorem accept {f : Bool → Parse β} (hp : p.Ends) (hk : k ≠ .eof)
    (hyes : ∀ t, p.Next t → t.kind = k → p.skip.Takes (f true) fun us => R (t :: us))
    (hno : p.Takes (f false) R) : p.Takes (Parser.accept k >>= f) R := by
  by_cases hkind : p.kind = k
  · obtain ⟨t, ht⟩ := hp.next (hkind ▸ hk)
    have htk : t.kind = k := (kind_of_ahead ht).symm.trans hkind
    exact of_run (.skip ht (htk ▸ hk)) (accept_bind ht htk hk) (hyes t ht htk)
  · exact of_run (.refl p) (accept_bind_not hkind) hno

theorem push {f : NodeId → Parse β} (node : Node) (hf : (p.grow node).Takes (f p.arena.size) R) :
    p.Takes (Parser.push node >>= f) R :=
  of_run (.grow p node) (push_bind node) hf

/-- The step ends with a new node. -/
theorem pushed {Q : List Token → NodeId → Parser → Prop} (node : Node)
    (h : Q [] p.arena.size (p.grow node)) : p.Takes (Parser.push node) Q :=
  ⟨[], .grow p node, h⟩

end Takes

/-! ## Known tokens -/

/-- The second parser stands before `rest`, and its arena extends that of the first. -/
structure Leaves (p : Parser) (rest : List Token) (p' : Parser) : Prop extends p.Onward p' where
  ahead : p'.ahead = rest

/-- The step succeeds, stops before `rest` and yields a value with `Q`. -/
def Finds (p : Parser) (m : Parse α) (rest : List Token) (Q : α → Parser → Prop) : Prop :=
  ∃ a p', m p = .ok a p' ∧ p.Leaves rest p' ∧ Q a p'

namespace Finds

variable {m : Parse α} {f : α → Parse β} {Q Q' : α → Parser → Prop} {R : β → Parser → Prop}

theorem imp (h : p.Finds m rest Q) (himp : ∀ a p', p.Leaves rest p' → Q a p' → Q' a p') :
    p.Finds m rest Q' := by
  obtain ⟨a, p', hrun, hleaves, hq⟩ := h
  exact ⟨a, p', hrun, hleaves, himp a p' hleaves hq⟩

/-- The step goes on from another parser with what is left of it. -/
theorem of_run {m' : Parse α} (hon : p.Onward p') (hrun : m p = m' p') (h : p'.Finds m' rest Q) :
    p.Finds m rest Q := by
  obtain ⟨a, p'', hrun', hleaves, hq⟩ := h
  exact ⟨a, p'', hrun.trans hrun', ⟨hon.trans hleaves.toOnward, hleaves.ahead⟩, hq⟩

theorem bind (hm : p.Finds m us Q)
    (hf : ∀ a p', p.Leaves us p' → Q a p' → p'.Finds (f a) rest R) : p.Finds (m >>= f) rest R := by
  obtain ⟨a, p1, hrun1, hleaves1, hq⟩ := hm
  refine of_run hleaves1.toOnward ?_ (hf a p1 hleaves1 hq)
  show EStateM.bind m f p = _
  rw [EStateM.bind, hrun1]

theorem get {f : Parser → Parse β} (hf : p.Finds (f p) rest R) :
    p.Finds (MonadState.get >>= f) rest R := hf

theorem pure {a : α} (h : p.ahead = rest) (hq : Q a p) : p.Finds (Pure.pure a) rest Q :=
  ⟨a, p, rfl, ⟨.refl p, h⟩, hq⟩

theorem advance {f : Unit → Parse β} (h : p.ahead = t :: us) (hk : t.kind ≠ .eof)
    (hf : p.skip.ahead = us → p.skip.Finds (f ()) rest R) :
    p.Finds (Parser.advance >>= f) rest R :=
  of_run (.skip p) (advance_bind (kind_of_ahead h ▸ hk)) (hf (ahead_skip h))

theorem expect {f : String → Parse β} (h : p.ahead = t :: us) (hk : t.kind = k) (hne : k ≠ .eof)
    (hf : p.skip.ahead = us → p.skip.Finds (f t.lexeme) rest R) :
    p.Finds (Parser.expect k >>= f) rest R :=
  of_run (.skip p) (expect_bind h hk hne) (hf (ahead_skip h))

theorem accept {f : Bool → Parse β} (h : p.ahead = t :: us) (hk : t.kind = k) (hne : k ≠ .eof)
    (hf : p.skip.ahead = us → p.skip.Finds (f true) rest R) :
    p.Finds (Parser.accept k >>= f) rest R :=
  of_run (.skip p) (accept_bind h hk hne) (hf (ahead_skip h))

theorem accept_not {f : Bool → Parse β} (h : p.ahead = t :: us) (hk : t.kind ≠ k)
    (hf : p.Finds (f false) rest R) : p.Finds (Parser.accept k >>= f) rest R :=
  of_run (.refl p) (accept_bind_not (kind_of_ahead h ▸ hk)) hf

theorem expect_eof {f : String → Parse β} (h : p.ahead = t :: us) (hk : t.kind = .eof)
    (hf : ∀ lexeme, p.Finds (f lexeme) rest R) : p.Finds (Parser.expect .eof >>= f) rest R :=
  of_run (.refl p) (expect_eof_bind ((kind_of_ahead h).trans hk)) (hf _)

theorem push {f : NodeId → Parse β} (node : Node)
    (hf : (p.grow node).Finds (f p.arena.size) rest R) : p.Finds (Parser.push node >>= f) rest R :=
  of_run (.grow p node) (push_bind node) hf

/-- The step ends with a new node. -/
theorem pushed {Q : NodeId → Parser → Prop} (node : Node) (h : p.ahead = rest)
    (hq : Q p.arena.size (p.grow node)) : p.Finds (Parser.push node) rest Q :=
  ⟨p.arena.size, p.grow node, rfl, ⟨.grow p node, h⟩, hq⟩

end Finds

/-! ## The two parts of a program -/

/-- Reads the statements of a program and what stands before them. -/
def front : Parse NodeId := do
  let _ ← expect .openTag
  prologue
  statements (3 * (← get).tokens.size + 8) true none

/-- Reads what stands behind the statements of a program. -/
def back : Parse Unit := do
  let _ ← accept .closeTag
  let _ ← expect .eof

theorem parse_eq : parse = front >>= fun root => back >>= fun _ => takeProgram root := by
  simp only [parse, front, back, bind_assoc, pure_bind]

/-! ## Argument lists -/

/-- The expressions lie one behind the other from `lo` on and below `hi`, with their roots at the
places of the list. -/
def Row (a : Arena) : List Expr → Nat → List Nat → Nat → Prop
  | [], lo, [], hi => lo ≤ hi
  | e :: args, lo, i :: ids, hi => e.At a lo i ∧ Row a args (i + 1) ids hi
  | _, _, _, _ => False

/-- Linking the values of a row makes an argument list of it. -/
theorem pushArgs_row {ids : List Nat} : ∀ {args : List Expr} {lo : Nat} {p : Parser},
    Row p.arena args lo ids p.arena.size → ∃ link a, pushArgs ids p = .ok link { p with arena := a } ∧
      p.arena.Extends a ∧ ArgsAt a args lo a.size link ∧ a.size = p.arena.size + args.length := by
  induction ids with
  | nil =>
    intro args lo p hrow
    cases args with
    | nil => exact ⟨none, p.arena, rfl, .refl _, ⟨rfl, hrow⟩, rfl⟩
    | cons e args => exact hrow.elim
  | cons i ids ih =>
    intro args lo p hrow
    cases args with
    | nil => exact hrow.elim
    | cons e args =>
      obtain ⟨he, hrest⟩ := hrow
      obtain ⟨next, a, hrun, hext, hargs, hsize⟩ := ih hrest
      have hpush := Arena.Extends.push a (.argument i next)
      refine ⟨some a.size, (a.push (.argument i next)).2, ?_, hext.trans hpush, ?_, ?_⟩
      · unfold pushArgs
        simp only [Bind.bind, EStateM.bind, hrun]
        rfl
      · refine ⟨a.size, i, next, rfl, by simp, by rw [Arena.node_push, if_pos rfl], ?_, ?_⟩
        · exact (hext.trans hpush).exprAt he
        · exact hargs.congr (Nat.le_refl _) fun k _ hk => hpush.node k hk
      · rw [Arena.size_push, hsize, List.length_cons]
        omega

/-! ## Kinds of tokens -/

theorem literal?_ne_eof {r : Except LexicalFault Node} (h : literal? t = some r) :
    t.kind ≠ .eof := by
  intro hk
  unfold literal? at h
  rw [hk] at h
  simp at h

theorem TokenKind.ne_eof_of_binaryOp? {op : BinOp} (h : k.binaryOp? = some op) : k ≠ .eof := by
  rintro rfl
  simp [TokenKind.binaryOp?] at h

theorem TokenKind.ne_eof_of_unaryOp? {op : UnaryOp} (h : k.unaryOp? = some op) : k ≠ .eof := by
  rintro rfl
  simp [TokenKind.unaryOp?] at h

end Parser

end Ifj22
