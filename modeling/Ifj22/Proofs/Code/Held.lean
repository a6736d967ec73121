import Ifj22.Proofs.Code.Piece
set_option autoImplicit false

/-!
# Code: what is on the stack at a place

A place is the code from there on.  At each place of a piece of code it is known where the values
were pushed that the piece has on the data stack: they are arguments of calls that are still to be
made.  A jump inside a piece leads to a place at which the same values are on the stack, a function is
left with none, and at a call the arguments of this call are on top.
-/

namespace Ifj22.Code

/-- A place in a program: the code from there on. -/
abbrev Place := List Instr

variable {i : Instr} {name : String} {α : Type} {args : List Expr} {start : Place}
  {places : List Place} {r : Routine} {jumps : Label → List Place → Prop} {xs : List α} {x y : α}

/-! ## Calls -/

/-- The code at `start` pushes the values of the arguments at the places, the first one first, and
comes to `rest`. -/
inductive Arguments : List Expr → Place → Place → List Place → Prop
  | nil {rest : Place} : Arguments [] rest rest []
  | cons {e : Expr} {args : List Expr} {value : List Instr} {a : Operand} {next rest : Place}
    {places : List Place} (he : Emitted e value a) (hmore : Arguments args next rest places) :
    Arguments (e :: args) (value ++ .push a :: next) rest ((.push a :: next) :: places)

theorem Arguments.length_eq {rest : Place} (h : Arguments args start rest places) :
    places.length = args.length := by
  induction h with
  | nil => rfl
  | cons _ _ ih => rw [List.length_cons, List.length_cons, ih]

/-- Where the number of arguments is pushed for a call, if it is; `rest` is the code behind it. -/
def countPlace (name : String) (n : Nat) (rest : Place) : List Place :=
  if name = "write" then [.push (.int (Int64.ofNat n)) :: .createFrame :: .call (.entry name) :: rest]
  else []

/-- The values of a call are pushed at the places, the last one first; `rest` is the code behind
the call.  Every value has a place of its own, so at a call it can be told which argument a value
on the stack is, and not only how many there are. -/
inductive CallSite : Label → Place → List Place → Prop
  | call {name : String} {args : List Expr} {start rest : Place} {places : List Place}
    (h : Arguments args start (callEnd name args.length ++ rest) places) :
    CallSite (.entry name) rest (countPlace name args.length rest ++ places.reverse)
  | convert {r : Routine} {value : Operand} {rest : Place} (hr : r.isConversion = true) :
    CallSite r.entry rest [.push value :: .createFrame :: .call r.entry :: rest]

/-- What a label stands for that generated code calls. -/
def Callee (V : Vocabulary) (helpers : List Routine) (l : Label) : Prop :=
  (∃ name n, l = .entry name ∧ V.callee name n) ∨ ∃ r ∈ helpers, l = r.entry ∧ r.isConversion = true

/-! ## Places of values -/

section

variable (arity : Label → Nat)

/-- How many values a call takes, given where those on the stack were pushed; `write` is told.
For `write` the last push has the number of the others for its operand. -/
def taken (l : Label) (held : List Place) : Nat :=
  if l = Routine.write.entry then
    match held with
    | (.push (.int n) :: _) :: _ => n.toInt.toNat + 1
    | _ => 0
  else arity l

/-- Where the values on the stack were pushed, behind the instruction at a place. -/
def heldBehind (held : List Place) : Place → List Place
  | .push a :: rest => (.push a :: rest) :: held
  | .call l :: _ => held.drop (taken arity l held)
  | _ => held

/-- Where the values on the stack were pushed, behind code that comes to `rest`. -/
def heldOver : List Instr → Place → List Place → List Place
  | [], _, held => held
  | i :: code, rest, held => heldOver code rest (heldBehind arity held (i :: (code ++ rest)))

/-- The calls of a vocabulary take as many values as they have arguments.  Below `2 ^ 63` a number
of arguments is itself when it is pushed as a word. -/
structure Fits (V : Vocabulary) : Prop where
  small : ∀ {name n}, V.callee name n → n < 2 ^ 63
  callee : ∀ {name n}, V.callee name n → name ≠ "write" → arity (.entry name) = n
  convert : ∀ {r : Routine}, r.isConversion = true → arity r.entry = 1

end

variable {arity : Label → Nat} {V : Vocabulary} {helpers : List Routine} {role : Role}
  {code : List Instr}

theorem taken_write (n : Int64) (rest : Place) (held : List Place) :
    taken arity Routine.write.entry ((.push (.int n) :: rest) :: held) = n.toInt.toNat + 1 :=
  if_pos rfl

theorem taken_of_ne {l : Label} (h : l ≠ Routine.write.entry) (held : List Place) :
    taken arity l held = arity l :=
  if_neg h

theorem heldOver_append (code code' : List Instr) (rest : Place) (held : List Place) :
    heldOver arity (code ++ code') rest held =
      heldOver arity code' rest (heldOver arity code (code' ++ rest) held) := by
  induction code generalizing held with
  | nil => rfl
  | cons i code ih =>
    rw [List.cons_append, heldOver, heldOver, ih, List.append_assoc]

theorem heldOver_concat (code : List Instr) (i : Instr) (rest : Place) (held : List Place) :
    heldOver arity (code ++ [i]) rest held =
      heldBehind arity (heldOver arity code (i :: rest) held) (i :: rest) := by
  rw [heldOver_append]
  rfl

theorem heldBehind_eq (hpush : ∀ a, i ≠ .push a) (hcall : ∀ l, i ≠ .call l) (rest : Place)
    (held : List Place) : heldBehind arity held (i :: rest) = held := by
  cases i with
  | push a => exact absurd rfl (hpush a)
  | call l => exact absurd rfl (hcall l)
  | _ => rfl

theorem entry_eq_write : Label.entry name = Routine.write.entry ↔ name = "write" := by
  show Label.entry name = Label.entry "write" ↔ _
  rw [Label.entry.injEq]

theorem Routine.entry_ne_write (h : r.isConversion = true) : r.entry ≠ Routine.write.entry := by
  revert h
  cases r <;> decide

/-- A call takes what was pushed for it. -/
theorem taken_call (hfits : Fits arity V) {n : Nat} (h : V.callee name n) (rest : Place)
    (hplaces : places.length = n) (below : List Place) :
    taken arity (.entry name) (countPlace name n rest ++ places ++ below) =
      (countPlace name n rest ++ places).length := by
  unfold countPlace
  by_cases hname : name = "write"
  · have hn : (Int64.ofNat n).toInt = n := Int64.toInt_ofNat_of_lt (hfits.small h)
    rw [entry_eq_write.mpr hname, if_pos hname, List.singleton_append, List.cons_append, taken_write, hn,
      Int.toNat_natCast, List.length_cons, hplaces]
  · rw [taken_of_ne (mt entry_eq_write.mp hname), if_neg hname, List.nil_append,
      hfits.callee h hname, hplaces]

theorem taken_convert (hfits : Fits arity V) (h : r.isConversion = true) (held : List Place) :
    taken arity r.entry held = 1 := by
  rw [taken_of_ne (Routine.entry_ne_write h), hfits.convert h]

theorem heldOver_callEnd (hfits : Fits arity V) {n : Nat} (h : V.callee name n) (rest : Place)
    (hplaces : places.length = n) (below : List Place) :
    heldOver arity (callEnd name n) rest (places ++ below) = below := by
  have hlast : heldOver arity (callEnd name n) rest (places ++ below) =
      (countPlace name n rest ++ places ++ below).drop
        (taken arity (.entry name) (countPlace name n rest ++ places ++ below)) := by
    unfold callEnd countPlace
    split <;> rfl
  rw [hlast, taken_call hfits h rest hplaces, List.drop_left]

/-- The places at which a piece pushes values that it leaves on the stack, the last one first. -/
def Role.Pushes (role : Role) (code : List Instr) (rest : Place) (places : List Place) : Prop :=
  match role with
  | .level _ _ _ => places = []
  | .args es => Arguments es (code ++ rest) rest places.reverse

/-- A piece leaves the stack as it found it, but for the arguments that it pushes. -/
theorem Piece.heldOver_eq (h : Piece V helpers role code) (hfits : Fits arity V) :
    ∀ (rest : Place) (held : List Place), ∃ places, role.Pushes code rest places ∧
      heldOver arity code rest held = places ++ held := by
  induction h with
  | nil => exact fun _ _ => ⟨[], rfl, rfl⟩
  | plain hi =>
    refine fun _ _ => ⟨[], rfl, heldBehind_eq ?_ ?_ _ _⟩
    all_goals rintro _ rfl; cases hi
  | jump hi =>
    refine fun _ _ => ⟨[], rfl, heldBehind_eq ?_ ?_ _ _⟩
    all_goals rintro _ rfl; cases hi
  | label => exact fun _ _ => ⟨[], rfl, rfl⟩
  | @append _ _ _ _ code code' _ _ ih ih' =>
    intro rest held
    obtain ⟨_, rfl, h⟩ := ih (code' ++ rest) held
    obtain ⟨_, rfl, h'⟩ := ih' rest held
    refine ⟨[], rfl, ?_⟩
    rw [heldOver_append, h, List.nil_append]
    exact h'
  | closed _ ih =>
    intro rest held
    obtain ⟨_, rfl, h⟩ := ih rest held
    exact ⟨[], rfl, h⟩
  | @convert _ _ r value _ hr =>
    intro rest held
    refine ⟨[], rfl, ?_⟩
    show (_ :: held).drop (taken arity r.entry _) = held
    rw [taken_convert hfits hr]
    rfl
  | @call _ _ name args code hc _ ih =>
    intro rest held
    obtain ⟨places, hargs, h⟩ := ih (callEnd name args.length ++ rest) held
    have hlength : places.length = args.length := by
      rw [← List.length_reverse]
      exact Arguments.length_eq hargs
    refine ⟨[], rfl, ?_⟩
    rw [heldOver_append, h, heldOver_callEnd hfits hc rest hlength, List.nil_append]
  | leave => exact fun _ _ => ⟨[], rfl, rfl⟩
  | none => exact fun _ _ => ⟨[], .nil, rfl⟩
  | @arg e args value code a he _ _ ihv ih =>
    intro rest held
    obtain ⟨_, rfl, hv⟩ := ihv (.push a :: code ++ rest) held
    obtain ⟨places, hargs, h⟩ := ih rest ((.push a :: (code ++ rest)) :: held)
    refine ⟨places ++ [.push a :: (code ++ rest)], ?_, ?_⟩
    · show Arguments _ _ _ (places ++ [_]).reverse
      rw [List.reverse_append, List.append_assoc]
      exact .cons he hargs
    · rw [heldOver_append, hv, List.append_assoc]
      exact h

/-- A piece of one level leaves the stack as it found it. -/
theorem Piece.heldOver_level {leaves : Bool} {targets sets : List Label}
    (h : Piece V helpers (.level leaves targets sets) code) (hfits : Fits arity V) (rest : Place)
    (held : List Place) : heldOver arity code rest held = held := by
  obtain ⟨_, rfl, hheld⟩ := h.heldOver_eq hfits rest held
  exact hheld

/-! ## Jumps -/

/-- The label is set at a place of the code where the values of `held` are on the stack; before the
code it was those of `base`. -/
def Lands (arity : Label → Nat) (code : List Instr) (rest : Place) (base : List Place) (l : Label)
    (held : List Place) : Prop :=
  ∃ a b, code = a ++ .label l :: b ∧ heldOver arity a (.label l :: (b ++ rest)) base = held

namespace Lands

variable {code' : List Instr} {rest : Place} {base held : List Place} {l : Label}

theorem append_left (h : Lands arity code (code' ++ rest) base l held) :
    Lands arity (code ++ code') rest base l held := by
  obtain ⟨a, b, rfl, hheld⟩ := h
  refine ⟨a, b ++ code', by rw [List.append_assoc, List.cons_append], ?_⟩
  rw [List.append_assoc]
  exact hheld

theorem append_right (h : Lands arity code' rest (heldOver arity code (code' ++ rest) base) l held) :
    Lands arity (code ++ code') rest base l held := by
  obtain ⟨a, b, rfl, hheld⟩ := h
  refine ⟨code ++ a, b, (List.append_assoc ..).symm, ?_⟩
  rw [heldOver_append]
  rw [List.append_assoc, List.cons_append] at hheld
  exact hheld

end Lands

/-- The labels that a piece sets for others are set where the stack is as the piece found it. -/
theorem Piece.lands (h : Piece V helpers role code) (hfits : Fits arity V) :
    ∀ (rest : Place) (base : List Place), ∀ l ∈ role.sets, Lands arity code rest base l base := by
  induction h with
  | @label _ _ l =>
    rintro rest base _ hl
    obtain rfl := List.mem_singleton.mp hl
    exact ⟨[], [], rfl, rfl⟩
  | @append _ _ _ _ code code' h _ ih ih' =>
    intro rest base l hl
    rcases List.mem_append.mp hl with hl | hl
    · exact (ih _ base l hl).append_left
    · refine Lands.append_right ?_
      rw [h.heldOver_level hfits]
      exact ih' rest base l hl
  | _ => exact fun _ _ l hl => absurd hl List.not_mem_nil

/-! ## Instructions -/

/-- What an instruction may be at a place where values were pushed at `held`, given where jumps may
lead and what may be on the stack when the function is left.  `rest` is the code behind it. -/
inductive Spot (arity : Label → Nat) (V : Vocabulary) (helpers : List Routine)
    (jumps : Label → List Place → Prop) (leaves : List Place → Prop) (held : List Place) :
    Instr → Place → Prop
  | plain {i : Instr} {rest : Place} (h : i.isPlain = true) :
    Spot arity V helpers jumps leaves held i rest
  | jump {i : Instr} {rest : Place} {l : Label} (h : i.jump? = some l) (hl : jumps l held) :
    Spot arity V helpers jumps leaves held i rest
  | label {l : Label} {rest : Place} : Spot arity V helpers jumps leaves held (.label l) rest
  | push {a : Operand} {rest : Place} : Spot arity V helpers jumps leaves held (.push a) rest
  | createFrame {rest : Place} : Spot arity V helpers jumps leaves held .createFrame rest
  | call {l : Label} {rest : Place} {places below : List Place} (hc : Callee V helpers l)
    (hsite : CallSite l rest places) (hheld : held = places ++ below)
    (htaken : taken arity l held = places.length) :
    Spot arity V helpers jumps leaves held (.call l) rest
  | popFrame {rest : Place} (h : leaves held) : Spot arity V helpers jumps leaves held .popFrame rest
  | ret {rest : Place} (h : leaves held) : Spot arity V helpers jumps leaves held .ret rest

theorem Spot.mono {jumps' : Label → List Place → Prop} {leaves leaves' : List Place → Prop}
    {held : List Place} {rest : Place} (h : Spot arity V helpers jumps leaves held i rest)
    (hjumps : ∀ l, jumps l held → jumps' l held) (hleaves : leaves held → leaves' held) :
    Spot arity V helpers jumps' leaves' held i rest := by
  cases h with
  | plain h => exact .plain h
  | jump h hl => exact .jump h (hjumps _ hl)
  | label => exact .label
  | push => exact .push
  | createFrame => exact .createFrame
  | call hc hsite hheld htaken => exact .call hc hsite hheld htaken
  | popFrame h => exact .popFrame (hleaves h)
  | ret h => exact .ret (hleaves h)

/-- Whether a piece may leave the function. -/
def Role.leaves : Role → Bool
  | .level leaves _ _ => leaves
  | .args _ => false

/-- An instruction of code that is put together from two parts is in one of them. -/
theorem append_eq_append_cons {ys a b : List α} (h : xs ++ ys = a ++ x :: b) :
    (∃ b', xs = a ++ x :: b' ∧ b = b' ++ ys) ∨ ∃ a', a = xs ++ a' ∧ ys = a' ++ x :: b := by
  rcases List.append_eq_append_iff.mp h with ⟨a', rfl, hy⟩ | ⟨c, rfl, hc⟩
  · exact .inr ⟨a', rfl, hy⟩
  · cases c with
    | nil => exact .inr ⟨[], by simp, by simpa using hc.symm⟩
    | cons y c =>
      obtain ⟨rfl, rfl⟩ := List.cons.inj hc
      exact .inl ⟨c, rfl, rfl⟩

/-- Where an instruction of a piece may jump to: out of the piece where the stack is as the piece found
it, or to a label of the piece where the stack is the same. -/
def Role.Jumps (arity : Label → Nat) (role : Role) (code : List Instr) (rest : Place)
    (base : List Place) (l : Label) (held : List Place) : Prop :=
  (l ∈ role.targets ∧ held = base) ∨ Lands arity code rest base l held

theorem cons_eq_append_cons {a b : List α} (h : x :: xs = a ++ y :: b) :
    (a = [] ∧ y = x ∧ b = xs) ∨ ∃ a', a = x :: a' ∧ xs = a' ++ y :: b := by
  cases a with
  | nil =>
    obtain ⟨rfl, rfl⟩ := List.cons.inj h
    exact .inl ⟨rfl, rfl, rfl⟩
  | cons z a =>
    obtain ⟨rfl, rfl⟩ := List.cons.inj h
    exact .inr ⟨a, rfl, rfl⟩

theorem eq_of_singleton_eq {a b : List α} (h : [x] = a ++ y :: b) : a = [] ∧ y = x ∧ b = [] := by
  rcases cons_eq_append_cons h with h | ⟨a', _, h⟩
  · exact h
  · simp at h

/-- The end of a call, given where its arguments were pushed. -/
theorem spot_callEnd (hfits : Fits arity V) (hc : V.callee name args.length) {rest : Place}
    (hargs : Arguments args start (callEnd name args.length ++ rest) places.reverse)
    {leaves : List Place → Prop} (base : List Place) {a b : List Instr}
    (heq : callEnd name args.length = a ++ i :: b) :
    Spot arity V helpers jumps leaves
      (heldOver arity a (i :: (b ++ rest)) (places ++ base)) i (b ++ rest) := by
  have hlength : places.length = args.length := by
    rw [← List.length_reverse]
    exact hargs.length_eq
  have hsite := CallSite.call hargs
  rw [List.reverse_reverse] at hsite
  have hcall : Spot arity V helpers jumps leaves
      (countPlace name args.length rest ++ places ++ base) (.call (.entry name)) rest :=
    .call (.inl ⟨name, args.length, rfl, hc⟩) hsite rfl (taken_call hfits hc rest hlength base)
  unfold callEnd at heq
  unfold countPlace at hcall
  split at heq
  · rename_i hname
    rw [if_pos hname] at hcall
    rcases cons_eq_append_cons heq with ⟨rfl, rfl, rfl⟩ | ⟨a, rfl, hrest1⟩
    · exact .push
    rcases cons_eq_append_cons hrest1 with ⟨rfl, rfl, rfl⟩ | ⟨a, rfl, hrest2⟩
    · exact .createFrame
    obtain ⟨rfl, rfl, rfl⟩ := eq_of_singleton_eq hrest2
    exact hcall
  · rename_i hname
    rw [if_neg hname] at hcall
    rcases cons_eq_append_cons heq with ⟨rfl, rfl, rfl⟩ | ⟨a, rfl, hrest1⟩
    · exact .createFrame
    obtain ⟨rfl, rfl, rfl⟩ := eq_of_singleton_eq hrest1
    exact hcall

/-- What an instruction of a piece may be, with the values on the stack. -/
theorem Piece.spot (h : Piece V helpers role code) (hfits : Fits arity V) :
    ∀ (rest : Place) (base : List Place) (a : List Instr) (i : Instr) (b : List Instr),
      code = a ++ i :: b → Spot arity V helpers (role.Jumps arity code rest base)
        (fun held => role.leaves = true ∧ held = base)
        (heldOver arity a (i :: (b ++ rest)) base) i (b ++ rest) := by
  induction h with
  | nil => exact fun _ _ a i b heq => absurd heq (by simp)
  | plain hi =>
    intro rest base a i b heq
    obtain ⟨rfl, rfl, rfl⟩ := eq_of_singleton_eq heq
    exact .plain hi
  | jump hi hl =>
    intro rest base a i b heq
    obtain ⟨rfl, rfl, rfl⟩ := eq_of_singleton_eq heq
    exact .jump hi (.inl ⟨hl, rfl⟩)
  | label =>
    intro rest base a i b heq
    obtain ⟨rfl, rfl, rfl⟩ := eq_of_singleton_eq heq
    exact .label
  | @append leaves _ _ _ code code' h _ ih ih' =>
    intro rest base a i b heq
    rcases append_eq_append_cons heq with ⟨b', rfl, rfl⟩ | ⟨a', rfl, rfl⟩
    · rw [List.append_assoc b']
      refine (ih (code' ++ rest) base a i b' rfl).mono (fun l hl => ?_) fun hheld => hheld
      exact hl.imp_right Lands.append_left
    · have hspot := ih' rest base a' i b rfl
      rw [heldOver_append, h.heldOver_level hfits]
      refine hspot.mono (fun l hl => hl.imp_right fun hl => Lands.append_right ?_) fun hheld => hheld
      rw [h.heldOver_level hfits]
      exact hl
  | closed h ih =>
    intro rest base a i b heq
    refine (ih rest base a i b heq).mono (fun l hl => .inr ?_) fun hheld => hheld
    rcases hl with ⟨hl, hheld⟩ | hl
    · rw [hheld]
      exact h.lands hfits rest base l hl
    · exact hl
  | @convert _ _ r value hmem hr =>
    intro rest base a i b heq
    rcases cons_eq_append_cons heq with ⟨rfl, rfl, rfl⟩ | ⟨a, rfl, hrest1⟩
    · exact .push
    rcases cons_eq_append_cons hrest1 with ⟨rfl, rfl, rfl⟩ | ⟨a, rfl, hrest2⟩
    · exact .createFrame
    obtain ⟨rfl, rfl, rfl⟩ := eq_of_singleton_eq hrest2
    exact .call (.inr ⟨r, hmem, rfl, hr⟩) (.convert hr) rfl (taken_convert hfits hr _)
  | @call _ _ name args code hc h ih =>
    intro rest base a i b heq
    rcases append_eq_append_cons heq with ⟨b', rfl, rfl⟩ | ⟨a', rfl, hend⟩
    · rw [List.append_assoc b']
      refine (ih (callEnd name args.length ++ rest) base a i b' rfl).mono (fun l hl => ?_)
        fun hleaves => absurd hleaves.1 Bool.false_ne_true
      rcases hl with ⟨hl, _⟩ | hl
      · cases hl
      · exact .inr hl.append_left
    · obtain ⟨places, hargs, hheld⟩ := h.heldOver_eq hfits (callEnd name args.length ++ rest) base
      rw [heldOver_append]
      rw [hend, List.append_assoc, List.cons_append] at hheld
      rw [hheld]
      exact spot_callEnd hfits hc hargs base hend
  | leave =>
    intro rest base a i b heq
    rcases cons_eq_append_cons heq with ⟨rfl, rfl, rfl⟩ | ⟨a, rfl, hrest1⟩
    · exact .popFrame ⟨rfl, rfl⟩
    obtain ⟨rfl, rfl, rfl⟩ := eq_of_singleton_eq hrest1
    exact .ret ⟨rfl, rfl⟩
  | none => exact fun _ _ a i b heq => absurd heq (by simp)
  | @arg e args value code x he hv h ihv ih =>
    intro rest base a i b heq
    rcases append_eq_append_cons heq with ⟨b', rfl, rfl⟩ | ⟨a', rfl, hmore⟩
    · rw [List.append_assoc b']
      refine (ihv (.push x :: code ++ rest) base a i b' rfl).mono (fun l hl => ?_)
        fun hleaves => absurd hleaves.1 Bool.false_ne_true
      rcases hl with ⟨hl, _⟩ | hl
      · cases hl
      · exact .inr hl.append_left
    · rcases cons_eq_append_cons hmore with ⟨rfl, rfl, rfl⟩ | ⟨a', rfl, rfl⟩
      · exact .push
      · rw [heldOver_append, hv.heldOver_level hfits]
        refine (ih rest _ a' i b rfl).mono (fun l hl => ?_)
          fun hleaves => absurd hleaves.1 Bool.false_ne_true
        rcases hl with ⟨hl, _⟩ | ⟨c, d, hsplit, hheld⟩
        · cases hl
        · refine .inr (Lands.append_right ⟨.push x :: c, d, by rw [hsplit]; rfl, ?_⟩)
          have hplace : c ++ .label l :: (d ++ rest) = a' ++ i :: (b ++ rest) := by
            simpa using congrArg (· ++ rest) hsplit.symm
          rw [hv.heldOver_level hfits]
          show heldOver arity c _ ((.push x :: (c ++ .label l :: (d ++ rest))) :: base) = _
          rw [hplace]
          exact hheld

end Ifj22.Code
