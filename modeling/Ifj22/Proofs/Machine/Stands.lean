import Ifj22.Proofs.Code.Calls
import Ifj22.Proofs.Machine.Moment
set_option autoImplicit false

/-!
# Machine: where a run of a listing stands

At every moment of a run of a listing it is known what is on the data stack: above what was there when
the innermost call had taken its arguments there are the arguments of calls that are still to be
made.  A function first takes its parameters, a routine is at a place behind so many pops, and `write`
counts its arguments down.  Each instruction leads from one such moment to another.
-/

namespace Ifj22.Machine

open Code Code.Generator

variable {name : String} {more params : List Param} {b : List Stmt} {lower own : List Moment}
  {k n : Nat} {code a back front : Place} {i : Instr} {l : Label} {declared : Option Ty}
  {r : Routine} {p : Param}

/-- How many values the call at a moment takes; `write` is told by the value on top of the stack. -/
def Moment.taken (arity : Label → Nat) (K : Moment) : Nat :=
  match K.config.code with
  | .call l :: _ =>
    if l = Routine.write.entry then
      match K.config.stack with
      | .int n :: _ => n.toNat + 1
      | _ => 0
    else arity l
  | _ => 0

/-- What is left on the stack when the innermost call has taken its arguments. -/
def floor (arity : Label → Nat) : List Moment → List Moment
  | [] => []
  | K :: _ => K.pushes.drop (K.taken arity)

/-- The moments are at the places, inside the given calls. -/
def Marked (calls : List Moment) : List Moment → List Place → Prop :=
  List.Forall₂ fun A place => A.config.code = place ∧ A.calls = calls

/-- The parameters hold the values that were on top of the stack at the call, the top first. -/
def Bound (c : Config) (K : Moment) (params : List Param) : Prop :=
  ∀ (j : Nat) (p : Param) (A : Moment), params[j]? = some p → K.pushes[j]? = some A →
    c.get ⟨.lf, bareName p.name⟩ = some A.pushed?

section

variable (t : SymbolTable) (limit : Nat) (body : List Stmt) (g : Generator)

/-- The code of the main body or of a function, with its end; `rest` is the code behind it. -/
structure Block (code rest : Place) : Prop where
  piece : ∃ scope, Piece (names t limit scope) g.helpers (.level true [] []) code
  last : ∃ i, code.getLast? = some i ∧ (i = .ret ∨ i = .exit (.int 0))
  place : (code ++ rest) <:+ g.finish.listing.instructions

/-- The call at a moment enters a function with these parameters. -/
structure Enters (K : Moment) (name : String) (params : List Param) : Prop where
  function : ∃ declared b, Stmt.function name params declared b ∈ body
  call : ∃ rest, K.config.code = .call (.entry name) :: rest
  taken : K.taken (arityOf body) = params.length
  distinct : (params.map fun p => bareName p.name).Nodup

/-- The call at a moment enters `write` for `n` values. -/
structure Writes (K : Moment) (n : Nat) : Prop where
  call : ∃ rest, K.config.code = .call Routine.write.entry :: rest
  stack : ∃ rest, K.config.stack = .int n :: rest
  small : n < 2 ^ 63

/-- The code of `write` before it takes the number of its values. -/
def writeEnter : Place :=
  [.pushFrame, .defVar Var.result, .move Var.result .nil] ++ Routine.declare ["count", "value"]

/-- The code of `write` behind the call for the values before the last one, but for its end. -/
def writeLeave : Place :=
  .write (Routine.lf "value") :: Routine.write.block "end" [.popFrame]

/-- From the call for the values before on. -/
def writeCall : Place := .call Routine.write.entry :: (writeLeave ++ [.ret])

/-- From where the number of the values before is put on the stack. -/
def writePush : Place := .push (Routine.lf "count") :: .createFrame :: writeCall

/-- From where the number of the values before is found. -/
def writeLower : Place :=
  .binary .sub (Routine.lf "count") (Routine.lf "count") (.int 1) :: writePush

/-- From where the last value is taken. -/
def writeTake : Place := .pop (Routine.lf "value") :: writeLower

/-- From the test for values on. -/
def writeTest : Place :=
  .jumpIfEq (Routine.write.inside "end") (Routine.lf "count") (.int 0) :: writeTake

/-- What holds inside `write`, called at `K` for `n` values, where the given code of it is left. -/
inductive Writing (K : Moment) (n : Nat) (M : Moment) : Place → Prop
  /-- The number of values is still on the stack. -/
  | count {front : Place} (hquiet : ∀ j ∈ front, j.isQuiet = true) (hpushes : M.pushes = K.pushes) :
    Writing K n M (front ++ .pop (Routine.lf "count") :: writeTest)
  /-- The values are still on the stack. -/
  | test (hpushes : M.pushes = K.pushes.drop 1)
    (hcount : M.config.get (Routine.lf "count") = some (some (.int n))) : Writing K n M writeTest
  /-- There is a value to be taken. -/
  | take (hn : n ≠ 0) (hpushes : M.pushes = K.pushes.drop 1)
    (hcount : M.config.get (Routine.lf "count") = some (some (.int n))) : Writing K n M writeTake
  /-- The last value has been taken. -/
  | lower (hn : n ≠ 0) (hpushes : M.pushes = K.pushes.drop 2)
    (hcount : M.config.get (Routine.lf "count") = some (some (.int n))) : Writing K n M writeLower
  /-- The number of the values before it has been found. -/
  | push (hn : n ≠ 0) (hpushes : M.pushes = K.pushes.drop 2)
    (hcount : M.config.get (Routine.lf "count") = some (some (.int (n - 1 : Nat)))) :
    Writing K n M writePush
  /-- That number is on the stack. -/
  | call {front : Place} {A : Moment} (hquiet : ∀ j ∈ front, j.isQuiet = true) (hn : n ≠ 0)
    (hA : A.pushed? = some (.int (n - 1 : Nat))) (hpushes : M.pushes = A :: K.pushes.drop 2) :
    Writing K n M (front ++ writeCall)
  /-- All values have been taken. -/
  | leave {front : Place} (hquiet : ∀ j ∈ front, j.isQuiet = true)
    (hpushes : M.pushes = K.pushes.drop (n + 1)) : Writing K n M (front ++ [.ret])

/-- Where a run of a listing may stand, with what is on the stack there.  This is the invariant of
all runs: each step leads from one of the cases to another. -/
inductive Stands (M : Moment) : Prop
  /-- Before the main body. -/
  | opening {v : Var} {vs : List Var} {code rest : Place} (hblock : Block t limit g code rest)
    (hcode : M.config.code = (v :: vs).map .defVar ++ (code ++ rest)) (hpushes : M.pushes = [])
    (hcalls : M.calls = [])
  /-- In the main body or in a function. -/
  | block {code rest a b : Place} {i : Instr} {own : List Moment} (hblock : Block t limit g code rest)
    (hsplit : code = a ++ i :: b) (hcode : M.config.code = i :: (b ++ rest))
    (hpushes : M.pushes = own ++ floor (arityOf body) M.calls)
    (hown : Marked M.calls own (heldOver (arityOf body) a (i :: (b ++ rest)) []))
  /-- Before a function has taken its parameters. -/
  | entering {K : Moment} {lower : List Moment} {name : String} {params : List Param} {i : Instr}
    {front code rest : Place} (hblock : Block t limit g code rest) (hcalls : M.calls = K :: lower)
    (henters : Enters body K name params)
    (hcode : M.config.code = i :: front ++ (pops params ++ (code ++ rest)))
    (hquiet : ∀ j ∈ i :: front, j.isQuiet = true) (hpushes : M.pushes = K.pushes)
  /-- While a function takes its parameters. -/
  | taking {K : Moment} {lower : List Moment} {name : String} {params taken more : List Param}
    {p : Param} {code rest : Place} (hblock : Block t limit g code rest)
    (hcalls : M.calls = K :: lower) (henters : Enters body K name params)
    (hparams : params.reverse = taken ++ p :: more)
    (hcode : M.config.code = (p :: more).map popOf ++ (code ++ rest))
    (hpushes : M.pushes = K.pushes.drop taken.length) (hbound : Bound M.config K taken)
  /-- In a routine other than `write`. -/
  | routine {K : Moment} {lower : List Moment} {r : Routine} {front behind rest back : Place}
    {i : Instr} (hwrite : r ≠ .write) (herror : r ≠ .typeError) (hr : r ∈ g.finish.routines)
    (hplace : (r.body ++ rest) <:+ g.routineCode) (hcalls : M.calls = K :: lower)
    (hcall : K.config.code = .call r.entry :: back) (hbody : r.body = front ++ i :: behind)
    (hcode : M.config.code = i :: (behind ++ rest)) (hpushes : M.pushes = K.pushes.drop (popsIn front))
  /-- In `write`. -/
  | write {K : Moment} {lower : List Moment} {n : Nat} {code rest : Place}
    (hplace : (Routine.writeBody ++ rest) <:+ g.routineCode) (hcalls : M.calls = K :: lower)
    (hwrites : Writes K n) (hcode : M.config.code = code ++ rest) (hwriting : Writing K n M code)
  /-- At the end of the program. -/
  | failed {a : Operand} {rest : Place} (hcode : M.config.code = .exit a :: rest)

end

variable {t : SymbolTable} {limit : Nat} {body : List Stmt} {g : Generator} {m : Machine}
  {input : List String} {M M' K : Moment} (hg : Generated t limit body g)
  (hlimit : limit < 2 ^ 63) (hM : M.Sound m g.finish.listing.instructions input)
  (hfollows : M.Follows g.finish.listing.instructions M')

/-! ## Blocks -/

/-- The main body with its end. -/
theorem block_main (h : Generated t limit body g) :
    Block t limit g (g.segment.body.toList ++ [.exit (.int 0)]) g.behindMain where
  piece := ⟨none, h.top.piece.append (.plain rfl)⟩
  last := ⟨_, List.getLast?_concat, .inr rfl⟩
  place := by
    rw [instructions_eq]
    exact List.suffix_append ..

/-- The body of a function with its end. -/
theorem block_function {g1 g2 : Generator} (hrun : FunctionRun t limit name params b g1 g2)
    (hhelpers : ∀ r ∈ g2.helpers, r ∈ g.helpers) {rest : Place}
    (hplace : (functionCode name (pops params) g2.segment ++ rest) <:+
      g.finish.listing.instructions) :
    Block t limit g (g2.segment.body.toList ++ [.popFrame, .ret]) rest where
  piece := by
    have hpiece := hrun.step.piece
    rw [hrun.added_eq] at hpiece
    exact ⟨some name, (hpiece.mono hhelpers).append .leave⟩
  last := ⟨.ret, by simp, .inl rfl⟩
  place := by
    refine .trans ?_ hplace
    unfold functionCode
    simp only [List.append_assoc]
    refine .trans ?_ (List.suffix_append _ _)
    refine .trans ?_ (List.suffix_append _ _)
    exact List.suffix_append _ _

theorem Block.stands_start {rest : Place} (h : Block t limit g code rest)
    (hcode : M.config.code = code ++ rest) (hpushes : M.pushes = floor (arityOf body) M.calls) :
    Stands t limit body g M := by
  obtain ⟨i, hlast, _⟩ := h.last
  cases code with
  | nil => cases hlast
  | cons i code =>
    have hown : Marked M.calls [] (heldOver (arityOf body) [] (i :: (code ++ rest)) []) := .nil
    refine .block h ?_ hcode ?_ hown
    · rfl
    · exact hpushes

/-- Behind an instruction that does not end a block its code goes on. -/
theorem Block.stands {rest b : Place} (h : Block t limit g code rest)
    (hsplit : code = a ++ i :: b) (hret : i ≠ .ret) (hexit : ∀ x, i ≠ .exit x)
    (hcode : M.config.code = b ++ rest) (hpushes : M.pushes = own ++ floor (arityOf body) M.calls)
    (hown : Marked M.calls own (heldOver (arityOf body) (a ++ [i]) (b ++ rest) [])) :
    Stands t limit body g M := by
  obtain ⟨j, hlast, hj⟩ := h.last
  have hne : i ≠ j := by
    rcases hj with rfl | rfl
    · exact hret
    · exact hexit _
  rw [hsplit] at hlast
  obtain ⟨z, b', rfl⟩ := exists_cons_of_getLast? hlast hne
  exact .block h (by rw [hsplit, List.append_assoc]; rfl) hcode hpushes hown

/-! ## Calls -/

include hM in
/-- The call at a moment takes as many values as the code around it says, and `write` knows how many
these are. -/
theorem taken_eq {places below : List Place} {rest calls : List Moment}
    (hcode : M.config.code = .call l :: back) (hsite : CallSite l back places)
    (htaken : taken (arityOf body) l (places ++ below) = places.length)
    (hpushes : M.pushes = own ++ rest) (hown : Marked calls own (places ++ below)) :
    M.taken (arityOf body) = places.length ∧ (l = Routine.write.entry → ∃ n, Writes M n) := by
  by_cases hl : l = Routine.write.entry
  · cases hsite with
    | convert hr => exact absurd hl (Routine.entry_ne_write hr)
    | @call name args start _ places h =>
      obtain rfl := entry_eq_write.mp hl
      have hlength : places.reverse.length = args.length := by
        rw [List.length_reverse, h.length_eq]
      rw [countPlace, if_pos rfl, List.singleton_append] at hown htaken ⊢
      obtain ⟨A, own', ⟨hA, _⟩, _, rfl⟩ := List.forall₂_cons_right_iff.mp hown
      -- the number of arguments is on top of the stack
      obtain ⟨x, stack, hstack, hx⟩ := hM.top hpushes
      have hvalue : A.pushed? = some (.int (Int64.ofNat args.length).toInt) := by
        unfold Moment.pushed?
        rw [hA]
        rfl
      cases hx.symm.trans hvalue
      have hnat : (Int64.ofNat args.length).toInt.toNat + 1 = args.length + 1 := by
        rw [List.length_cons, hlength] at htaken
        rw [← htaken]
        exact (taken_write _ _ _).symm
      have hcount : (Int64.ofNat args.length).toInt = args.length := by
        by_cases hzero : args.length = 0
        · rw [hzero]
          rfl
        · omega
      have hsmall := Int64.toInt_lt (Int64.ofNat args.length)
      rw [hcount] at hstack hsmall
      refine ⟨?_, fun _ => ⟨args.length, ⟨back, hcode⟩, ⟨stack, hstack⟩, by omega⟩⟩
      unfold Moment.taken
      rw [hcode, hstack, List.length_cons, hlength]
      rfl
  · refine ⟨?_, fun heq => absurd heq hl⟩
    rw [taken_of_ne hl] at htaken
    unfold Moment.taken
    rw [hcode]
    exact (if_neg hl).trans htaken

theorem Writes.taken (h : Writes K n) (arity : Label → Nat) : K.taken arity = n + 1 := by
  obtain ⟨_, hcode⟩ := h.call
  obtain ⟨_, hstack⟩ := h.stack
  unfold Moment.taken
  rw [hcode, hstack]
  rfl

/-- At a function that takes its parameters, with those it has taken. -/
theorem Enters.stands {taken : List Param} {rest : Place} (h : Enters body K name params)
    (hblock : Block t limit g code rest) (hcalls : M.calls = K :: lower)
    (hparams : params.reverse = taken ++ more)
    (hcode : M.config.code = more.map popOf ++ (code ++ rest))
    (hpushes : M.pushes = K.pushes.drop taken.length) (hbound : Bound M.config K taken) :
    Stands t limit body g M := by
  cases more with
  | cons p more => exact .taking hblock hcalls h hparams hcode hpushes hbound
  | nil =>
    have hlength : taken.length = params.length := by
      rw [← params.length_reverse, hparams, List.append_nil]
    refine hblock.stands_start hcode ?_
    rw [hpushes, hcalls, floor, h.taken, hlength]

/-- The code of a function behind its label. -/
theorem functionCode_append (name : String) (params : List Param) (segment : Segment) (rest : Place) :
    functionCode name (pops params) segment ++ rest = .label (.entry name) ::
      (.pushFrame :: ([.defVar Var.result, .move Var.result .nil] ++ segment.declarations) ++
        (pops params ++ (segment.body.toList ++ [.popFrame, .ret] ++ rest))) := by
  unfold functionCode
  simp only [List.append_assoc, List.cons_append, List.nil_append]

include hg

/-- A label of the listing leads to the code behind it. -/
theorem eq_of_target? {rest : Place}
    (htarget : target? g.finish.listing.instructions l.text = some code)
    (hplace : (.label l :: rest) <:+ g.finish.listing.instructions) : code = rest := by
  have hdistinct : Distinct g.finish.listing.instructions := hg.distinct_labels
  exact Option.some.inj (htarget.symm.trans (hdistinct.target? hplace))

/-- A call of a function takes its parameters. -/
theorem taken_function (hmem : Stmt.function name params declared b ∈ body)
    (hcode : K.config.code = .call (.entry name) :: back) :
    K.taken (arityOf body) = params.length := by
  have hne : Label.entry name ≠ Routine.write.entry := by
    intro heq
    refine hg.routine_fresh .write (List.mem_filterMap.mpr ⟨_, hmem, ?_⟩)
    exact congrArg some (entry_eq_write.mp heq)
  unfold Moment.taken
  rw [hcode]
  exact (if_neg hne).trans (hg.arityOf_function hmem)

include hfollows in
/-- A call of a function of the program. -/
theorem stands_function (hmem : Stmt.function name params declared b ∈ body)
    (hcode : M.config.code = .call (.entry name) :: back) : Stands t limit body g M' := by
  obtain ⟨htarget, hpushes, hcalls⟩ := hfollows.effect hcode
  obtain ⟨g1, g2, hrun, hhelpers, hfunction⟩ := hg.function_code hmem
  obtain ⟨rest, hplace⟩ := function_place hfunction
  have hblock := block_function hrun hhelpers hplace
  have henters : Enters body M name params :=
    ⟨⟨declared, b, hmem⟩, ⟨back, hcode⟩, taken_function hg hmem hcode, hg.params_nodup hmem⟩
  rw [functionCode_append] at hplace
  refine .entering hblock hcalls henters (eq_of_target? hg htarget hplace) ?_ hpushes
  intro j hj
  simp only [List.mem_cons, List.mem_append, List.not_mem_nil, or_false, Segment.declarations,
    List.mem_map] at hj
  rcases hj with rfl | (rfl | rfl) | ⟨_, _, rfl⟩ <;> rfl

omit hg

/-- At the start of `write`. -/
theorem Writes.stands {rest : Place} (h : Writes K n)
    (hplace : (Routine.writeBody ++ rest) <:+ g.routineCode) (hcalls : M.calls = K :: lower)
    (hcode : M.config.code = (Routine.writeBody ++ rest).tail) (hpushes : M.pushes = K.pushes) :
    Stands t limit body g M := by
  have hwriting : Writing K n M (writeEnter ++ .pop (Routine.lf "count") :: writeTest) :=
    .count (by decide) hpushes
  exact .write hplace hcalls h hcode hwriting

theorem eq_nil_of_quiet {rest : Place} (hquiet : ∀ j ∈ front, j.isQuiet = true)
    (h : front ++ code = i :: rest) (hi : i.isQuiet = false) : front = [] := by
  cases front with
  | nil => rfl
  | cons j front =>
    obtain ⟨rfl, _⟩ := List.cons.inj h
    rw [hquiet _ List.mem_cons_self] at hi
    cases hi

/-- At its end `write` has taken all values. -/
theorem Writing.of_ret {rest : Place} (h : Writing K n M code) (hret : code ++ rest = .ret :: back) :
    M.pushes = K.pushes.drop (n + 1) := by
  cases h with
  | leave _ hpushes => exact hpushes
  | test | take | lower | push => cases (List.cons.inj hret).1
  | count hquiet =>
    rw [List.append_assoc] at hret
    obtain rfl := eq_nil_of_quiet hquiet hret rfl
    cases (List.cons.inj hret).1
  | call hquiet =>
    rw [List.append_assoc] at hret
    obtain rfl := eq_nil_of_quiet hquiet hret rfl
    cases (List.cons.inj hret).1

/-- `write` calls itself with the number of the values before the last one. -/
theorem Writing.of_call {rest : Place} (h : Writing K n M code)
    (hcall : code ++ rest = .call l :: back) :
    l = Routine.write.entry ∧ back = writeLeave ++ [.ret] ++ rest ∧ n ≠ 0 ∧
      ∃ A : Moment, A.pushed? = some (.int (n - 1 : Nat)) ∧ M.pushes = A :: K.pushes.drop 2 := by
  cases h with
  | test | take | lower | push => cases (List.cons.inj hcall).1
  | count hquiet =>
    rw [List.append_assoc] at hcall
    obtain rfl := eq_nil_of_quiet hquiet hcall rfl
    cases (List.cons.inj hcall).1
  | leave hquiet =>
    rw [List.append_assoc] at hcall
    obtain rfl := eq_nil_of_quiet hquiet hcall rfl
    cases (List.cons.inj hcall).1
  | call hquiet hn hA hpushes =>
    rw [List.append_assoc] at hcall
    obtain rfl := eq_nil_of_quiet hquiet hcall rfl
    obtain ⟨hl, rfl⟩ := List.cons.inj hcall
    exact ⟨(Instr.call.inj hl).symm, rfl, hn, _, hA, hpushes⟩

include hg hfollows

/-- A call of a routine. -/
theorem stands_routine (hr : r ∈ g.finish.routines) (herror : r ≠ .typeError)
    (hcode : M.config.code = .call r.entry :: back) (hwrites : r = .write → ∃ n, Writes M n) :
    Stands t limit body g M' := by
  obtain ⟨htarget, hpushes, hcalls⟩ := hfollows.effect hcode
  obtain ⟨rest, hplace⟩ := routine_place hr
  obtain ⟨behind, hbody⟩ := r.body_eq_cons herror
  have hlabel : (.label r.entry :: (.pushFrame :: behind ++ rest)) <:+ g.finish.listing.instructions := by
    rw [hbody] at hplace
    exact hplace.trans g.routineCode_suffix
  have hplace' := eq_of_target? hg htarget hlabel
  by_cases hwrite : r = .write
  · obtain ⟨n, hn⟩ := hwrites hwrite
    subst hwrite
    have hbehind : .pushFrame :: behind ++ rest = (Routine.write.body ++ rest).tail := by
      rw [hbody]
      rfl
    exact hn.stands hplace hcalls (hplace'.trans hbehind) hpushes
  · have hfront : r.body = [.label r.entry] ++ .pushFrame :: behind := hbody
    exact .routine hwrite herror hr hplace hcalls hcode hfront hplace' hpushes

/-- A call leads to the start of a function or of a routine. -/
theorem stands_called {scope : Option String} (hcode : M.config.code = .call l :: back)
    (hl : Callee (names t limit scope) g.helpers l)
    (hwrites : l = Routine.write.entry → ∃ n, Writes M n) : Stands t limit body g M' := by
  rcases hg.of_callee (fun _ hr => hr) hl with
    ⟨name, params, declared, b, rfl, hmem⟩ | ⟨r, hr, rfl, herror⟩
  · exact stands_function hg hfollows hmem hcode
  · exact stands_routine hg hfollows hr herror hcode fun h => hwrites (congrArg Routine.entry h)

/-! ## Returns -/

omit hfollows

include hlimit

/-- Whatever the run returns from, it has taken its arguments and nothing else. -/
theorem Stands.floor_of_ret (h : Stands t limit body g M) {rest : Place}
    (hret : M.config.code = .ret :: rest) : M.pushes = floor (arityOf body) M.calls := by
  cases h with
  | opening _ hcode => cases hcode.symm.trans hret
  | failed hcode => cases hcode.symm.trans hret
  | taking _ _ _ _ hcode => cases hcode.symm.trans hret
  | entering _ _ _ hcode hquiet =>
    obtain ⟨rfl, _⟩ := List.cons.inj (hcode.symm.trans hret)
    cases hquiet _ (.head _)
  | @block code rest' a b i own hblock hsplit hcode hpushes hown =>
    obtain ⟨rfl, _⟩ := List.cons.inj (hcode.symm.trans hret)
    obtain ⟨scope, hpiece⟩ := hblock.piece
    have hspot := hpiece.spot (hg.fits hlimit scope) rest' [] a .ret b hsplit
    cases hspot with
    | plain hi => cases hi
    | jump hi => cases hi
    | ret hheld =>
      rw [hheld.2] at hown
      cases hown
      exact hpushes
  | @routine K lower r front behind rest' back i hwrite herror hr hplace hcalls hcall hbody hcode
      hpushes =>
    obtain ⟨rfl, _⟩ := List.cons.inj (hcode.symm.trans hret)
    have hkeeps := Routine.keeps_of_body hwrite herror hbody
    cases hkeeps with
    | quiet hi => cases hi
    | jump hi => cases hi
    | fail hi => cases hi
    | ret hpops =>
      have hne : r.entry ≠ Routine.write.entry := by
        revert hwrite
        cases r <;> decide
      rw [hpushes, hpops, hcalls, floor, ← arityOf_routine (hg.routine_fresh r)]
      unfold Moment.taken
      rw [hcall]
      exact congrArg (fun n => K.pushes.drop n) (if_neg hne).symm
  | write hplace hcalls hwrites hcode hwriting =>
    rw [hcalls, floor, hwrites.taken]
    exact hwriting.of_ret (hcode.symm.trans hret)

/-- A call of a block is behind the places where its arguments were pushed. -/
theorem spot_call {rest b : Place} (hblock : Block t limit g code rest)
    (hsplit : code = a ++ .call l :: b) :
    ∃ scope places below, Callee (names t limit scope) g.helpers l ∧
      CallSite l (b ++ rest) places ∧
      heldOver (arityOf body) a (.call l :: (b ++ rest)) [] = places ++ below ∧
      taken (arityOf body) l (places ++ below) = places.length := by
  obtain ⟨scope, hpiece⟩ := hblock.piece
  have hspot := hpiece.spot (hg.fits hlimit scope) rest [] a (.call l) b hsplit
  cases hspot with
  | plain hi => cases hi
  | jump hi => cases hi
  | @call _ _ places below hc hsite hheld htaken =>
    exact ⟨scope, places, below, hc, hsite, hheld, hheld ▸ htaken⟩

omit hg hlimit in
include hM in
/-- Inside `write` the call of itself is for one value less. -/
theorem writes_pred {A : Moment} {pushes : List Moment}
    (hcall : M.config.code = .call Routine.write.entry :: back) (hwrites : Writes K n)
    (hA : A.pushed? = some (.int (n - 1 : Nat))) (hpushes : M.pushes = A :: pushes) :
    Writes M (n - 1) := by
  obtain ⟨x, stack, hstack, hx⟩ := hM.top hpushes
  cases hx.symm.trans hA
  exact ⟨⟨back, hcall⟩, ⟨stack, hstack⟩, by have := hwrites.small; omega⟩

include hM hfollows in
/-- A run goes on behind the call that it returns from. -/
theorem stands_back {rest : Place} (hret : M.config.code = .ret :: rest)
    (hpushes : M.pushes = floor (arityOf body) M.calls)
    (hcalls : ∀ K ∈ M.calls, Stands t limit body g K) : Stands t limit body g M' := by
  obtain ⟨back, calls, hback, hcode', hpushes', hcalls'⟩ := hfollows.effect hret
  cases hK : M.calls with
  | nil =>
    rw [hM.calls, hK] at hback
    cases hback
  | cons K lower =>
    obtain ⟨hreaches, hlower, l, hcall⟩ := hM.around [] K lower hK
    have hplace : M'.config.code = K.config.code.tail := by
      rw [hM.calls, hK] at hback
      rw [hcode']
      exact (List.cons.inj hback).1.symm
    rw [hK, floor] at hpushes
    rw [hK, List.tail_cons] at hcalls'
    have hstands := hcalls K (hK ▸ (.head _))
    cases hstands with
    | opening _ hcode => cases hcode.symm.trans hcall
    | failed hcode => cases hcode.symm.trans hcall
    | taking _ _ _ _ hcode => cases hcode.symm.trans hcall
    | entering _ _ _ hcode hquiet =>
      obtain ⟨rfl, _⟩ := List.cons.inj (hcode.symm.trans hcall)
      cases hquiet _ (.head _)
    | routine hwrite herror _ _ _ _ hbody hcode =>
      obtain ⟨rfl, _⟩ := List.cons.inj (hcode.symm.trans hcall)
      cases Routine.keeps_of_body hwrite herror hbody with
      | quiet hi => cases hi
      | jump hi => cases hi
      | fail hi => cases hi
    | @block code rest' a b i own hblock hsplit hcode hown_pushes hown =>
      obtain ⟨rfl, hrest⟩ := List.cons.inj (hcode.symm.trans hcall)
      obtain ⟨_, places, below, _, hsite, hheld, htaken⟩ := spot_call hg hlimit hblock hsplit
      rw [hheld] at hown
      obtain ⟨hcount, _⟩ := taken_eq hreaches.sound hcode hsite htaken hown_pushes hown
      rw [← hrest] at hplace
      -- the arguments of the call are gone
      have hlength : own.length = places.length + below.length := by
        rw [hown.length_eq, List.length_append]
      have hkept : Marked M'.calls (own.drop places.length)
          (heldOver (arityOf body) (a ++ [.call l]) (b ++ rest') []) := by
        have hbelow : heldOver (arityOf body) (a ++ [.call l]) (b ++ rest') [] = below := by
          rw [heldOver_append, List.singleton_append, hheld]
          show (places ++ below).drop (taken (arityOf body) l (places ++ below)) = below
          rw [htaken, List.drop_left]
        have hdrop := List.forall₂_drop places.length hown
        rw [hbelow, hcalls', ← hlower]
        rwa [List.drop_left] at hdrop
      refine hblock.stands hsplit (by rintro ⟨⟩) (by rintro _ ⟨⟩) hplace ?_ hkept
      rw [hpushes', hpushes, hcount, hown_pushes, hlower, hcalls',
        List.drop_append_of_le_length (by omega)]
    | @write K₂ lower2 n _ rest' hplace2 hcalls2 hwrites hcode hwriting =>
      obtain ⟨rfl, hrest, hn, A, hA, hown⟩ := hwriting.of_call (hcode.symm.trans hcall)
      have hinner := writes_pred hreaches.sound hcall hwrites hA hown
      rw [hrest] at hplace
      refine .write hplace2 (hcalls'.trans (hlower.symm.trans hcalls2)) hwrites hplace
        (.leave (by decide) ?_)
      rw [hpushes', hpushes, hinner.taken, hown, List.drop_succ_cons, List.drop_drop]
      exact congrArg (fun n => K₂.pushes.drop n) (by omega)

/-! ## Steps -/

omit hg hlimit

include hfollows

/-- A step from before the main body. -/
theorem stands_of_opening {v : Var} {vs : List Var} {rest : Place}
    (hblock : Block t limit g code rest)
    (hcode : M.config.code = (v :: vs).map .defVar ++ (code ++ rest)) (hpushes : M.pushes = [])
    (hcalls : M.calls = []) : Stands t limit body g M' := by
  obtain ⟨hcode', hpushes', hcalls'⟩ := hfollows.of_quiet hcode rfl
  cases vs with
  | nil =>
    refine hblock.stands_start hcode' ?_
    rw [hpushes', hcalls', hpushes, hcalls]
    rfl
  | cons w vs => exact .opening hblock hcode' (hpushes'.trans hpushes) (hcalls'.trans hcalls)

include hg hlimit hM in
/-- A step in a block. -/
theorem stands_of_block (hcalls : ∀ K ∈ M.calls, Stands t limit body g K) {rest b : Place}
    (hblock : Block t limit g code rest) (hsplit : code = a ++ i :: b)
    (hcode : M.config.code = i :: (b ++ rest))
    (hpushes : M.pushes = own ++ floor (arityOf body) M.calls)
    (hown : Marked M.calls own (heldOver (arityOf body) a (i :: (b ++ rest)) [])) :
    Stands t limit body g M' := by
  -- behind an instruction that leaves the stacks alone
  have hsame : i.isQuiet = true ∨ i.jump?.isSome = true → M'.config.code = b ++ rest →
      M'.pushes = M.pushes → M'.calls = M.calls → Stands t limit body g M' := by
    intro hi hcode' hpushes' hcalls'
    have hpush : ∀ x, i ≠ .push x := by rintro x rfl; rcases hi with hi | hi <;> cases hi
    have hcall : ∀ l, i ≠ .call l := by rintro l rfl; rcases hi with hi | hi <;> cases hi
    have hret : i ≠ .ret := by rintro rfl; rcases hi with hi | hi <;> cases hi
    have hexit : ∀ x, i ≠ .exit x := by rintro x rfl; rcases hi with hi | hi <;> cases hi
    have hkept : Marked M'.calls own (heldOver (arityOf body) (a ++ [i]) (b ++ rest) []) := by
      rw [heldOver_concat, heldBehind_eq hpush hcall, hcalls']
      exact hown
    exact hblock.stands hsplit hret hexit hcode' (by rw [hpushes', hcalls', hpushes]) hkept
  have hquiet : i.isQuiet = true → Stands t limit body g M' := by
    intro hi
    obtain ⟨hcode', hpushes', hcalls'⟩ := hfollows.of_quiet hcode hi
    exact hsame (.inl hi) hcode' hpushes' hcalls'
  obtain ⟨scope, hpiece⟩ := hblock.piece
  have hspot := hpiece.spot (hg.fits hlimit scope) rest [] a i b hsplit
  cases hspot with
  | plain hi =>
    exact hquiet (Instr.isQuiet_of_isPlain hi (by rintro x rfl; exact hfollows.effect hcode))
  | label | createFrame | popFrame => exact hquiet rfl
  | @jump _ _ l hi hl =>
    obtain ⟨hplace, hpushes', hcalls'⟩ := hfollows.of_jump hcode hi
    rcases hplace with hcode' | htarget
    · exact hsame (.inr (by rw [hi]; rfl)) hcode' hpushes' hcalls'
    · rcases hl with ⟨hl, _⟩ | ⟨a', b', hsplit', hheld⟩
      · cases hl
      have hlabel : (.label l :: (b' ++ rest)) <:+ g.finish.listing.instructions := by
        refine .trans ⟨a', ?_⟩ hblock.place
        rw [hsplit', List.append_assoc, List.cons_append]
      have hcode' := eq_of_target? hg htarget hlabel
      have hkept : Marked M'.calls own
          (heldOver (arityOf body) (a' ++ [.label l]) (b' ++ rest) []) := by
        rw [heldOver_concat, hheld, hcalls']
        exact hown
      exact hblock.stands hsplit' (by rintro ⟨⟩) (by rintro _ ⟨⟩) hcode'
        (by rw [hpushes', hcalls', hpushes]) hkept
  | @push x =>
    obtain ⟨hcode', hpushes', hcalls'⟩ := hfollows.effect hcode
    have hmore : Marked M'.calls (M :: own)
        (heldOver (arityOf body) (a ++ [.push x]) (b ++ rest) []) := by
      rw [heldOver_concat, hcalls']
      exact .cons ⟨hcode, rfl⟩ hown
    refine hblock.stands hsplit (by rintro ⟨⟩) (by rintro _ ⟨⟩) hcode' ?_ hmore
    rw [hpushes', hpushes, hcalls', List.cons_append]
  | @call l _ places below hc hsite hheld htaken =>
    rw [hheld] at hown htaken
    obtain ⟨_, hwrites⟩ := taken_eq hM hcode hsite htaken hpushes hown
    exact stands_called hg hfollows hcode hc hwrites
  | ret hheld =>
    rw [hheld.2] at hown
    cases hown
    exact stands_back hg hlimit hM hfollows hcode hpushes hcalls

/-- A step before a function has taken its parameters. -/
theorem stands_of_entering {rest : Place} (hblock : Block t limit g code rest)
    (hcalls : M.calls = K :: lower) (henters : Enters body K name params)
    (hcode : M.config.code = i :: front ++ (pops params ++ (code ++ rest)))
    (hquiet : ∀ j ∈ i :: front, j.isQuiet = true) (hpushes : M.pushes = K.pushes) :
    Stands t limit body g M' := by
  obtain ⟨hcode', hpushes', hcalls'⟩ := hfollows.of_quiet hcode (hquiet i (.head _))
  cases front with
  | cons j front =>
    exact .entering hblock (hcalls'.trans hcalls) henters hcode'
      (fun k hk => hquiet k (.tail i hk)) (hpushes'.trans hpushes)
  | nil =>
    exact henters.stands hblock (hcalls'.trans hcalls) (List.nil_append _).symm hcode'
      (hpushes'.trans hpushes) (by rintro _ _ _ ⟨⟩)

include hM in
/-- A parameter is taken from the stack. -/
theorem bound_concat {taken : List Param} {rest : Place} (henters : Enters body K name params)
    (hparams : params.reverse = taken ++ p :: more) (hcode : M.config.code = popOf p :: rest)
    (hpushes : M.pushes = K.pushes.drop taken.length) (hbound : Bound M.config K taken) :
    Bound M'.config K (taken ++ [p]) := by
  obtain ⟨_, _, _, x, stack, hstack, hget⟩ := hfollows.effect hcode
  intro j q A hq hA
  rw [hget]
  rcases Nat.lt_or_ge j taken.length with hj | hj
  · -- the other parameters have other names
    rw [List.getElem?_append_left hj] at hq
    have hne : bareName q.name ≠ bareName p.name := by
      have hdistinct := List.nodup_reverse.mpr henters.distinct
      rw [← List.map_reverse, hparams, List.map_append, List.map_cons] at hdistinct
      refine (List.nodup_append.mp hdistinct).2.2 _ ?_ _ (.head _)
      exact List.mem_map.mpr ⟨q, List.mem_of_getElem? hq, rfl⟩
    rw [if_neg fun h => hne (Var.mk.inj h).2]
    exact hbound j q A hq hA
  · have hlast : j = taken.length := by
      have hlt := (List.getElem?_eq_some_iff.mp hq).1
      rw [List.length_append, List.length_singleton] at hlt
      omega
    subst hlast
    rw [List.getElem?_append_right hj, Nat.sub_self] at hq
    cases hq
    rw [if_pos rfl]
    have htop : M.pushes = A :: K.pushes.drop (taken.length + 1) := by
      obtain ⟨hlt, rfl⟩ := List.getElem?_eq_some_iff.mp hA
      rw [hpushes, List.drop_eq_getElem_cons hlt]
    obtain ⟨y, _, hstack', hy⟩ := hM.top htop
    rw [hy, (List.cons.inj (hstack.symm.trans hstack')).1]

include hM in
/-- A step while a function takes its parameters. -/
theorem stands_of_taking {taken : List Param} {rest : Place} (hblock : Block t limit g code rest)
    (hcalls : M.calls = K :: lower) (henters : Enters body K name params)
    (hparams : params.reverse = taken ++ p :: more)
    (hcode : M.config.code = (p :: more).map popOf ++ (code ++ rest))
    (hpushes : M.pushes = K.pushes.drop taken.length) (hbound : Bound M.config K taken) :
    Stands t limit body g M' := by
  obtain ⟨hcode', hpushes', hcalls', _⟩ := hfollows.effect hcode
  have htail : M'.pushes = K.pushes.drop (taken ++ [p]).length := by
    rw [hpushes', hpushes, List.tail_drop, List.length_append, List.length_singleton]
  refine henters.stands hblock (hcalls'.trans hcalls) ?_ hcode' htail
    (bound_concat hM hfollows henters hparams hcode hpushes hbound)
  rw [hparams, List.append_assoc, List.singleton_append]

include hg hlimit

include hM in
/-- A step in a routine other than `write`. -/
theorem stands_of_routine (hstands : ∀ K ∈ M.calls, Stands t limit body g K) {behind rest : Place}
    (hwrite : r ≠ .write) (herror : r ≠ .typeError) (hr : r ∈ g.finish.routines)
    (hplace : (r.body ++ rest) <:+ g.routineCode) (hcalls : M.calls = K :: lower)
    (hcall : K.config.code = .call r.entry :: back) (hbody : r.body = front ++ i :: behind)
    (hcode : M.config.code = i :: (behind ++ rest))
    (hpushes : M.pushes = K.pushes.drop (popsIn front)) : Stands t limit body g M' := by
  -- behind an instruction of the routine that is not its last one
  have hnext : ∀ {j : Instr} {front behind : Place}, r.body = front ++ j :: behind → j ≠ .ret →
      M'.config.code = behind ++ rest → M'.pushes = K.pushes.drop (popsIn (front ++ [j])) →
      M'.calls = M.calls → Stands t limit body g M' := by
    intro j front behind hbody hj hcode' hpushes' hcalls'
    have hlast := r.disciplined.body_getLast? herror
    rw [hbody] at hlast
    obtain ⟨z, behind, rfl⟩ := exists_cons_of_getLast? hlast hj
    refine .routine hwrite herror hr hplace (hcalls'.trans hcalls) hcall ?_ hcode' hpushes'
    rw [hbody, List.append_assoc, List.singleton_append]
  have hsame : ∀ {j : Instr}, j.isPop = false → ∀ front : Place,
      popsIn (front ++ [j]) = popsIn front := by
    intro j hj front
    rw [popsIn_append]
    simp [popsIn, hj]
  cases Routine.keeps_of_body hwrite herror hbody with
  | quiet hi =>
    obtain ⟨hcode', hpushes', hcalls'⟩ := hfollows.of_quiet hcode hi
    refine hnext hbody (by rintro rfl; cases hi) hcode' ?_ hcalls'
    rw [hsame (by cases i <;> first | rfl | cases hi), hpushes', hpushes]
  | pop =>
    obtain ⟨hcode', hpushes', hcalls', _⟩ := hfollows.effect hcode
    refine hnext hbody (by rintro ⟨⟩) hcode' ?_ hcalls'
    rw [hpushes', hpushes, List.tail_drop, popsIn_append]
    rfl
  | @jump _ l hi front' behind' hbody' hpops =>
    obtain ⟨hto, hpushes', hcalls'⟩ := hfollows.of_jump hcode hi
    rcases hto with hcode' | htarget
    · refine hnext hbody (by rintro rfl; cases hi) hcode' ?_ hcalls'
      rw [hsame (by cases i <;> first | rfl | cases hi), hpushes', hpushes]
    · have hlabel : (.label l :: (behind' ++ rest)) <:+ g.finish.listing.instructions := by
        refine .trans ⟨front', ?_⟩ (hplace.trans g.routineCode_suffix)
        rw [hbody', List.append_assoc, List.cons_append]
      refine hnext hbody' (by rintro ⟨⟩) (eq_of_target? hg htarget hlabel) ?_ hcalls'
      rw [hsame rfl, hpops, hpushes', hpushes]
  | fail hi =>
    obtain ⟨hto, hpushes', hcalls'⟩ := hfollows.of_jump hcode hi
    rcases hto with hcode' | htarget
    · refine hnext hbody (by rintro rfl; cases hi) hcode' ?_ hcalls'
      rw [hsame (by cases i <;> first | rfl | cases hi), hpushes', hpushes]
    · have hdep := r.disciplined.error_dependency i (hbody ▸ List.mem_append_right _ (.head _)) hi
      obtain ⟨rest', hplace'⟩ := routine_place (Generated.dependency_mem hr hdep)
      exact .failed (eq_of_target? hg htarget (hplace'.trans g.routineCode_suffix))
  | ret hpops =>
    have hstands' : Stands t limit body g M :=
      .routine hwrite herror hr hplace hcalls hcall hbody hcode hpushes
    exact stands_back hg hlimit hM hfollows hcode (hstands'.floor_of_ret hg hlimit hcode) hstands

omit hg hlimit hfollows in
/-- The variable of `write` for the number of values. -/
theorem value?_count {c : Config} (h : c.get (Routine.lf "count") = some (some (.int n))) :
    c.value? (.var (Routine.lf "count")) = some (.int n) := by
  show (c.get _).join = _
  rw [h]
  rfl

section

variable {rest : Place} (hplace : (Routine.writeBody ++ rest) <:+ g.routineCode)
  (hcalls : M.calls = K :: lower) (hwrites : Writes K n)

omit hg hlimit

include hplace hcalls hwrites

/-- A step in `write` over an instruction that leaves the stacks alone. -/
theorem stands_write_quiet (hcode : M.config.code = i :: (code ++ rest)) (hi : i.isQuiet = true)
    (hwriting : M'.pushes = M.pushes → Writing K n M' code) : Stands t limit body g M' := by
  obtain ⟨hcode', hpushes', hcalls'⟩ := hfollows.of_quiet hcode hi
  exact .write hplace (hcalls'.trans hcalls) hwrites hcode' (hwriting hpushes')

/-- The number of values is taken from the stack. -/
theorem stands_write_count (hM : m.Reaches g.finish.listing.instructions input M)
    (hcode : M.config.code = .pop (Routine.lf "count") :: (writeTest ++ rest))
    (hpushes : M.pushes = K.pushes) : Stands t limit body g M' := by
  obtain ⟨hcode', hpushes', hcalls', x, stack, hstack, hget⟩ := hfollows.effect hcode
  -- the stack is the one at the call
  obtain ⟨hK, _⟩ := hM.sound.around [] K lower hcalls
  obtain ⟨_, htop⟩ := hwrites.stack
  rw [hM.stack_eq hK hpushes, htop] at hstack
  obtain ⟨rfl, _⟩ := List.cons.inj hstack
  refine .write hplace (hcalls'.trans hcalls) hwrites hcode' (.test ?_ ?_)
  · rw [hpushes', hpushes, List.drop_one]
  · rw [hget, if_pos rfl]

include hg in
/-- Without a value, `write` leaves; else it goes on. -/
theorem stands_write_test (hcode : M.config.code = writeTest ++ rest)
    (hpushes : M.pushes = K.pushes.drop 1)
    (hcount : M.config.get (Routine.lf "count") = some (some (.int n)))
    (hrun : m.step g.finish.listing.instructions M.config = some M'.config) :
    Stands t limit body g M' := by
  obtain ⟨x, y, equal, hx, hy, hequal, hto⟩ := (step_jumpIfEq hcode).mp hrun
  obtain ⟨_, hpushes', hcalls'⟩ := hfollows.of_jump hcode rfl
  cases (value?_count hcount).symm.trans hx
  cases hy
  cases hequal
  by_cases hn : n = 0
  · subst hn
    obtain ⟨code, htarget, hconfig⟩ := hto
    have hlabel : (.label (Routine.write.inside "end") :: ([.popFrame] ++ [.ret] ++ rest)) <:+
        g.finish.listing.instructions :=
      .trans ⟨.label Routine.write.entry :: (writeEnter ++ Routine.writeLast), rfl⟩
        (hplace.trans g.routineCode_suffix)
    have hcode' : M'.config.code = [.popFrame] ++ [.ret] ++ rest := by
      rw [hconfig]
      exact eq_of_target? hg htarget hlabel
    exact .write hplace (hcalls'.trans hcalls) hwrites hcode'
      (.leave (by decide) (hpushes'.trans hpushes))
  · have hne : ((n : Int) == (0 : Int64).toInt) = false := by
      rw [beq_eq_false_iff_ne]
      exact fun h => hn (Int.natCast_eq_zero.mp h)
    rw [hne, if_neg Bool.false_ne_true] at hto
    have hcode' : M'.config.code = writeTake ++ rest := by
      rw [hto]
      rfl
    refine .write hplace (hcalls'.trans hcalls) hwrites hcode' (.take hn (hpushes'.trans hpushes) ?_)
    rw [hto]
    exact hcount

/-- The last value is taken from the stack. -/
theorem stands_write_take (hcode : M.config.code = writeTake ++ rest) (hn : n ≠ 0)
    (hpushes : M.pushes = K.pushes.drop 1)
    (hcount : M.config.get (Routine.lf "count") = some (some (.int n))) : Stands t limit body g M' := by
  obtain ⟨hcode', hpushes', hcalls', x, stack, hstack, hget⟩ := hfollows.effect hcode
  refine .write hplace (hcalls'.trans hcalls) hwrites hcode' (.lower hn ?_ ?_)
  · rw [hpushes', hpushes, List.tail_drop]
  · rw [hget, if_neg (by decide), hcount]

/-- There is one value less to be written; the number of values is small, so that the machine finds
it exactly. -/
theorem stands_write_lower (hcode : M.config.code = writeLower ++ rest) (hn : n ≠ 0)
    (hpushes : M.pushes = K.pushes.drop 2)
    (hcount : M.config.get (Routine.lf "count") = some (some (.int n)))
    (hrun : m.step g.finish.listing.instructions M.config = some M'.config) :
    Stands t limit body g M' := by
  obtain ⟨x, y, z, hx, hy, hz, hdest, hconfig⟩ := (step_binary hcode).mp hrun
  cases (value?_count hcount).symm.trans hx
  cases hy
  have hpred : (n : Int) - (1 : Int64).toInt = (n - 1 : Nat) := by
    have hone : (1 : Int64).toInt = 1 := by decide
    omega
  have hsmall := hwrites.small
  have hz' : m.binaryOp .sub (.int n) (.int (1 : Int64).toInt) = some (.int (n - 1 : Nat)) := by
    show (m.round _).map _ = _
    rw [hpred, m.round_exact _ (by omega) (by omega)]
    rfl
  cases hz.symm.trans hz'
  refine stands_write_quiet hfollows hplace hcalls hwrites hcode rfl fun hpushes' => ?_
  refine .push hn (hpushes'.trans hpushes) ?_
  rw [hconfig]
  refine (Config.get_update ?_ _ _).trans (if_pos rfl)
  exact Config.isSome_frame? hdest

/-- The number of the values before the last one is put on the stack. -/
theorem stands_write_push (hcode : M.config.code = writePush ++ rest) (hn : n ≠ 0)
    (hpushes : M.pushes = K.pushes.drop 2)
    (hcount : M.config.get (Routine.lf "count") = some (some (.int (n - 1 : Nat)))) :
    Stands t limit body g M' := by
  obtain ⟨hcode', hpushes', hcalls'⟩ := hfollows.effect hcode
  have hM : M.pushed? = some (.int (n - 1 : Nat)) := by
    unfold Moment.pushed?
    rw [hcode]
    exact value?_count hcount
  have hwriting : Writing K n M' ([.createFrame] ++ writeCall) :=
    .call (by decide) hn hM (by rw [hpushes', hpushes])
  exact .write hplace (hcalls'.trans hcalls) hwrites hcode' hwriting

end

/-- A step in `write`, which counts down. -/
theorem stands_of_write (hM : m.Reaches g.finish.listing.instructions input M)
    (hstands : ∀ K ∈ M.calls, Stands t limit body g K) {rest : Place}
    (hplace : (Routine.writeBody ++ rest) <:+ g.routineCode) (hcalls : M.calls = K :: lower)
    (hwrites : Writes K n) (hcode : M.config.code = code ++ rest) (hwriting : Writing K n M code)
    (hrun : m.step g.finish.listing.instructions M.config = some M'.config) :
    Stands t limit body g M' := by
  have hquietly : ∀ {j : Instr} {front tail : Place}, M.config.code = j :: (front ++ tail ++ rest) →
      (∀ i ∈ j :: front, i.isQuiet = true) → (M'.pushes = M.pushes →
        (∀ i ∈ front, i.isQuiet = true) → Writing K n M' (front ++ tail)) → Stands t limit body g M' :=
    fun hcode hquiet hwriting =>
      stands_write_quiet hfollows hplace hcalls hwrites hcode (hquiet _ (.head _))
        fun h => hwriting h fun i hi => hquiet i (.tail _ hi)
  cases hwriting with
  | test hpushes hcount =>
    exact stands_write_test hg hfollows hplace hcalls hwrites hcode hpushes hcount hrun
  | take hn hpushes hcount =>
    exact stands_write_take hfollows hplace hcalls hwrites hcode hn hpushes hcount
  | lower hn hpushes hcount =>
    exact stands_write_lower hfollows hplace hcalls hwrites hcode hn hpushes hcount hrun
  | push hn hpushes hcount =>
    exact stands_write_push hfollows hplace hcalls hwrites hcode hn hpushes hcount
  | @count front hquiet hpushes =>
    cases front with
    | nil => exact stands_write_count hfollows hplace hcalls hwrites hM hcode hpushes
    | cons j front => exact hquietly hcode hquiet fun h hquiet => .count hquiet (h.trans hpushes)
  | @call front A hquiet hn hA hpushes =>
    cases front with
    | nil =>
      obtain ⟨htarget, hpushes', hcalls'⟩ := hfollows.effect hcode
      have hcode' := eq_of_target? hg htarget (hplace.trans g.routineCode_suffix)
      exact (writes_pred hM.sound hcode hwrites hA hpushes).stands hplace hcalls' hcode' hpushes'
    | cons j front => exact hquietly hcode hquiet fun h hquiet => .call hquiet hn hA (h.trans hpushes)
  | @leave front hquiet hpushes =>
    cases front with
    | nil =>
      refine stands_back hg hlimit hM.sound hfollows hcode ?_ hstands
      rw [hcalls, floor, hwrites.taken, hpushes]
    | cons j front => exact hquietly hcode hquiet fun h hquiet => .leave hquiet (h.trans hpushes)

/-- Every instruction leads from a moment where a run may stand to another one. -/
theorem Stands.step (hM : m.Reaches g.finish.listing.instructions input M)
    (h : Stands t limit body g M) (hcalls : ∀ K ∈ M.calls, Stands t limit body g K)
    (hrun : m.step g.finish.listing.instructions M.config = some M'.config) :
    Stands t limit body g M' := by
  cases h with
  | opening hblock hcode hpushes hnone =>
    exact stands_of_opening hfollows hblock hcode hpushes hnone
  | block hblock hsplit hcode hpushes hown =>
    exact stands_of_block hg hlimit hM.sound hfollows hcalls hblock hsplit hcode hpushes hown
  | entering hblock hK henters hcode hquiet hpushes =>
    exact stands_of_entering hfollows hblock hK henters hcode hquiet hpushes
  | taking hblock hK henters hparams hcode hpushes hbound =>
    exact stands_of_taking hM.sound hfollows hblock hK henters hparams hcode hpushes hbound
  | routine hwrite herror hr hplace hK hcall hbody hcode hpushes =>
    exact stands_of_routine hg hlimit hM.sound hfollows hcalls hwrite herror hr hplace hK hcall
      hbody hcode hpushes
  | write hplace hK hwrites hcode hwriting =>
    exact stands_of_write hg hlimit hfollows hM hcalls hplace hK hwrites hcode hwriting hrun
  | failed hcode => exact (hfollows.effect hcode).elim

omit hfollows in
/-- A run of a listing stands where it may at all moments, and so it did at its pending calls. -/
theorem Reaches.stands (h : m.Reaches g.finish.listing.instructions input M) :
    Stands t limit body g M ∧ ∀ K ∈ M.calls, Stands t limit body g K := by
  refine h.invariant
    (P := fun M => Stands t limit body g M ∧ ∀ K ∈ M.calls, Stands t limit body g K)
    ⟨?_, by simp⟩ fun M M' hM ⟨hstands, hcalls⟩ hrun hfollows => ?_
  · have hblock := block_main hg
    cases hdecl : g.segment.declared.toList with
    | nil =>
      refine hblock.stands_start ?_ rfl
      show g.finish.listing.instructions = _
      rw [instructions_eq, Segment.declarations, hdecl]
      rfl
    | cons v vs =>
      have hcode : g.finish.listing.instructions = (v :: vs).map .defVar ++
          (g.segment.body.toList ++ [.exit (.int 0)] ++ g.behindMain) := by
        rw [instructions_eq, Segment.declarations, hdecl]
      exact .opening hblock hcode rfl rfl
  · refine ⟨hstands.step hg hlimit hfollows hM hcalls hrun, fun K hK => ?_⟩
    rcases hfollows.mem_calls hK with rfl | hK
    · exact hstands
    · exact hcalls K hK

end Ifj22.Machine
