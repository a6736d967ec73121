import Ifj22.Proofs.Loop
import Ifj22.Proofs.Tree.Part
import Ifj22.Proofs.Typing.Inferred
set_option autoImplicit false

/-!
# Typing: the settled table is a post-fixpoint

The walk over a program is followed by rounds of settling.  A round that changes something adds a
member to the type of a symbol, of which there are at most six for every symbol, so the rounds end.
Under the table that they leave, the values that are assigned and returned anywhere in the program
fit the types of their variables and functions.  A type that is declared is never touched.
-/

namespace Ifj22

variable {p : Program} {body body' : List Stmt} {c : Checker} {t : SymbolTable} {name : String}
  {ty : Ty}

/-! ## The walk and the rounds -/

/-- The walk over a program: its functions are declared, its statements are checked in source
order. -/
def Checker.walk (root : NodeId) : Check Unit := do
  hoist root
  stmt (← get).arena.size root

/-- Checking a program is a walk over it, and settling. -/
theorem Checker.program_eq (root : NodeId) :
    Checker.program root = Checker.walk root >>= fun _ =>
      modifyGet fun c : Checker => (c.table.settle c.arena root, { c with table := .empty }) := by
  simp only [Checker.program, Checker.walk, bind_assoc]

/-- What a walk over a program leaves: its arena holds the converted statements, and its table is
that of a walk over the parsed ones. -/
theorem Program.Holds.walk (h : p.Holds body)
    (hwalk : (Checker.walk p.root).run ((Checker.start .builtins).withArena p.arena) = .ok () c) :
    ∃ body' c0, Stmt.checkProgram body (Checker.start .builtins) = .ok body' c0 ∧
      c.table = c0.table ∧ ListAt c.arena body' none 0 p.root := by
  have hmirrors := Checker.mirrors_program h (Checker.start .builtins)
  have hrun : (do Checker.hoist p.root; Checker.stmt (← get).arena.size p.root : Check Unit)
      { Checker.start .builtins with arena := p.arena } = .ok () c := hwalk
  unfold Checker.Mirrors at hmirrors
  split at hmirrors
  · rename_i body' c0 hchecked
    obtain ⟨_, a', hrun', hlist, _⟩ := hmirrors
    cases hrun.symm.trans hrun'
    exact ⟨body', c0, hchecked, rfl, hlist⟩
  · obtain ⟨s, hrun'⟩ := hmirrors
    cases hrun.symm.trans hrun'

theorem Program.check_of_walk
    (hwalk : (Checker.walk p.root).run ((Checker.start .builtins).withArena p.arena) = .ok () c) :
    p.check = .ok ⟨⟨c.arena, p.root⟩, c.table.settle c.arena p.root⟩ := by
  have hrun : Checker.walk p.root ((Checker.start .builtins).withArena p.arena) = .ok () c := hwalk
  unfold Program.check
  rw [Checker.program_eq]
  simp only [EStateM.run, Bind.bind, EStateM.bind]
  rw [hrun]
  rfl

namespace SymbolTable

theorem settleRounds_eq_run (a : Arena) (root : NodeId) : ∀ (fuel : Nat) (t : SymbolTable),
    settleRounds a root fuel t = Loop.run (settleRound a root) (· = true) fuel t := by
  intro fuel
  induction fuel with
  | zero => exact fun _ => rfl
  | succ fuel ih =>
    intro t
    rw [settleRounds, Loop.run]
    simp only [ih]
    rfl

/-- The rounds over a program whose names are known come to an end: no table has more than six
members for every symbol, and a round that changes something adds one. -/
theorem ends_settle {a : Arena} {root : NodeId} {lo : Nat} (h : ListAt a body none lo root)
    (hknown : ∀ s ∈ body, s.OverTop t.lexicon) :
    ∃ n ≤ 6 * t.symbolCount, Loop.Ends (settleRound a root) (· = true) n t := by
  rw [settleRound_eq h]
  have hlowers : ∀ t : SymbolTable, (∀ s ∈ body, s.OverTop t.lexicon) →
      ((Stmt.settleList none body).run t).1 = true →
      6 * symbolCount ((Stmt.settleList none body).run t).2 -
        weight ((Stmt.settleList none body).run t).2 < 6 * t.symbolCount - t.weight := by
    intro t hknown hchanged
    obtain ⟨_, hcount, hweight⟩ := (rounds_toplevel t hknown).1
    have hle := weight_le ((Stmt.settleList none body).run t).2
    rw [hchanged, Bool.toNat_true] at hweight
    rw [hcount] at hle ⊢
    omega
  obtain ⟨n, hn, hends⟩ := Loop.ends (I := fun t : SymbolTable => ∀ s ∈ body, s.OverTop t.lexicon)
    (· = true) (fun t : SymbolTable => 6 * t.symbolCount - t.weight) known_round hlowers hknown
  exact ⟨n, Nat.le_trans hn (Nat.sub_le _ _), hends⟩

end SymbolTable

/-! ## Declared types -/

open SymbolTable

/-- A step that adds no returns to the type of a function keeps it. -/
theorem SymbolTable.Absorbs.keeps {t' : SymbolTable} (h : Absorbs name [] t t')
    (hty : (t.find? name).map (·.ty) = some ty) : (t'.find? name).map (·.ty) = some ty := by
  obtain ⟨s, hs, rfl⟩ := Option.map_eq_some_iff.mp hty
  obtain ⟨s', hs', _⟩ := h.grows.symbols hs
  have hsame := h.same rfl
  rw [tyOf_eq, tyOf_eq, varTy?_none, varTy?_none, hs, hs'] at hsame
  rw [hs']
  exact congrArg some hsame

/-- Neither the walk nor a round touches the type of a function, unless that is inferred. -/
theorem Stmt.checkProgram_keeps (hspelled : ∀ s ∈ body, s.OverTop .spelled)
    (hrun : Stmt.checkProgram body (Checker.start .builtins) = .ok body' c)
    (hname : IsName name.toList) (hother : ∀ params b, Stmt.function name params none b ∉ body)
    (hty : ∀ t, SymbolTable.builtins.Hoists t body → (t.find? name).map (·.ty) = some ty)
    (k : Nat) :
    (Table.find? (Loop.after (Stmt.settleList none body') k c.table) name).map (·.ty) = some ty := by
  obtain ⟨_, haccepts, hknown, _, _⟩ := Stmt.checkedInto hspelled hrun
  obtain ⟨V, c1, hhoists, hready, hscope, hfunctions, hlist⟩ :=
    Stmt.checkProgram_ready hspelled hrun
  have hwalk := Stmt.absorbs_others hname hspelled hother hready hscope hfunctions hlist
  have hown : ∀ params b, Stmt.function name params none b ∈ body' → Stmt.returnsOf b ⊆ [] := by
    intro params b hmem
    obtain ⟨s, hs, hacc⟩ := exists_of_mem_right haccepts hmem
    cases hacc with
    | stmt _ hs' => cases hs'
    | function => exact absurd hs (hother params _)
  have hround : ∀ t : SymbolTable,
      ((∀ s ∈ body', s.OverTop t.lexicon) ∧ (t.find? name).map (·.ty) = some ty) →
      (∀ s ∈ body', s.OverTop (lexicon ((Stmt.settleList none body').run t).2)) ∧
        (Table.find? ((Stmt.settleList none body').run t).2 name).map (·.ty) = some ty := by
    rintro t ⟨hover, hty⟩
    obtain ⟨values, hnil, habsorbs⟩ :=
      Stmt.absorbs_round hname (overTop_of_accepts haccepts hspelled) hown t hover
    obtain rfl := List.eq_nil_of_subset_nil hnil
    exact ⟨fun s hs => habsorbs.grows.toplevel (hover s hs), habsorbs.keeps hty⟩
  exact (Loop.invariant_after hround ⟨hknown, hwalk.keeps (hty _ hhoists)⟩ k).2

/-- A function keeps the type that it declares. -/
theorem Stmt.checkProgram_declared (hspelled : ∀ s ∈ body, s.OverTop .spelled)
    (hrun : Stmt.checkProgram body (Checker.start .builtins) = .ok body' c) {params : List Param}
    {b : List Stmt} (hmem : Stmt.function name params (some ty) b ∈ body) (k : Nat) :
    (Table.find? (Loop.after (Stmt.settleList none body') k c.table) name).map (·.ty) = some ty := by
  obtain ⟨⟨_, hhoists, _⟩, _, _, _, _⟩ := Stmt.checkedInto hspelled hrun
  have hname : IsName name.toList := (hspelled _ hmem).head.1
  apply Stmt.checkProgram_keeps hspelled hrun hname
  · intro params' b' hmem'
    cases Stmt.eq_of_functionName? hhoists.nodup hmem hmem' rfl rfl
  · intro t ht
    obtain ⟨s, hs, _, _, _, hty, _⟩ := (ht.head name params (some ty) b hmem).symbol
    rw [hs]
    exact congrArg some hty

/-- The built-in functions keep their types. -/
theorem Stmt.checkProgram_builtin (hspelled : ∀ s ∈ body, s.OverTop .spelled)
    (hrun : Stmt.checkProgram body (Checker.start .builtins) = .ok body' c) {b : Builtin}
    (hb : b ∈ builtinList) (k : Nat) :
    (Table.find? (Loop.after (Stmt.settleList none body') k c.table) b.name).map (·.ty) =
      some b.ret := by
  obtain ⟨⟨_, hhoists, _⟩, _, _, _, _⟩ := Stmt.checkedInto hspelled hrun
  have hname : ∀ b ∈ builtinList, IsName b.name.toList := by
    simp [builtinList, IsName, isNameStart, isNameChar]
  have hfind : ∀ b ∈ builtinList, (builtins.find? b.name).map (·.ty) = some b.ret := by decide
  -- a name of the language is not free to be declared
  have htaken : ∀ {t}, builtins.Hoists t body → b.name ∉ body.filterMap Stmt.functionName? := by
    intro t ht hmem
    have hty := hfind b hb
    rw [ht.fresh _ hmem] at hty
    cases hty
  apply Stmt.checkProgram_keeps hspelled hrun (hname b hb)
  · intro params b' hmem
    exact htaken hhoists (List.mem_filterMap.mpr ⟨_, hmem, rfl⟩)
  · intro t ht
    rw [ht.others _ (htaken ht)]
    exact hfind b hb

/-! ## What fits a table -/

/-- The scope of what stands in a function. -/
def Around.scope (f : Around) : Option SettleScope := f.map fun g => ⟨g.1, g.2.isNone⟩

theorem Around.name_scope (f : Around) : f.scope.map (·.name) = f.map (·.1) := Option.map_map ..

/-- The statement is over the names of its scope and settled there.  A function, as the statement it
is, has its declared type in the table. -/
inductive Stmt.Fits (t : SymbolTable) : Around → Stmt → Prop
  | stmt {f : Around} {s : Stmt} (hscope : t.ScopeKnown f.scope)
    (hover : s.Over (t.vocabulary (f.map (·.1)))) (hsettled : s.Settled t f.scope) : Fits t f s
  | function {f : Around} {name : String} {params : List Param} {declared : Option Ty}
    {body : List Stmt} (hscope : t.ScopeKnown (some ⟨name, declared.isNone⟩))
    (hover : ∀ s ∈ body, s.Over (t.vocabulary (some name)))
    (hsettled : ∀ s ∈ body, s.Settled t (some ⟨name, declared.isNone⟩))
    (hdeclared : ∀ ty, declared = some ty → (t.find? name).map (·.ty) = some ty) :
    Fits t f (.function name params declared body)

theorem Stmt.Over.value {V : Vocabulary} {e : Expr} (h : (Stmt.expr e).Over V) : e.Over V := by
  cases h with
  | expr h => exact h

/-- The parts of a statement that fits the table fit it too, each in its own scope. -/
theorem inherits_fits (t : SymbolTable) :
    Inherits (Stmt.Fits t) fun f body => ∀ s ∈ body, s.Fits t f where
  binary := by
    rintro f op left right ⟨hscope, hover, _⟩
    cases hover.value with
    | binary hleft hright =>
      exact ⟨.stmt hscope (.expr hleft) .expr, .stmt hscope (.expr hright) .expr⟩
  unary := by
    rintro f op operand ⟨hscope, hover, _⟩
    cases hover.value with
    | unary hoperand => exact .stmt hscope (.expr hoperand) .expr
  call := by
    rintro f name args ⟨hscope, hover, _⟩ e he
    cases hover.value with
    | call _ hargs => exact .stmt hscope (.expr (hargs e he)) .expr
  assign := by
    rintro f target value ⟨hscope, hover, _⟩
    cases hover with
    | assign _ hvalue => exact .stmt hscope (.expr hvalue) .expr
  ret := by
    rintro f value ⟨hscope, hover, _⟩
    cases hover with
    | ret hvalue => exact .stmt hscope (.expr (hvalue value rfl)) .expr
  block := by
    rintro f body ⟨hscope, hover, hsettled⟩ s hs
    cases hover with
    | block hover =>
      cases hsettled with
      | block hsettled => exact .stmt hscope (hover s hs) (hsettled s hs)
  ifElse := by
    rintro f cond thenBody elseBody ⟨hscope, hover, hsettled⟩
    cases hover with
    | ifElse hcond hthen helse =>
      cases hsettled with
      | ifElse hsthen hselse =>
        refine ⟨.stmt hscope (.expr hcond) .expr, fun s hs => ?_, fun body hbody s hs => ?_⟩
        · exact .stmt hscope (hthen s hs) (hsthen s hs)
        · exact .stmt hscope (helse body hbody s hs) (hselse body hbody s hs)
  whileLoop := by
    rintro f cond body ⟨hscope, hover, hsettled⟩
    cases hover with
    | whileLoop hcond hover =>
      cases hsettled with
      | whileLoop hsettled =>
        refine ⟨.stmt hscope (.expr hcond) .expr, fun s hs => ?_⟩
        exact .stmt hscope (hover s hs) (hsettled s hs)
  function := by
    rintro f name params declared body (⟨_, hover, _⟩ | ⟨hscope, hover, hsettled, _⟩) s hs
    · cases hover
    · exact .stmt hscope (hover s hs) (hsettled s hs)
  concat := by
    intro f body s h
    exact ⟨fun u hu => h u (List.mem_append_left _ hu),
      h s (List.mem_append_right _ (List.mem_singleton_self s))⟩

/-- The statements of a program fit a table that knows their names and that they are settled under,
if it has the declared types. -/
theorem Stmt.fits_of_settled {s : Stmt} (hknown : s.OverTop t.lexicon) (hsettled : s.Settled t none)
    (hdeclared : ∀ name params ty b, s = .function name params (some ty) b →
      (t.find? name).map (·.ty) = some ty) : s.Fits t none := by
  cases hknown with
  | stmt hover => exact .stmt (fun _ hf => by cases hf) hover hsettled
  | @function name params declared b hhead hover =>
    cases hsettled with
    | function hsettled =>
      refine .function (fun f hf => ?_) hover hsettled fun ty hty => hdeclared name params ty b ?_
      · cases hf
        exact hhead
      · rw [hty]

/-- The table is a post-fixpoint of settling over a program: what is assigned fits its variable in
its scope, what is returned without a declared type fits the type of the function, and the
declared types are those of the table.  A type may be wider than that, since what a call yields
counts as any value until the walk has seen the function. -/
structure SymbolTable.PostFixpoint (t : SymbolTable) (p : Program) : Prop where
  assigned : ∀ {f : Around} {i value : Nat} {target : String}, p.arena.Stands p.root f i →
    p.arena.node i = .assign target value → ∃ ty, t.varTy? (f.map (·.1)) target = some ty ∧
      (p.arena.infer (TypeEnv.ofScope t (f.map (·.1))) value).subset ty = true
  returned : ∀ {name : String} {i : Nat} {value : Option Nat},
    p.arena.Stands p.root (some (name, none)) i → p.arena.node i = .ret value →
    ∃ ty, (t.find? name).map (·.ty) = some ty ∧
      ((value.map (p.arena.infer (TypeEnv.ofScope t (some name)))).getD .null).subset ty = true
  declared : ∀ {f : Around} {i body : Nat} {name : String} {params : List Param} {ty : Ty},
    p.arena.Stands p.root f i → p.arena.node i = .function name params (some ty) body →
    (t.find? name).map (·.ty) = some ty

/-- A table that the statements of a program fit is a post-fixpoint. -/
theorem Program.Holds.postFixpoint (h : p.Holds body) (hfits : ∀ s ∈ body, s.Fits t none) :
    t.PostFixpoint p where
  assigned := by
    intro f i value target hstands hn
    have hshow := hstands.shows (inherits_fits t) h hfits
    rw [Arena.Shows, hn] at hshow
    obtain ⟨e, lo, he, _, hover, hsettled⟩ := hshow
    cases hover with
    | assign hvar _ =>
      cases hsettled with
      | assign hsettled =>
        obtain ⟨ty, hty, _⟩ := varTy_of_var hvar
        rw [f.name_scope] at hsettled
        refine ⟨ty, hty, ?_⟩
        rw [he.infer_eq]
        exact hsettled ty hty
  returned := by
    intro name i value hstands hn
    have hshow := hstands.shows (inherits_fits t) h hfits
    rw [Arena.Shows, hn] at hshow
    obtain ⟨e, he, hscope, _, hsettled⟩ := hshow
    obtain ⟨s, hs, _⟩ := hscope _ rfl
    have hvalue : value.map (p.arena.infer (TypeEnv.ofScope t (some name))) =
        e.map (Expr.infer (TypeEnv.ofScope t (some name))) := by
      cases he with
      | none => rfl
      | some he =>
        obtain ⟨_, he⟩ := he
        exact congrArg some (he.infer_eq _)
    refine ⟨s.ty, by rw [hs]; rfl, ?_⟩
    rw [hvalue]
    cases hsettled with
    | ret hsettled => exact hsettled _ rfl rfl s hs
  declared := by
    intro f i b name params ty hstands hn
    have hshow := hstands.shows (inherits_fits t) h hfits
    rw [Arena.Shows, hn] at hshow
    obtain ⟨_, _, _, hfit⟩ := hshow
    cases hfit with
    | stmt _ hover => cases hover
    | function _ _ _ hdeclared => exact hdeclared ty rfl

/-! ## Checked programs -/

/-- The table that the rounds leave after a walk is a post-fixpoint. -/
theorem Stmt.checkProgram_postFixpoint (hspelled : ∀ s ∈ body, s.OverTop .spelled)
    (hrun : Stmt.checkProgram body (Checker.start .builtins) = .ok body' c) (hholds : p.Holds body')
    {n : Nat} (hends : Loop.Ends (settleRound p.arena p.root) (· = true) n c.table) :
    PostFixpoint (Loop.after (settleRound p.arena p.root) (n + 1) c.table) p := by
  obtain ⟨_, haccepts, hknown, _, _⟩ := Stmt.checkedInto hspelled hrun
  rw [settleRound_eq hholds] at hends ⊢
  have hover : ∀ k, ∀ s ∈ body',
      s.OverTop (lexicon (Loop.after (Stmt.settleList none body') k c.table)) :=
    Loop.invariant_after (I := fun t : SymbolTable => ∀ s ∈ body', s.OverTop t.lexicon) known_round
      hknown
  obtain ⟨hsame, hsettled⟩ := (rounds_toplevel _ (hover n)).2 (Bool.eq_false_iff.mpr hends.idle)
  apply hholds.postFixpoint
  intro s hs
  apply Stmt.fits_of_settled (hover (n + 1) s hs)
  · rw [Loop.after_succ]
    exact (hsettled s hs).same hsame
  · rintro name params ty b rfl
    obtain ⟨s', hs', hacc⟩ := exists_of_mem_right haccepts hs
    cases hacc with
    | stmt _ hover => cases hover
    | function => exact Stmt.checkProgram_declared hspelled hrun hs' (n + 1)

/-- After the walk over a program of a text, settling ends with the first round that changes nothing:
there are at most six rounds before it for every symbol.  The table that it leaves is the one of the
checked program and a post-fixpoint for it, and the built-in functions have kept their types. -/
theorem check_settles {source : String} {p : Program} {c : Checker}
    (hparse : parseSource source = .ok p)
    (hwalk : (Checker.walk p.root).run ((Checker.start .builtins).withArena p.arena) = .ok () c) :
    ∃ n ≤ 6 * c.table.symbolCount,
      (∀ k < n, Loop.report (settleRound c.arena p.root) k c.table = true) ∧
      Loop.report (settleRound c.arena p.root) n c.table = false ∧
      ∃ t, t = Loop.after (settleRound c.arena p.root) (n + 1) c.table ∧
        p.check = .ok ⟨⟨c.arena, p.root⟩, t⟩ ∧ t.PostFixpoint ⟨c.arena, p.root⟩ ∧
        ∀ b ∈ builtinList, (t.find? b.name).map (·.ty) = some b.ret := by
  obtain ⟨body, hholds, hspelled⟩ := spelled_of_parseSource hparse
  obtain ⟨body', c₀, hrun, htable, hlist⟩ := hholds.walk hwalk
  have hcheck := Program.check_of_walk hwalk
  rw [htable] at hcheck ⊢
  obtain ⟨n, hn, hends⟩ := ends_settle hlist (Stmt.checkedInto hspelled hrun).known
  refine ⟨n, hn, hends.changes, Bool.eq_false_iff.mpr hends.idle, _, rfl, ?_, ?_, fun b hb => ?_⟩
  · rw [hcheck, SymbolTable.settle, settleRounds_eq_run,
      hends.run_eq _ (Nat.lt_succ_of_le hn)]
  · exact Stmt.checkProgram_postFixpoint (p := ⟨c.arena, p.root⟩) hspelled hrun hlist hends
  · rw [settleRound_eq hlist]
    exact Stmt.checkProgram_builtin hspelled hrun hb (n + 1)

/-- A program whose loop hands a float from variable to variable, against the order of its
assignments. -/
def floatChain : String :=
  "<?php function f(): int { return 1; } function g() { $a = 1; $b = 1; $c = 1;
    while (f()) { $a = $b; $b = $c; $c = 1.5; } return $a; }"

/-- Each of two rounds hands the float on to one variable more, and the second one to the type of the
function, which was int after the walk. -/
theorem check_settles_chain :
    ∃ p c t, parseSource floatChain = .ok p ∧
      (Checker.walk p.root).run ((Checker.start .builtins).withArena p.arena) = .ok () c ∧
      Table.tyOf c.table "g" = .int ∧
      t = Loop.after (settleRound c.arena p.root) 3 c.table ∧ Table.tyOf t "g" = .int ∪ .float ∧
      p.check = .ok ⟨⟨c.arena, p.root⟩, t⟩ ∧ t.PostFixpoint ⟨c.arena, p.root⟩ := by
  obtain ⟨p, hparse, _, c, hwalk, h0, h1, h2, hg, hg'⟩ : ∃ p, parseSource floatChain = .ok p ∧
      ∃ u c, Checker.walk p.root ((Checker.start .builtins).withArena p.arena) = .ok u c ∧
        Loop.report (settleRound c.arena p.root) 0 c.table = true ∧
        Loop.report (settleRound c.arena p.root) 1 c.table = true ∧
        Loop.report (settleRound c.arena p.root) 2 c.table = false ∧
        Table.tyOf c.table "g" = .int ∧
        Table.tyOf (Loop.after (settleRound c.arena p.root) 3 c.table) "g" = .int ∪ .float := by
    decide +kernel
  obtain ⟨n, _, hchanges, hidle, t, ht, hcheck, hpost, _⟩ := check_settles hparse hwalk
  have hn : n = 2 := by
    apply Loop.first_unique hchanges (Bool.eq_false_iff.mp hidle) ?_ (Bool.eq_false_iff.mp h2)
    intro k hk
    rcases (by omega : k = 0 ∨ k = 1) with rfl | rfl
    · exact h0
    · exact h1
  subst hn
  exact ⟨p, c, t, hparse, hwalk, hg, ht, ht ▸ hg', hcheck, hpost⟩

end Ifj22
