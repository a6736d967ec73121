import Ifj22.Proofs.Code.Held
import Ifj22.Proofs.Code.Labels
import Ifj22.Proofs.Meaning.Interpreter
set_option autoImplicit false

/-!
# Code: what calls lead to

A call in generated code leads to the code of a function of the program or to a routine of the
listing.  Either takes from the stack what was pushed for the call: a function its parameters, a
routine as many values as it has pops, on every way through it, and `write` as many as it is told.
-/

namespace Ifj22.Code

variable {name : String} {params : List Param} {declared : Option Ty} {b : List Stmt} {r : Routine}

/-! ## Functions of a program -/

/-- A function of the program is found by its name. -/
theorem findSome?_function : ∀ {body : List Stmt}, (Generator.functionNames body).Nodup →
      Stmt.function name params declared b ∈ body →
      body.findSome? (Stmt.function? name) = some ⟨params, declared, b⟩
  | [], _, h => nomatch h
  | s :: body, hnodup, h => by
    rw [List.findSome?_cons]
    rcases List.mem_cons.mp h with rfl | h
    · rw [Stmt.function?, if_pos rfl]
    · have hname : name ∈ Generator.functionNames body := List.mem_filterMap.mpr ⟨_, h, rfl⟩
      cases hs : s.functionName? with
      | none =>
        have hnone : s.function? name = none := by cases s <;> first | rfl | cases hs
        rw [Generator.functionNames, List.filterMap_cons_none hs] at hnodup
        rw [hnone]
        exact findSome?_function hnodup h
      | some other =>
        rw [Generator.functionNames, List.filterMap_cons_some hs] at hnodup
        obtain ⟨hnew, hnodup⟩ := List.nodup_cons.mp hnodup
        have hnone : s.function? name = none := by
          cases s with
          | function first _ _ _ =>
            have hne : first ≠ name := fun heq => hnew (Option.some.inj hs ▸ heq ▸ hname)
            exact if_neg hne
          | _ => cases hs
        rw [hnone]
        exact findSome?_function hnodup h

/-- No function is found by a name that no function has. -/
theorem findSome?_function_none {body : List Stmt} (h : name ∉ Generator.functionNames body) :
    body.findSome? (Stmt.function? name) = none := by
  refine List.findSome?_eq_none_iff.mpr fun s hs => ?_
  cases s with
  | function other _ _ _ =>
    exact if_neg fun heq => h (List.mem_filterMap.mpr ⟨_, hs, congrArg some heq⟩)
  | _ => rfl

/-! ## Pops -/

/-- How many values code takes from the stack if it is run through once. -/
def popsIn (code : List Instr) : Nat := code.countP Instr.isPop

theorem popsIn_append (code code' : List Instr) : popsIn (code ++ code') = popsIn code + popsIn code' :=
  List.countP_append

namespace Routine

/-- What a routine may do behind `front`: it pushes nothing and calls nothing, its jumps lead to places
behind as many pops or to the end of the program, and at its end it has taken all its arguments. -/
def keeps (r : Routine) (front : List Instr) (i : Instr) : Bool :=
  i.isQuiet || i.isPop || (i == .ret && popsIn front == popsIn r.body) ||
    i.jump?.any fun l => l == typeError.entry || (List.range r.body.length).any fun k =>
      r.body[k]? == some (.label l) && popsIn (r.body.take k) == popsIn front

/-- A routine is called with its arguments on the stack, and takes them. -/
structure Disciplined (r : Routine) : Prop where
  keeps_body : r ≠ .write → r ≠ .typeError →
    (List.range r.body.length).all (fun k => r.body[k]?.all (r.keeps (r.body.take k))) = true
  /-- A routine that may fail depends on the one that ends the program. -/
  error_dependency : ∀ i ∈ r.body, i.jump? = some typeError.entry → typeError ∈ r.dependencies
  body_getLast? : r ≠ .typeError → r.body.getLast? = some .ret
  builtin_pops : ∀ b ∈ SymbolTable.builtinList, b.name ≠ "write" → r.name = b.name →
    (popsIn r.body : Int) = b.arity
  conversion_pops : r.isConversion = true → popsIn r.body = 1

theorem disciplined (r : Routine) : r.Disciplined := by
  cases r <;> exact ⟨by decide +kernel, by decide +kernel, by decide +kernel, by decide +kernel,
    by decide +kernel⟩

/-- What the instructions of a routine other than `write` do to the stack. -/
inductive Keeps (r : Routine) (front : List Instr) : Instr → Prop
  | quiet {i : Instr} (h : i.isQuiet = true) : Keeps r front i
  | pop {dest : Var} : Keeps r front (.pop dest)
  | jump {i : Instr} {l : Label} (h : i.jump? = some l) {front' behind : List Instr}
    (hbody : r.body = front' ++ .label l :: behind) (hpops : popsIn front' = popsIn front) :
    Keeps r front i
  | fail {i : Instr} (h : i.jump? = some typeError.entry) : Keeps r front i
  | ret (h : popsIn front = popsIn r.body) : Keeps r front .ret

theorem keeps_of_body (hwrite : r ≠ .write) (herror : r ≠ .typeError) {front behind : List Instr}
    {i : Instr} (hbody : r.body = front ++ i :: behind) : r.Keeps front i := by
  have hall := List.all_eq_true.mp (r.disciplined.keeps_body hwrite herror) front.length
    (List.mem_range.mpr (by rw [hbody]; simp))
  have hfront : r.body.take front.length = front := by rw [hbody, List.take_left]
  have hitem : r.body[front.length]? = some i := by rw [hbody]; simp
  rw [hfront, hitem, Option.all_some, keeps] at hall
  simp only [Bool.or_eq_true, Bool.and_eq_true, beq_iff_eq, Option.any_eq_true, List.any_eq_true] at hall
  rcases hall with ((hquiet | hpop) | ⟨rfl, hpops⟩) | ⟨l, hl, rfl | ⟨k, _, hlabel, hpops⟩⟩
  · exact .quiet hquiet
  · cases i with
    | pop dest => exact .pop
    | _ => cases hpop
  · exact .ret hpops
  · exact .fail hl
  · obtain ⟨hk, hget⟩ := List.getElem?_eq_some_iff.mp hlabel
    have hsplit : r.body = r.body.take k ++ .label l :: r.body.drop (k + 1) := by
      rw [← hget, List.getElem_cons_drop, List.take_append_drop]
    exact .jump hl hsplit hpops

/-- A routine enters a frame of its own. -/
theorem body_eq_cons (r : Routine) (herror : r ≠ .typeError) :
    ∃ rest, r.body = .label r.entry :: .pushFrame :: rest := by
  cases r with
  | typeError => exact absurd rfl herror
  | _ => exact ⟨_, rfl⟩

end Routine

/-- Code that does not end here goes on. -/
theorem exists_cons_of_getLast? {α : Type} {a b : List α} {x y : α}
    (h : (a ++ x :: b).getLast? = some y) (hxy : x ≠ y) : ∃ z b', b = z :: b' := by
  cases b with
  | nil => exact absurd (by simpa using h) hxy
  | cons z b => exact ⟨z, b, rfl⟩

/-! ## Arguments -/

/-- How many values the code at a label takes from the stack. -/
def arityOf (body : List Stmt) : Label → Nat
  | .entry name =>
    match body.findSome? (Stmt.function? name) with
    | some f => f.params.length
    | none => ((Routine.all.find? (·.name == name)).map fun r => popsIn r.body).getD 0
  | _ => 0

theorem Routine.find?_name (r : Routine) : all.find? (·.name == r.name) = some r := by
  cases r <;> decide

theorem arityOf_routine {body : List Stmt} (h : r.name ∉ Generator.functionNames body) :
    arityOf body r.entry = popsIn r.body := by
  unfold arityOf Routine.entry
  simp only [findSome?_function_none h, r.find?_name, Option.map_some, Option.getD_some]

namespace Generator

variable {t : SymbolTable} {limit : Nat} {body : List Stmt} {g : Generator}

namespace Generated

theorem arityOf_function (h : Generated t limit body g)
    (hmem : Stmt.function name params declared b ∈ body) :
    arityOf body (.entry name) = params.length := by
  unfold arityOf
  simp only [findSome?_function h.ready.nodup hmem]

/-- No two parameters of a function have one variable. -/
theorem params_nodup (h : Generated t limit body g)
    (hmem : Stmt.function name params declared b ∈ body) :
    (params.map fun p => bareName p.name).Nodup := by
  obtain ⟨_, _, hnodup, hvars⟩ := h.head hmem
  have hmap : params.map (fun p => bareName p.name) = (params.map Param.name).map bareName := by
    rw [List.map_map]
    rfl
  rw [hmap]
  refine hnodup.map_on fun x hx y hy heq => ?_
  obtain ⟨p, hp, rfl⟩ := List.mem_map.mp hx
  obtain ⟨q, hq, rfl⟩ := List.mem_map.mp hy
  exact bareName_inj (hvars p hp).1.1 (hvars q hq).1.1 heq

/-- No function of the program is named like a routine that is called. -/
theorem routine_fresh (h : Generated t limit body g) (r : Routine) :
    r.name ∉ functionNames body := by
  intro hmem
  by_cases hbuiltin : r.isBuiltin = true
  · have hname : ∃ b ∈ SymbolTable.builtinList, b.name = r.name := by
      revert hbuiltin
      cases r <;> decide
    obtain ⟨b, hb, hname⟩ := hname
    exact h.ready.fresh b hb (hname ▸ hmem)
  · obtain ⟨params, declared, b, hmem⟩ := function_mem hmem
    have hspelled := (h.head hmem).1
    have hpercent : ∃ rest, r.name.toList = '%' :: rest := by
      revert hbuiltin
      cases r <;> simp [Routine.isBuiltin, Routine.name]
    obtain ⟨rest, hrest⟩ := hpercent
    rw [hrest] at hspelled
    exact absurd hspelled.1 (by decide)

/-- The calls of a program take what is pushed for them. -/
theorem fits (h : Generated t limit body g) (hlimit : limit < 2 ^ 63) (scope : Option String) :
    Fits (arityOf body) (names t limit scope) where
  small hc := Nat.lt_of_le_of_lt hc.2 hlimit
  callee := by
    intro name n hc hwrite
    rcases h.callee hc with ⟨params, declared, b, hmem, hlength⟩ | ⟨b, hb, rfl, harity, r, _, hname⟩
    · rw [h.arityOf_function hmem, hlength]
    · have hpops := r.disciplined.builtin_pops b hb hwrite hname
      have hentry : Label.entry b.name = r.entry := by rw [← hname]; rfl
      rw [hentry, arityOf_routine (h.routine_fresh r)]
      omega
  convert hr := by rw [arityOf_routine (h.routine_fresh _), (Routine.disciplined _).conversion_pops hr]

/-- What generated code calls is the code of a function or a routine of the listing. -/
theorem of_callee (h : Generated t limit body g) {scope : Option String} {helpers : List Routine}
    (hhelpers : ∀ r ∈ helpers, r ∈ g.helpers) {l : Label}
    (hl : Callee (names t limit scope) helpers l) :
    (∃ name params declared b, l = .entry name ∧ Stmt.function name params declared b ∈ body) ∨
      ∃ r ∈ g.finish.routines, l = r.entry ∧ r ≠ .typeError := by
  rcases hl with ⟨name, n, rfl, hc⟩ | ⟨r, hr, rfl, hconv⟩
  · rcases h.callee hc with ⟨params, declared, b, hmem, _⟩ | ⟨b, hb, rfl, _, r, hr, hname⟩
    · exact .inl ⟨name, params, declared, b, rfl, hmem⟩
    · refine .inr ⟨r, hr, by rw [← hname]; rfl, ?_⟩
      rintro rfl
      have hall : ∀ b ∈ SymbolTable.builtinList, Routine.typeError.name ≠ b.name := by decide
      exact hall b hb hname
  · refine .inr ⟨r, helper_mem (hhelpers r hr), rfl, ?_⟩
    rintro rfl
    cases hconv

/-! ### Places -/

theorem distinct_labels (h : Generated t limit body g) :
    ((labelsOf g.finish.listing.instructions).map Label.text).Nodup :=
  h.texts_nodup

end Generated

/-- The code of the routines of a listing. -/
def routineCode (g : Generator) : Place := g.finish.routines.flatMap Routine.body

/-- The code behind the main body. -/
def behindMain (g : Generator) : Place := g.functions.toList.flatten ++ g.routineCode

theorem instructions_eq (g : Generator) : g.finish.listing.instructions =
    g.segment.declarations ++ (g.segment.body.toList ++ [.exit (.int 0)] ++ g.behindMain) := by
  rw [finish_instructions]
  simp only [behindMain, routineCode, List.append_assoc]

theorem flatten_suffix {α : Type} {xs : List α} {xss : List (List α)} (h : xs ∈ xss) :
    ∃ rest, (xs ++ rest) <:+ xss.flatten := by
  obtain ⟨before, behind, rfl⟩ := List.append_of_mem h
  exact ⟨behind.flatten, before.flatten, by simp⟩

theorem behindMain_suffix (g : Generator) : g.behindMain <:+ g.finish.listing.instructions := by
  rw [instructions_eq, ← List.append_assoc]
  exact List.suffix_append ..

theorem routineCode_suffix (g : Generator) : g.routineCode <:+ g.finish.listing.instructions :=
  (List.suffix_append ..).trans g.behindMain_suffix

/-- Where the code of a function stands. -/
theorem function_place {code : List Instr} (h : code ∈ g.functions.toList) :
    ∃ rest, (code ++ rest) <:+ g.finish.listing.instructions := by
  obtain ⟨rest, before, hrest⟩ := flatten_suffix h
  refine ⟨rest ++ g.routineCode, .trans ⟨before, ?_⟩ g.behindMain_suffix⟩
  rw [behindMain, ← hrest]
  simp only [List.append_assoc]

/-- Where a routine stands. -/
theorem routine_place (h : r ∈ g.finish.routines) : ∃ rest, (r.body ++ rest) <:+ g.routineCode := by
  unfold routineCode
  rw [List.flatMap_def]
  exact flatten_suffix (List.mem_map_of_mem h)

end Generator

end Ifj22.Code
