import Mathlib.Logic.Function.Iterate
set_option autoImplicit false

/-!
# Loops that run until nothing changes

A loop repeats a step that reports what it changed, and ends with the first step that reports no
change.  It is run under a bound on the number of steps.  If every change lowers a measure, the loop
ends by itself: the number of steps is bounded by the measure, and any larger bound is never met
(`Loop.ends`).
-/

namespace Ifj22.Loop

variable {σ ρ : Type}

/-- What a number of steps leave. -/
def after (step : StateM σ ρ) (k : Nat) (s : σ) : σ := (fun s => (step.run s).2)^[k] s

/-- What a step reports that has a number of steps before it. -/
def report (step : StateM σ ρ) (k : Nat) (s : σ) : ρ := (step.run (after step k s)).1

/-- Steps until one reports no change, at most `fuel` of them. -/
def run (step : StateM σ ρ) (change : ρ → Prop) [DecidablePred change] : Nat → σ → σ
  | 0, s => s
  | fuel + 1, s =>
    if change (step.run s).1 then run step change fuel (step.run s).2 else (step.run s).2

variable {step : StateM σ ρ}

theorem after_succ (k : Nat) (s : σ) : after step (k + 1) s = (step.run (after step k s)).2 :=
  Function.iterate_succ_apply' _ k s

/-- What every step keeps. -/
theorem invariant_after {I : σ → Prop} (hstep : ∀ s, I s → I (step.run s).2) {s : σ} (h : I s)
    (k : Nat) : I (after step k s) := by
  induction k with
  | zero => exact h
  | succ k ih =>
    rw [after_succ]
    exact hstep _ ih

/-- The loop ends with its `n`-th step from zero on, and not because of a bound.  A bound is there
only so that the loop is a total function. -/
structure Ends (step : StateM σ ρ) (change : ρ → Prop) [DecidablePred change] (n : Nat) (s : σ) :
    Prop where
  changes : ∀ k < n, change (report step k s)
  idle : ¬ change (report step n s)
  run_eq : ∀ fuel, n < fuel → run step change fuel s = after step (n + 1) s

/-- A loop ends if every change lowers a measure, as long as an invariant holds. -/
theorem ends (change : ρ → Prop) [DecidablePred change] {I : σ → Prop} (measure : σ → Nat)
    (hkeeps : ∀ s, I s → I (step.run s).2)
    (hlowers : ∀ s, I s → change (step.run s).1 → measure (step.run s).2 < measure s) {s : σ}
    (h : I s) : ∃ n ≤ measure s, Ends step change n s := by
  obtain ⟨m, hm⟩ : ∃ m, m = measure s := ⟨_, rfl⟩
  induction m using Nat.strongRecOn generalizing s with
  | _ m ih =>
    by_cases hchange : change (step.run s).1
    · have hlt := hlowers s h hchange
      obtain ⟨n, hn, hrest⟩ := ih _ (hm ▸ hlt) (hkeeps s h) rfl
      refine ⟨n + 1, Nat.lt_of_le_of_lt hn hlt, fun k hk => ?_, hrest.idle, fun fuel hfuel => ?_⟩
      · cases k with
        | zero => exact hchange
        | succ k => exact hrest.changes k (Nat.lt_of_succ_lt_succ hk)
      · obtain ⟨fuel, rfl⟩ := Nat.exists_eq_succ_of_ne_zero (Nat.ne_of_gt (Nat.zero_lt_of_lt hfuel))
        rw [run, if_pos hchange]
        exact hrest.run_eq fuel (Nat.lt_of_succ_lt_succ hfuel)
    · refine ⟨0, Nat.zero_le _, fun k hk => absurd hk (Nat.not_lt_zero k), hchange,
        fun fuel hfuel => ?_⟩
      obtain ⟨fuel, rfl⟩ := Nat.exists_eq_succ_of_ne_zero (Nat.ne_of_gt hfuel)
      rw [run, if_neg hchange]
      rfl

/-- There is one first step that changes nothing. -/
theorem first_unique {change : Nat → Prop} {m n : Nat} (hm : ∀ k < m, change k) (hm' : ¬ change m)
    (hn : ∀ k < n, change k) (hn' : ¬ change n) : m = n := by
  rcases Nat.lt_trichotomy m n with hlt | heq | hgt
  · exact absurd (hn m hlt) hm'
  · exact heq
  · exact absurd (hm n hgt) hn'

end Ifj22.Loop
