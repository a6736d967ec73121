import Ifj22.Proofs.Links
import Ifj22.Proofs.Loop
import Ifj22.Proofs.Tree.Part
import Mathlib.Algebra.Order.BigOperators.Group.Finset
set_option autoImplicit false

/-!
# Simplify: the passes come to an end

Passes follow each other until one counts no change.  Each change takes from the work of the program,
so there are at most as many changes as the root reaches places, and one pass more than that at most.
`Program.simplify` runs under a bound that no program meets: it is where the passes end.
-/

namespace Ifj22

variable {p : Program} {body : List Stmt}

/-- A program of a text: as it was parsed, or as a checker left it, with success or without.  Such
a program is a tree in its arena.  One that was put together in another way may have shared
places, where a change shows in several statements at once. -/
inductive Program.OfText (source : String) : Program → Prop
  | parsed {p : Program} (h : parseSource source = .ok p) : OfText source p
  | checked {p : Program} {c c' : Checker} (h : parseSource source = .ok p)
      (hends : (c.withArena p.arena).Ends p.root c') : OfText source ⟨c'.arena, p.root⟩

theorem Program.OfText.holds {source : String} (h : p.OfText source) : ∃ body, p.Holds body := by
  cases h with
  | parsed h => exact holds_of_parseSource h
  | checked h hends =>
    obtain ⟨body, hbody⟩ := holds_of_parseSource h
    exact ListAt.retouched hends.retouched hbody

namespace Edit

open Arena

variable {root : Nat} {a : Arena}

/-- The arena that passes leave, that many of them. -/
def after (root : Nat) (k : Nat) (a : Arena) : Arena := Loop.after (pass root) k a

/-- The changes that a pass counts, with that many passes before it. -/
def changes (root : Nat) (k : Nat) (a : Arena) : Nat := Loop.report (pass root) k a

theorem after_succ (root k : Nat) (a : Arena) :
    after root (k + 1) a = ((pass root).run (after root k a)).2 :=
  Loop.after_succ k a

theorem passes_eq_run (root : Nat) : ∀ (fuel : Nat) (a : Arena),
    passes root fuel a = Loop.run (pass root) (· ≠ 0) fuel a := by
  intro fuel
  induction fuel with
  | zero => exact fun _ => rfl
  | succ fuel ih =>
    intro a
    rw [passes, Loop.run, ite_not]
    simp only [ih]
    rfl

/-- The arena holds a list of statements, as every arena does that a pass leaves. -/
def HoldsList (root : Nat) (a : Arena) : Prop := ∃ body, ListAt a body none 0 root

theorem HoldsList.next (h : HoldsList root a) : HoldsList root ((pass root).run a).2 := by
  obtain ⟨_, h⟩ := h
  obtain ⟨_, body', hbody', _⟩ := (counts_pass h).overwrites
  rw [StateT.run]
  exact ⟨body', hbody'⟩

/-- A pass makes the rewrites that it counts. -/
theorem HoldsList.rewrites (h : HoldsList root a) :
    Rewrites root ((pass root).run a).1 a ((pass root).run a).2 := by
  obtain ⟨_, h⟩ := h
  rw [StateT.run]
  exact (counts_pass h).overwrites.1.rewrites

theorem rewrites_pass (h : HoldsList root a) (k : Nat) :
    Rewrites root (changes root k a) (after root k a) (after root (k + 1) a) := by
  have hafter : HoldsList root (after root k a) :=
    Loop.invariant_after (fun _ => HoldsList.next) h k
  rw [after_succ]
  exact hafter.rewrites

theorem rewrites_after (h : HoldsList root a) (k : Nat) :
    Rewrites root (∑ i ∈ Finset.range k, changes root i a) a (after root k a) := by
  induction k with
  | zero => exact .refl a
  | succ k ih =>
    rw [Finset.sum_range_succ]
    exact ih.trans (rewrites_pass h k)

/-- A pass that counts a change leaves less work, so some pass counts none: the first one comes
behind at most as many passes as there is work. -/
theorem ends_passes (h : HoldsList root a) :
    ∃ n ≤ a.work root, Loop.Ends (pass root) (· ≠ 0) n a := by
  refine Loop.ends (· ≠ 0) (work · root) (fun _ => HoldsList.next) (fun a ha hchange => ?_) h
  have := ha.rewrites.work_le
  omega

end Edit

open Edit Arena

/-- Simplification ends with the first pass that counts no change: the bound of the loop is out of
reach. -/
theorem Program.Holds.simplify_ends (h : p.Holds body) :
    ∃ n ≤ p.arena.extent p.root, (∀ k < n, changes p.root k p.arena ≠ 0) ∧
      changes p.root n p.arena = 0 ∧ p.simplify.arena = after p.root (n + 1) p.arena := by
  obtain ⟨n, hn, hends⟩ := ends_passes ⟨body, h⟩
  have hwork := h.isTree.work_le_extent
  have hextent := h.isTree.extent_le
  have hroot : p.root + 1 ≤ p.arena.size := ListAt.lt_size h
  refine ⟨n, hn.trans hwork, hends.changes, not_not.mp hends.idle, ?_⟩
  refine (passes_eq_run p.root _ p.arena).trans (hends.run_eq _ ?_)
  calc n < p.arena.size + 1 := Nat.lt_succ_of_le (hn.trans (hwork.trans (hextent.trans hroot)))
    _ ≤ (p.arena.size + 1) * (p.arena.size + 1) := Nat.le_mul_self _

/-- Every pass over a program makes the rewrites that it counts, each of which leaves less work, and
changes nothing else.  There are at most as many rewrites as the program has nodes, and the loop
ends with the first pass that counts none: at the latest with the pass behind that many. -/
theorem simplify_ends_within_extent {source : String} {p : Program} (h : p.OfText source) :
    (∀ k, Rewrites p.root (changes p.root k p.arena) (after p.root k p.arena)
      (after p.root (k + 1) p.arena)) ∧
    (∀ k, ∑ i ∈ Finset.range k, changes p.root i p.arena ≤ p.arena.extent p.root) ∧
    ∃ n ≤ p.arena.extent p.root, (∀ k < n, changes p.root k p.arena ≠ 0) ∧
      changes p.root n p.arena = 0 ∧ p.simplify.arena = after p.root (n + 1) p.arena := by
  obtain ⟨body, hbody⟩ := h.holds
  refine ⟨rewrites_pass ⟨body, hbody⟩, fun k => ?_, hbody.simplify_ends⟩
  have hsum := (rewrites_after ⟨body, hbody⟩ k).work_le
  have hwork := hbody.isTree.work_le_extent
  omega

/-- The loop is dropped by the first pass, so only the second one can spread the constant. -/
theorem simplify_ends_within_extent_sample : ∃ p,
    parseSource "<?php $x = 2 * 3; while (1 > 2) { $x = $x - 1; }
      if ($x < 7) { write($x); } else { $y = $x; }" = .ok p ∧
    Rewrites p.root 3 p.arena (after p.root 1 p.arena) ∧
    Rewrites p.root 5 (after p.root 1 p.arena) (after p.root 2 p.arena) ∧
    8 ≤ p.arena.extent p.root ∧ p.simplify.arena = after p.root 3 p.arena := by
  obtain ⟨p, hp, h0, h1, h2⟩ : ∃ p,
      parseSource "<?php $x = 2 * 3; while (1 > 2) { $x = $x - 1; }
      if ($x < 7) { write($x); } else { $y = $x; }" = .ok p ∧
      changes p.root 0 p.arena = 3 ∧ changes p.root 1 p.arena = 5 ∧
      changes p.root 2 p.arena = 0 := by decide +kernel
  obtain ⟨hrewrites, hsum, n, _, hmore, hlast, hends⟩ := simplify_ends_within_extent (.parsed hp)
  have hn : n = 2 := by
    apply Loop.first_unique hmore (not_not.mpr hlast) ?_ (not_not.mpr h2)
    intro k hk
    rcases (by omega : k = 0 ∨ k = 1) with rfl | rfl <;> omega
  have hfirst := hrewrites 0
  have hsecond := hrewrites 1
  have htotal := hsum 2
  rw [h0] at hfirst
  rw [h1] at hsecond
  rw [Finset.sum_range_succ, Finset.sum_range_one, h0, h1] at htotal
  subst hn
  exact ⟨p, hp, hfirst, hsecond, htotal, hends⟩

end Ifj22
