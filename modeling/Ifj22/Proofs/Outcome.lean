set_option autoImplicit false

/-!
# Outcome: what a step with a state and errors can end in

The parser, the checker and the generator are steps that yield a value or an error and the state
behind it either way.  `Meets m s E Q` says that the step `m`, taken from the state `s`, ends in an
error that satisfies `E` or in a value that satisfies `Q`.  The rules below take a step apart into
its parts.
-/

namespace Ifj22

variable {ε σ α β : Type} {m : EStateM ε σ α} {E : ε → σ → Prop} {Q Q' : α → σ → Prop} {s' : σ}
  {a : α}

/-- A step that reads the state goes on with it. -/
theorem get_bind (f : σ → EStateM ε σ α) (s : σ) : (get >>= f) s = f s s := rfl

theorem modify_apply (f : σ → σ) (s : σ) : (modify f : EStateM ε σ PUnit) s = .ok ⟨⟩ (f s) := rfl

/-- The step ends in an error and state with `E`, or in a value and state with `Q`.  With nothing
in `E` it says that the step succeeds. -/
def Meets (m : EStateM ε σ α) (s : σ) (E : ε → σ → Prop) (Q : α → σ → Prop) : Prop :=
  match m s with
  | .ok a s' => Q a s'
  | .error e s' => E e s'

namespace Meets

theorem mono {s : σ} {E' : ε → σ → Prop} (h : Meets m s E Q) (hE : ∀ e s', E e s' → E' e s')
    (hQ : ∀ a s', Q a s' → Q' a s') : Meets m s E' Q' := by
  unfold Meets at *
  split at h
  · exact hQ _ _ h
  · exact hE _ _ h

/-- Weakens what is said of the values only. -/
theorem imp {s : σ} (h : Meets m s E Q) (hQ : ∀ a s', Q a s' → Q' a s') : Meets m s E Q' :=
  h.mono (fun _ _ he => he) hQ

theorem of_ok {s : σ} (h : Meets m s E Q) (hrun : m s = .ok a s') : Q a s' := by
  unfold Meets at h
  rw [hrun] at h
  exact h

theorem of_error {s : σ} {e : ε} (h : Meets m s E Q) (hrun : m s = .error e s') : E e s' := by
  unfold Meets at h
  rw [hrun] at h
  exact h

/-- A step that ends in no error ends in a value. -/
theorem exists_ok {s : σ} (h : Meets m s (fun _ _ => False) Q) :
    ∃ a s', m s = .ok a s' ∧ Q a s' := by
  cases hrun : m s with
  | ok a s' => exact ⟨a, s', rfl, h.of_ok hrun⟩
  | error e s' => exact (h.of_error hrun).elim

theorem of_exists_ok {s : σ} (h : ∃ a s', m s = .ok a s' ∧ Q a s') :
    Meets m s (fun _ _ => False) Q := by
  obtain ⟨a, s', hrun, ha⟩ := h
  unfold Meets
  rw [hrun]
  exact ha

/-- A step meets what its outcomes satisfy. -/
theorem intro {s : σ} (hok : ∀ a s', m s = .ok a s' → Q a s')
    (herror : ∀ e s', m s = .error e s' → E e s') : Meets m s E Q := by
  unfold Meets
  split
  · exact hok _ _ ‹_›
  · exact herror _ _ ‹_›

end Meets

/-! ## Rules -/

@[simp] theorem meets_pure (a : α) (s : σ) (E : ε → σ → Prop) (Q : α → σ → Prop) :
    Meets (pure a : EStateM ε σ α) s E Q ↔ Q a s := Iff.rfl

@[simp] theorem meets_bind (m : EStateM ε σ α) (f : α → EStateM ε σ β) (s : σ)
    (E : ε → σ → Prop) (Q : β → σ → Prop) :
    Meets (m >>= f) s E Q ↔ Meets m s E fun a s' => Meets (f a) s' E Q := by
  unfold Meets
  simp only [bind, EStateM.bind]
  cases m s <;> rfl

@[simp] theorem meets_get (s : σ) (E : ε → σ → Prop) (Q : σ → σ → Prop) :
    Meets (get : EStateM ε σ σ) s E Q ↔ Q s s := Iff.rfl

@[simp] theorem meets_modify (f : σ → σ) (s : σ) (E : ε → σ → Prop) (Q : PUnit → σ → Prop) :
    Meets (modify f : EStateM ε σ PUnit) s E Q ↔ Q ⟨⟩ (f s) := Iff.rfl

@[simp] theorem meets_modifyGet (f : σ → α × σ) (s : σ) (E : ε → σ → Prop) (Q : α → σ → Prop) :
    Meets (modifyGet f : EStateM ε σ α) s E Q ↔ Q (f s).1 (f s).2 := Iff.rfl

/-- A step and the next one succeed if each does. -/
theorem bind_eq_ok {f : α → EStateM ε σ β} {s s'' : σ} {b : β} :
    (m >>= f) s = .ok b s'' ↔ ∃ a s', m s = .ok a s' ∧ f a s' = .ok b s'' := by
  show EStateM.bind m f s = _ ↔ _
  unfold EStateM.bind
  cases m s with
  | ok a s' =>
    refine ⟨fun h => ⟨a, s', rfl, h⟩, ?_⟩
    rintro ⟨_, _, ⟨⟩, h⟩
    exact h
  | error e s' => simp

theorem meets_ite {c : Prop} [Decidable c] {m' : EStateM ε σ α} {s : σ} (ht : c → Meets m s E Q)
    (hf : ¬ c → Meets m' s E Q) : Meets (if c then m else m') s E Q := by
  split
  · exact ht ‹_›
  · exact hf ‹_›

/-! ## Evaluation

What a computation on a fixed input ends in is decided by running it. -/

/-- Whether the outcome satisfies what it should. -/
def Meets.test (m : EStateM ε σ α) (s : σ) (E : ε → σ → Prop) (Q : α → σ → Prop)
    [∀ e s', Decidable (E e s')] [∀ a s', Decidable (Q a s')] : Bool :=
  match m s with
  | .ok a s' => decide (Q a s')
  | .error e s' => decide (E e s')

theorem Meets.test_iff {s : σ} [∀ e s', Decidable (E e s')] [∀ a s', Decidable (Q a s')] :
    Meets.test m s E Q = true ↔ Meets m s E Q := by
  unfold Meets.test Meets
  cases m s <;> exact decide_eq_true_iff

instance Meets.decidable (m : EStateM ε σ α) (s : σ) [∀ e s', Decidable (E e s')]
    [∀ a s', Decidable (Q a s')] : Decidable (Meets m s E Q) :=
  decidable_of_iff _ Meets.test_iff

instance decidableExistsResult (m : EStateM ε σ α) (s : σ) [∀ a s', Decidable (Q a s')] :
    Decidable (∃ a s', m s = .ok a s' ∧ Q a s') :=
  decidable_of_iff _ ⟨Meets.exists_ok, Meets.of_exists_ok⟩

section

variable {P : α → Prop} [DecidablePred P]

theorem any_some_iff (x : Option α) :
    x.any (fun a => decide (P a)) = true ↔ ∃ a, x = some a ∧ P a := by
  simp [Option.any_eq_true]

instance decidableExistsSome (x : Option α) : Decidable (∃ a, x = some a ∧ P a) :=
  decidable_of_iff _ (any_some_iff x)

theorem any_ok_iff (x : Except ε α) :
    x.toOption.any (fun a => decide (P a)) = true ↔ ∃ a, x = .ok a ∧ P a := by
  cases x <;> simp [Except.toOption]

instance decidableExistsOk (x : Except ε α) : Decidable (∃ a, x = .ok a ∧ P a) :=
  decidable_of_iff _ (any_ok_iff x)

end

/-- What a decidable test on the option shows of the computation itself. -/
theorem eq_ok_of_toOption {x : Except ε α} (h : x.toOption = some a) : x = .ok a := by
  cases x with
  | error e => cases h
  | ok b => exact congrArg Except.ok (Option.some.inj h)

end Ifj22
