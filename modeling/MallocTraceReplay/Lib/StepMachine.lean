import Mathlib.Order.WellFounded
import Mathlib.Data.Nat.Notation

/-!
# Machines that step or abort

A program whose loops are cut into iterations is a function `step : σ → Except ε σ`: one
iteration gives the next state, or aborts with an error.  `iterate step n` is a run of `n`
iterations.  The rules here are the ones a verification needs of such runs: what one step
preserves a run preserves (`iterate_invariant`), and a run whose steps decrease a measure reaches a
final state (`iterate_reaches`).
-/

namespace StepMachine

universe u

variable {ε : Type*} {σ τ α β : Type u}

/-! ### Aborting computations -/

/-- A sequence of two computations succeeds iff both do. -/
theorem bind_eq_ok {x : Except ε α} {f : α → Except ε β} {b : β} :
    (x >>= f) = .ok b ↔ ∃ a, x = .ok a ∧ f a = .ok b := by
  cases x with
  | error e => simp [bind, Except.bind]
  | ok a => simp [bind, Except.bind]

/-- A sequence of two computations aborts in the first or in the second. -/
theorem bind_eq_error {x : Except ε α} {f : α → Except ε β} {e : ε} :
    (x >>= f) = .error e ↔ x = .error e ∨ ∃ a, x = .ok a ∧ f a = .error e := by
  cases x with
  | error e' => simp [bind, Except.bind]
  | ok a => simp [bind, Except.bind]

/-- An image of a result is the image of a successful result. -/
theorem map_eq_ok {x : Except ε α} {f : α → β} {b : β} :
    x.map f = .ok b ↔ ∃ a, x = .ok a ∧ f a = b := by
  cases x with
  | error e => simp [Except.map]
  | ok a => simp [Except.map]

/-- An image aborts where its preimage does. -/
theorem map_eq_error {x : Except ε α} {f : α → β} {e : ε} :
    x.map f = .error e ↔ x = .error e := by
  cases x with
  | error e' => simp [Except.map]
  | ok a => simp [Except.map]

@[simp] theorem ok_bind (a : α) (f : α → Except ε β) : (Except.ok a >>= f) = f a := rfl

@[simp] theorem pure_bind' (a : α) (f : α → Except ε β) :
    ((pure a : Except ε α) >>= f) = f a := rfl

@[simp] theorem error_bind (e : ε) (f : α → Except ε β) :
    (Except.error e >>= f) = .error e := rfl

@[simp] theorem throw_bind (e : ε) (f : α → Except ε β) :
    ((throw e : Except ε α) >>= f) = .error e := rfl

@[simp] theorem pure_eq_ok (a : α) : (pure a : Except ε α) = .ok a := rfl

@[simp] theorem throw_eq_error (e : ε) : (throw e : Except ε α) = .error e := rfl

/-! ### Runs -/

/-- `n` steps from a state, stopping at the first abort. -/
def iterate (step : σ → Except ε σ) : ℕ → σ → Except ε σ
  | 0, s => .ok s
  | n + 1, s => step s >>= iterate step n

variable {step : σ → Except ε σ}

@[simp] theorem iterate_zero (s : σ) : iterate step 0 s = .ok s := rfl

theorem iterate_succ (n : ℕ) (s : σ) : iterate step (n + 1) s = step s >>= iterate step n := rfl

/-- A run of `m + n` steps is a run of `m` steps followed by one of `n`. -/
theorem iterate_add (m n : ℕ) (s : σ) :
    iterate step (m + n) s = iterate step m s >>= iterate step n := by
  induction m generalizing s with
  | zero => simp
  | succ m ih =>
    rw [Nat.succ_add, iterate_succ, iterate_succ]
    cases step s with
    | error e => rfl
    | ok s' => exact ih s'

/-- The last step of a run taken apart. -/
theorem iterate_succ' (n : ℕ) (s : σ) : iterate step (n + 1) s = iterate step n s >>= step := by
  rw [iterate_add]
  congr 1
  funext s'
  rw [iterate_succ]
  cases step s' <;> rfl

/-- The shorter run of a successful run is successful. -/
theorem iterate_le {m n : ℕ} {s s' : σ} (hmn : m ≤ n) (h : iterate step n s = .ok s') :
    ∃ t, iterate step m s = .ok t ∧ iterate step (n - m) t = .ok s' := by
  obtain ⟨k, rfl⟩ := Nat.exists_eq_add_of_le hmn
  rw [iterate_add, bind_eq_ok] at h
  rwa [Nat.add_sub_cancel_left]

/-- **The invariant rule**: what holds at the start and is preserved by every successful step
holds at the end of every successful run. -/
theorem iterate_invariant {P : σ → Prop} (hstep : ∀ s s', P s → step s = .ok s' → P s')
    {n : ℕ} {s s' : σ} (hs : P s) (h : iterate step n s = .ok s') : P s' := by
  induction n generalizing s with
  | zero => obtain rfl := Except.ok.inj h; exact hs
  | succ n ih =>
    obtain ⟨t, ht, hrest⟩ := bind_eq_ok.mp h
    exact ih (hstep s t hs ht) hrest

/-- A state whose step is itself is the end of every longer run. -/
theorem iterate_fixed {s : σ} (h : step s = .ok s) (n : ℕ) : iterate step n s = .ok s := by
  induction n with
  | zero => rfl
  | succ n ih => rw [iterate_succ, h, ok_bind, ih]

/-- **Termination**: if every reached state that is not final steps to one with a smaller
measure, then a final state is reached. -/
theorem iterate_reaches {μ : Type*} {r : μ → μ → Prop} (hwf : WellFounded r) (measure : σ → μ)
    {final : σ → Prop} {s : σ}
    (hstep : ∀ n t, iterate step n s = .ok t → ¬ final t →
      ∃ t', step t = .ok t' ∧ r (measure t') (measure t)) :
    ∃ n t, iterate step n s = .ok t ∧ final t := by
  suffices h : ∀ m n t, iterate step n s = .ok t → measure t = m →
      ∃ n t, iterate step n s = .ok t ∧ final t from h _ 0 s rfl rfl
  intro m
  induction m using hwf.induction with
  | _ m ih =>
    intro n t ht hm
    by_cases hfin : final t
    · exact ⟨n, t, ht, hfin⟩
    · obtain ⟨t', ht', hlt⟩ := hstep n t ht hfin
      exact ih (measure t') (hm ▸ hlt) (n + 1) t' (by rw [iterate_succ', ht, ok_bind, ht']) rfl

/-- **Termination with aborts**: if every state with the invariant that is not final aborts for a
good reason or steps to one with the invariant and a smaller measure, then a run from it reaches a
final state or aborts for a good reason. -/
theorem iterate_reaches_or_aborts {μ : Type*} {r : μ → μ → Prop} (hwf : WellFounded r)
    (measure : σ → μ) {invariant final : σ → Prop} {good : ε → Prop}
    (hstep : ∀ t, invariant t → ¬ final t →
      (∃ e, step t = .error e ∧ good e) ∨
        ∃ t', step t = .ok t' ∧ invariant t' ∧ r (measure t') (measure t))
    {s : σ} (hs : invariant s) :
    ∃ n, (∃ t, iterate step n s = .ok t ∧ final t) ∨
      ∃ e, iterate step n s = .error e ∧ good e := by
  suffices h : ∀ m s, invariant s → measure s = m →
      ∃ n, (∃ t, iterate step n s = .ok t ∧ final t) ∨
        ∃ e, iterate step n s = .error e ∧ good e from h _ s hs rfl
  intro m
  induction m using hwf.induction with
  | _ m ih =>
    intro s hs hm
    by_cases hfin : final s
    · exact ⟨0, Or.inl ⟨s, rfl, hfin⟩⟩
    · obtain ⟨e, he, hgood⟩ | ⟨s', hs', hinv, hlt⟩ := hstep s hs hfin
      · exact ⟨1, Or.inr ⟨e, by rw [iterate_succ, he, error_bind], hgood⟩⟩
      · obtain ⟨n, hn⟩ := ih (measure s') (hm ▸ hlt) s' hinv rfl
        refine ⟨n + 1, ?_⟩
        rw [iterate_succ, hs', ok_bind]
        exact hn

end StepMachine
