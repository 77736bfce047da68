import MallocTraceReplay.Lib.StepMachine

/-!
# Computations that match

`Matches R x y`: the computations `x` and `y` come to the same error, or to results that are in the
relation `R`.  Two programs are compared part by part (`Matches.bind`), and two machines step by
step, as long as the first one stays where a step of it can be matched (`iterate_matches`).
-/

namespace StepMachine

universe u v

variable {ε : Type*} {α α' σ : Type u} {β β' τ : Type v} {R : α → β → Prop} {x : Except ε α}
  {y : Except ε β}

/-- The same error, or results in a relation. -/
inductive Matches (R : α → β → Prop) : Except ε α → Except ε β → Prop
  | error (e : ε) : Matches R (.error e) (.error e)
  | ok {a : α} {b : β} : R a b → Matches R (.ok a) (.ok b)

/-- A sequence of two computations, the second of which may use that the first one has come to its
result. -/
theorem Matches.bind_of_ok {S : α' → β' → Prop} {k : α → Except ε α'} {k' : β → Except ε β'}
    (h : Matches R x y)
    (hk : ∀ a b, x = .ok a → y = .ok b → R a b → Matches S (k a) (k' b)) :
    Matches S (x >>= k) (y >>= k') := by
  cases h with
  | error e => exact .error e
  | ok h => exact hk _ _ rfl rfl h

/-- A sequence of two computations. -/
theorem Matches.bind {S : α' → β' → Prop} {k : α → Except ε α'} {k' : β → Except ε β'}
    (h : Matches R x y) (hk : ∀ a b, R a b → Matches S (k a) (k' b)) :
    Matches S (x >>= k) (y >>= k') :=
  h.bind_of_ok fun a b _ _ hR => hk a b hR

/-- The results are in another relation as well. -/
theorem Matches.imp {S : α → β → Prop} (h : Matches R x y)
    (himp : ∀ a b, x = .ok a → R a b → S a b) : Matches S x y := by
  cases h with
  | error e => exact .error e
  | ok h => exact .ok (himp _ _ rfl h)

/-- A result of the second computation is matched. -/
theorem Matches.exists_ok {b : β} (h : Matches R x (.ok b)) : ∃ a, x = .ok a ∧ R a b := by
  cases h with
  | ok h => exact ⟨_, rfl, h⟩

/-- So is a result of the first one. -/
theorem Matches.exists_ok_right {a : α} (h : Matches R (.ok a) y) : ∃ b, y = .ok b ∧ R a b := by
  cases h with
  | ok h => exact ⟨_, rfl, h⟩

/-- An error is matched by itself. -/
theorem Matches.eq_error {e : ε} (h : Matches R x (.error e)) : x = .error e := by
  cases h with
  | error => rfl

/-- What can be seen of both results in the same way is equal. -/
theorem Matches.map_eq {γ : Type*} {f : α → γ} {g : β → γ} (h : Matches R x y)
    (hsees : ∀ a b, R a b → f a = g b) : x.map f = y.map g := by
  cases h with
  | error e => rfl
  | ok h => exact congrArg Except.ok (hsees _ _ h)

/-- **Runs** of two machines whose steps match wherever the first machine gets. -/
theorem iterate_matches {Meets : σ → Prop} {step : σ → Except ε σ} {step' : τ → Except ε τ}
    {R : σ → τ → Prop} (hstep : ∀ s t, R s t → Meets s → Matches R (step s) (step' t)) {n : ℕ}
    {s : σ} {t : τ} (h : R s t)
    (hmeets : ∀ k < n, ∀ s', iterate step k s = .ok s' → Meets s') :
    Matches R (iterate step n s) (iterate step' n t) := by
  induction n with
  | zero => exact .ok h
  | succ n ih =>
    rw [iterate_succ', iterate_succ']
    exact (ih fun k hk => hmeets k (Nat.lt_succ_of_lt hk)).bind_of_ok fun s' t' hs' _ hR =>
      hstep s' t' hR (hmeets n (Nat.lt_succ_self n) s' hs')

end StepMachine
