import MallocTraceReplay.Lib.StepMachine

/-!
# Computations that agree unless one stops

`AgreesUnless Stops f x y`: the computation `x` stops in one of the ways `Stops`, or `y` comes to
the same error or to the image under `f` of what `x` comes to.  So a program that is run under
observation is compared with the program itself, part by part (`AgreesUnless.bind`) and step by step
(`iterate_agreesUnless`).
-/

namespace StepMachine

universe u v

variable {ε : Type*} {α α' σ : Type u} {β β' τ : Type v} {Stops : ε → Prop} {f : α → β}
  {x : Except ε α} {y : Except ε β}

/-- The first computation stops, or the second one agrees with it. -/
inductive AgreesUnless (Stops : ε → Prop) (f : α → β) : Except ε α → Except ε β → Prop
  | stops {e : ε} {y : Except ε β} : Stops e → AgreesUnless Stops f (.error e) y
  | error (e : ε) : AgreesUnless Stops f (.error e) (.error e)
  | ok (a : α) : AgreesUnless Stops f (.ok a) (.ok (f a))

/-- A sequence of two computations. -/
theorem AgreesUnless.bind {f' : α' → β'} {k : α → Except ε α'} {k' : β → Except ε β'}
    (h : AgreesUnless Stops f x y) (hk : ∀ a, AgreesUnless Stops f' (k a) (k' (f a))) :
    AgreesUnless Stops f' (x >>= k) (y >>= k') := by
  cases h with
  | stops h => exact .stops h
  | error e => exact .error e
  | ok a => exact hk a

theorem AgreesUnless.map {f' : α' → β'} {k : α → α'} {k' : β → β'}
    (h : AgreesUnless Stops f x y) (hk : ∀ a, k' (f a) = f' (k a)) :
    AgreesUnless Stops f' (k <$> x) (k' <$> y) := by
  cases h with
  | stops h => exact .stops h
  | error e => exact .error e
  | ok a =>
    have hok : AgreesUnless Stops f' (.ok (k a)) (.ok (f' (k a))) := .ok (k a)
    rw [← hk a] at hok
    exact hok

/-- What the first computation comes to, if it does not stop. -/
theorem AgreesUnless.eq_map (h : AgreesUnless Stops f x y)
    (hstops : ∀ e, x = .error e → ¬ Stops e) : y = x.map f := by
  cases h with
  | stops h => exact absurd h (hstops _ rfl)
  | error e => rfl
  | ok a => rfl

/-- **Runs** of two machines whose steps agree. -/
theorem iterate_agreesUnless {step : σ → Except ε σ} {step' : τ → Except ε τ} {f : σ → τ}
    (hstep : ∀ s, AgreesUnless Stops f (step s) (step' (f s))) (n : ℕ) (s : σ) :
    AgreesUnless Stops f (iterate step n s) (iterate step' n (f s)) := by
  induction n generalizing s with
  | zero => exact .ok s
  | succ n ih => exact (hstep s).bind ih

end StepMachine
