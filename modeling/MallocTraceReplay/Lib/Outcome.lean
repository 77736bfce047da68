import MallocTraceReplay.Lib.StepMachine

/-!
# What a computation comes to

`Outcome Fails Post x`: the computation `x` fails in one of the ways `Fails`, or its result meets
`Post`.  The rules follow the computation: one for a sequence of two (`Outcome.bind`), one for a
weaker postcondition (`Outcome.imp`), and one for the runs of a machine (`iterate_outcome`).
-/

namespace StepMachine

universe u

variable {ε : Type*} {σ α β : Type u} {Fails : ε → Prop} {Post Post' : α → Prop}
  {x : Except ε α}

/-- A failure in `Fails`, or a result in `Post`. -/
inductive Outcome (Fails : ε → Prop) (Post : α → Prop) : Except ε α → Prop
  | error {e : ε} : Fails e → Outcome Fails Post (.error e)
  | ok {a : α} : Post a → Outcome Fails Post (.ok a)

theorem Outcome.of_ok (h : Outcome Fails Post x) {a : α} (heq : x = .ok a) : Post a := by
  subst heq
  cases h with
  | ok h => exact h

theorem Outcome.of_error (h : Outcome Fails Post x) {e : ε} (heq : x = .error e) : Fails e := by
  subst heq
  cases h with
  | error h => exact h

/-- The result may be looked at for a weaker postcondition. -/
theorem Outcome.imp (h : Outcome Fails Post x) (hpost : ∀ a, x = .ok a → Post a → Post' a) :
    Outcome Fails Post' x := by
  cases h with
  | error h => exact .error h
  | ok h => exact .ok (hpost _ rfl h)

/-- A sequence of two computations. -/
theorem Outcome.bind {f : α → Except ε β} {Post' : β → Prop} (h : Outcome Fails Post x)
    (hf : ∀ a, Post a → Outcome Fails Post' (f a)) : Outcome Fails Post' (x >>= f) := by
  cases h with
  | error h => exact .error h
  | ok h => exact hf _ h

/-- A sequence of two computations, where the second needs to know what the first one came to. -/
theorem Outcome.bind_of_ok {f : α → Except ε β} {Post' : β → Prop} (h : Outcome Fails Post x)
    (hf : ∀ a, x = .ok a → Post a → Outcome Fails Post' (f a)) :
    Outcome Fails Post' (x >>= f) := by
  cases h with
  | error h => exact .error h
  | ok h => exact hf _ rfl h

theorem Outcome.map {f : α → β} {Post' : β → Prop} (h : Outcome Fails Post x)
    (hf : ∀ a, Post a → Post' (f a)) : Outcome Fails Post' (f <$> x) := by
  cases h with
  | error h => exact .error h
  | ok h => exact .ok (hf _ h)

/-- **Runs**: a machine whose steps keep an invariant or fail in one of the ways does so in any
number of steps. -/
theorem iterate_outcome {step : σ → Except ε σ} {I : σ → Prop} {s : σ} (hs : I s)
    (hstep : ∀ n t, iterate step n s = .ok t → I t → Outcome Fails I (step t)) (n : ℕ) :
    Outcome Fails I (iterate step n s) := by
  induction n with
  | zero => exact .ok hs
  | succ n ih =>
    rw [iterate_succ']
    cases hn : iterate step n s with
    | error e => exact .error (ih.of_error hn)
    | ok t => exact hstep n t hn (ih.of_ok hn)

end StepMachine
