import Mathlib.Data.List.Induction

/-!
# Histories

A history is a list that grows at its end.  A property of an element may speak of the elements
before it; it holds of all of a history when it holds wherever the history is cut
(`ForAllCuts`).  A history that grows has to be looked at where it grows only
(`forAllCuts_concat`, `forAllCuts_append_of_forall`).
-/

namespace History

variable {α : Type*} {P Q : List α → α → Prop} {l more : List α} {a : α}

/-- Every element has the property, after the elements before it. -/
def ForAllCuts (P : List α → α → Prop) (l : List α) : Prop :=
  ∀ before a after, l = before ++ a :: after → P before a

theorem forAllCuts_nil : ForAllCuts P [] := by
  intro before a after h
  simp at h

/-- **One more element.** -/
theorem forAllCuts_concat : ForAllCuts P (l ++ [a]) ↔ ForAllCuts P l ∧ P l a := by
  constructor
  · intro h
    refine ⟨fun before b after heq => h before b (after ++ [a]) (by simp [heq]), ?_⟩
    exact h l a [] rfl
  · rintro ⟨h, ha⟩ before b after heq
    rcases List.eq_nil_or_concat after with rfl | ⟨after', last, rfl⟩
    · obtain ⟨rfl, hb⟩ := List.append_inj' heq rfl
      rw [← (List.cons.inj hb).1]
      exact ha
    · have heq' : l ++ [a] = (before ++ b :: after') ++ [last] := by
        rw [heq]
        simp
      exact h before b after' (List.append_inj' heq' rfl).1

/-- Elements that have the property wherever they stand. -/
theorem forAllCuts_append_of_forall (h : ∀ a ∈ more, ∀ before, P before a) :
    ForAllCuts P (l ++ more) ↔ ForAllCuts P l := by
  induction more using List.reverseRecOn with
  | nil => rw [List.append_nil]
  | append_singleton more a ih =>
    rw [← List.append_assoc, forAllCuts_concat, ih fun b hb => h b (List.mem_append_left _ hb)]
    exact and_iff_left (h a (by simp) _)

/-- The beginning of a history. -/
theorem ForAllCuts.of_append (h : ForAllCuts P (l ++ more)) : ForAllCuts P l := by
  intro before a after heq
  exact h before a (after ++ more) (by simp [heq])

/-- A weaker property. -/
theorem ForAllCuts.imp (h : ForAllCuts P l) (himp : ∀ before a, P before a → Q before a) :
    ForAllCuts Q l := fun before a after heq => himp before a (h before a after heq)

/-- The cuts of a history are the places in it. -/
theorem forAllCuts_iff : ForAllCuts P l ↔ ∀ n (h : n < l.length), P (l.take n) l[n] := by
  constructor
  · intro h n hn
    exact h (l.take n) l[n] (l.drop (n + 1)) (by simp)
  · intro h before a after heq
    subst heq
    have hcut := h before.length (by simp)
    simpa using hcut

instance [∀ before a, Decidable (P before a)] : Decidable (ForAllCuts P l) :=
  @decidable_of_iff _ _ forAllCuts_iff.symm
    (Nat.decidableBallLT l.length fun n h => P (l.take n) l[n])

end History
