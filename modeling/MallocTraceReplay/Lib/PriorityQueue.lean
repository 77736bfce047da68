import Mathlib.Data.List.Sort
import Mathlib.Data.List.Perm.Basic

/-!
# Priority queues laid out as a list

The documented behaviour of a binary-heap priority queue over entries whose keys are looked up
from outside (`key : α → κ`), the smallest key at the front: a push adds the entry, a pop removes
the entry at the front whatever its key has become, and both keep the heap order.  Which of
several entries with the same key comes first is left open: a development that is parametric in
`PriorityQueue` holds for every implementation.
-/

/-- Heap order of the layout: no entry has a smaller key than its parent. -/
def HeapOrdered {α κ : Type*} [LE κ] (key : α → κ) (l : List α) : Prop :=
  ∀ (j : ℕ) (h : j < l.length), 0 < j → key (l.get ⟨(j - 1) / 2, by omega⟩) ≤ key l[j]

/-- Heap order among the entries other than the front one, whose key may have changed. -/
def HeapOrderedBelow {α κ : Type*} [LE κ] (key : α → κ) (l : List α) : Prop :=
  ∀ (j : ℕ) (h : j < l.length), 2 < j → key (l.get ⟨(j - 1) / 2, by omega⟩) ≤ key l[j]

/-! ### Heap order -/

section HeapOrder

variable {α κ : Type*} {key key' : α → κ} {a : α} {l : List α}

/-- Heap order depends on the keys of the entries only. -/
theorem HeapOrdered.congr [LE κ] (h : HeapOrdered key l) (hkeys : ∀ b ∈ l, key' b = key b) :
    HeapOrdered key' l := by
  intro j hj hpos
  rw [hkeys _ (List.get_mem ..), hkeys _ (List.getElem_mem hj)]
  exact h j hj hpos

/-- A new key of the front entry leaves the order below it alone. -/
theorem HeapOrdered.below [LE κ] (h : HeapOrdered key (a :: l))
    (hkeys : ∀ b ∈ l, key' b = key b) : HeapOrderedBelow key' (a :: l) := by
  intro j hj hpos
  obtain ⟨i, rfl⟩ : ∃ i, j = i + 1 := ⟨j - 1, by omega⟩
  obtain ⟨p, hp⟩ : ∃ p, (i + 1 - 1) / 2 = p + 1 := ⟨(i + 1 - 1) / 2 - 1, by omega⟩
  have hparent := h (i + 1) hj (by omega)
  simp only [hp, List.get_eq_getElem, List.getElem_cons_succ] at hparent ⊢
  rw [hkeys _ (List.getElem_mem _), hkeys _ (List.getElem_mem _)]
  exact hparent

/-- **The front entry has the smallest key.** -/
theorem HeapOrdered.front_le [Preorder κ] (h : HeapOrdered key (a :: l)) {b : α}
    (hb : b ∈ a :: l) : key a ≤ key b := by
  obtain ⟨j, hj, rfl⟩ := List.mem_iff_getElem.mp hb
  clear hb
  -- up the path from the entry to the front
  induction j using Nat.strong_induction_on with
  | _ j ih =>
    by_cases hpos : 0 < j
    · have hlt : (j - 1) / 2 < (a :: l).length := by omega
      exact (ih ((j - 1) / 2) (by omega) hlt).trans (h j hj hpos)
    · obtain rfl : j = 0 := by omega
      exact le_refl _

end HeapOrder

/-- A priority queue, smallest key first. -/
structure PriorityQueue (α κ : Type*) [LinearOrder κ] where
  /-- Adds an entry. -/
  push : (α → κ) → List α → α → List α
  /-- Removes the front entry. -/
  pop : (α → κ) → List α → List α
  push_perm : ∀ key l a, (push key l a).Perm (a :: l)
  pop_perm : ∀ key a l, (pop key (a :: l)).Perm l
  push_ordered : ∀ key l a, HeapOrdered key l → HeapOrdered key (push key l a)
  pop_ordered : ∀ key a l, HeapOrderedBelow key (a :: l) → HeapOrdered key (pop key (a :: l))

namespace PriorityQueue

variable {α κ : Type*} [LinearOrder κ]

/-! ### The queue laws for membership -/

variable (q : PriorityQueue α κ)

theorem mem_push {key : α → κ} {l : List α} {a b : α} : b ∈ q.push key l a ↔ b = a ∨ b ∈ l := by
  rw [(q.push_perm key l a).mem_iff, List.mem_cons]

theorem mem_pop {key : α → κ} {l : List α} {a b : α} : b ∈ q.pop key (a :: l) ↔ b ∈ l :=
  (q.pop_perm key a l).mem_iff

theorem nodup_push {key : α → κ} {l : List α} {a : α} :
    (q.push key l a).Nodup ↔ a ∉ l ∧ l.Nodup := by
  rw [(q.push_perm key l a).nodup_iff, List.nodup_cons]

theorem nodup_pop {key : α → κ} {l : List α} {a : α} :
    (q.pop key (a :: l)).Nodup ↔ l.Nodup :=
  (q.pop_perm key a l).nodup_iff

theorem length_pop {key : α → κ} {l : List α} {a : α} :
    (q.pop key (a :: l)).length = l.length :=
  (q.pop_perm key a l).length_eq

end PriorityQueue

/-! ### A sorted queue -/

/-- A list sorted by key is heap ordered. -/
theorem heapOrdered_of_pairwise {α κ : Type*} [Preorder κ] {key : α → κ} {l : List α}
    (h : l.Pairwise (fun a b => key a ≤ key b)) : HeapOrdered key l := by
  intro j hj hpos
  exact List.pairwise_iff_getElem.mp h _ _ (by omega) hj (by omega)

/-- The queue that keeps its entries sorted, the earlier pushed first among equals. -/
def sortedQueue (α κ : Type*) [LinearOrder κ] : PriorityQueue α κ where
  push key l a := (l ++ [a]).insertionSort (fun a b => key a ≤ key b)
  pop key l := l.tail.insertionSort (fun a b => key a ≤ key b)
  push_perm key l a := (List.perm_insertionSort _ _).trans List.perm_append_comm
  pop_perm key a l := List.perm_insertionSort _ _
  push_ordered key l a _ := by
    have : Std.Total (fun a b : α => key a ≤ key b) := ⟨fun a b => le_total (key a) (key b)⟩
    have : IsTrans α (fun a b : α => key a ≤ key b) := ⟨fun a b c h h' => le_trans h h'⟩
    exact heapOrdered_of_pairwise (List.pairwise_insertionSort _ _)
  pop_ordered key a l _ := by
    have : Std.Total (fun a b : α => key a ≤ key b) := ⟨fun a b => le_total (key a) (key b)⟩
    have : IsTrans α (fun a b : α => key a ≤ key b) := ⟨fun a b c h h' => le_trans h h'⟩
    exact heapOrdered_of_pairwise (List.pairwise_insertionSort _ _)
