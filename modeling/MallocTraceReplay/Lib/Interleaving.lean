import Mathlib.Algebra.BigOperators.Group.Finset.Piecewise
import Mathlib.Data.List.Perm.Subperm
import Mathlib.Data.List.Count
import Mathlib.Logic.Function.Basic

/-!
# Interleavings

Sequences `seq i`, one for every source `i`, are interleaved in a list of elements tagged with
their source, from which `project i` gets the sequence of a source back.  When some beginning of
every sequence has been dealt with, in whatever order, either everything has, or there is a first
element of the interleaving that has not: it is the next one of its source, and all before it have
been dealt with (`exists_first_missing`).  No more elements can be dealt with than there are
(`length_le_of_project`).  Other sequences with the same images interleave in the same order
(`exists_interleaving`).
What is counted over the interleaving is the sum of what is counted by source
(`countP_eq_sum_project`), and what comes up once in it comes up at one place of one source
(`project_unique`).
-/

namespace Interleaving

variable {ι α : Type*} [DecidableEq ι]

/-- The elements of one source. -/
def project (i : ι) (l : List (ι × α)) : List α :=
  l.filterMap fun p => if p.1 = i then some p.2 else none

@[simp] theorem project_nil (i : ι) : project i ([] : List (ι × α)) = [] := rfl

@[simp] theorem project_cons_self (i : ι) (a : α) (l : List (ι × α)) :
    project i ((i, a) :: l) = a :: project i l := by
  simp [project]

theorem project_cons_of_ne {i j : ι} (h : j ≠ i) (a : α) (l : List (ι × α)) :
    project i ((j, a) :: l) = project i l := by
  simp [project, h]

theorem mem_project {i : ι} {a : α} {l : List (ι × α)} : a ∈ project i l ↔ (i, a) ∈ l := by
  unfold project
  rw [List.mem_filterMap]
  constructor
  · rintro ⟨⟨j, b⟩, hmem, h⟩
    split at h
    · next hj =>
      obtain rfl := Option.some.inj h
      obtain rfl : j = i := hj
      exact hmem
    · simp at h
  · intro h
    exact ⟨(i, a), h, if_pos rfl⟩

/-- **The first element that is missing**: where a beginning of every sequence has been dealt with,
everything has, or the next element of some source comes after elements that all have. -/
theorem exists_first_missing {l : List (ι × α)} {done : ι → List α}
    (h : ∀ i, done i <+: project i l) :
    (∀ i, done i = project i l) ∨ ∃ before i a after, l = before ++ (i, a) :: after ∧
      project i before = done i ∧ ∀ j, project j before <+: done j := by
  induction l generalizing done with
  | nil =>
    left
    intro i
    exact List.prefix_nil.mp (h i)
  | cons p l ih =>
    obtain ⟨i, a⟩ := p
    cases hdone : done i with
    | nil =>
      -- nothing of this source has been dealt with
      right
      exact ⟨[], i, a, l, rfl, hdone.symm, fun j => List.nil_prefix⟩
    | cons b rest =>
      have hi := h i
      rw [hdone, project_cons_self, List.cons_prefix_cons] at hi
      obtain ⟨rfl, hrest⟩ := hi
      have hless : ∀ j, Function.update done i rest j <+: project j l := by
        intro j
        by_cases hj : j = i
        · rw [hj, Function.update_self]
          exact hrest
        · rw [Function.update_of_ne hj]
          have := h j
          rwa [project_cons_of_ne (Ne.symm hj)] at this
      rcases ih hless with hall | ⟨before, j, c, after, rfl, hj, hbefore⟩
      · left
        intro j
        by_cases hj : j = i
        · rw [hj, hdone, project_cons_self, ← hall i, Function.update_self]
        · rw [project_cons_of_ne (Ne.symm hj), ← hall j, Function.update_of_ne hj]
      · right
        refine ⟨(i, b) :: before, j, c, after, rfl, ?_, fun k => ?_⟩
        · by_cases hji : j = i
          · rw [hji, project_cons_self, hdone, ← hji, hj, hji, Function.update_self]
          · rw [project_cons_of_ne (Ne.symm hji), hj, Function.update_of_ne hji]
        · have hk := hbefore k
          by_cases hki : k = i
          · rw [hki, Function.update_self] at hk
            rw [hki, project_cons_self, hdone, List.cons_prefix_cons]
            exact ⟨rfl, hk⟩
          · rw [Function.update_of_ne hki] at hk
            rw [project_cons_of_ne (Ne.symm hki)]
            exact hk

/-- **The same order**: sequences that have the same images under two functions interleave in the
same way. -/
theorem exists_interleaving {β γ : Type*} (f : α → γ) (g : β → γ) (l : List (ι × α))
    (seq : ι → List β) (h : ∀ i, (seq i).map g = (project i l).map f) :
    ∃ l' : List (ι × β), (∀ i, project i l' = seq i) ∧
      l'.map (fun p => (p.1, g p.2)) = l.map fun p => (p.1, f p.2) := by
  induction l generalizing seq with
  | nil =>
    refine ⟨[], fun i => ?_, rfl⟩
    exact (List.map_eq_nil_iff.mp (h i)).symm
  | cons p l ih =>
    obtain ⟨i, a⟩ := p
    have hi := h i
    rw [project_cons_self, List.map_cons, List.map_eq_cons_iff] at hi
    obtain ⟨b, rest, hseq, hb, hrest⟩ := hi
    have hless : ∀ j, (Function.update seq i rest j).map g = (project j l).map f := by
      intro j
      by_cases hj : j = i
      · rw [hj, Function.update_self]
        exact hrest
      · rw [Function.update_of_ne hj, h j, project_cons_of_ne (Ne.symm hj)]
    obtain ⟨l', hproject, hmap⟩ := ih _ hless
    refine ⟨(i, b) :: l', fun j => ?_, ?_⟩
    · by_cases hj : j = i
      · rw [hj, project_cons_self, hproject, Function.update_self, hseq]
      · rw [project_cons_of_ne (Ne.symm hj), hproject, Function.update_of_ne hj]
    · rw [List.map_cons, List.map_cons, hmap, hb]

/-- An element occurs in the sequence of its source as often as with its tag. -/
theorem count_project [DecidableEq α] (i : ι) (a : α) (l : List (ι × α)) :
    (project i l).count a = l.count (i, a) := by
  induction l with
  | nil => rfl
  | cons p l ih =>
    obtain ⟨j, b⟩ := p
    by_cases hj : j = i
    · rw [hj, project_cons_self, List.count_cons, List.count_cons, ih]
      simp
    · rw [project_cons_of_ne hj, List.count_cons, ih]
      simp [hj]

/-- Interleavings of the same sequences have the same elements. -/
theorem perm_of_project [DecidableEq α] {l l' : List (ι × α)}
    (h : ∀ i, project i l = project i l') : l.Perm l' := by
  rw [List.perm_iff_count]
  rintro ⟨i, a⟩
  rw [← count_project, ← count_project, h]

/-- **No more elements than there are**: tagged elements whose sequences are beginnings of those of
an interleaving are not more than it has. -/
theorem length_le_of_project [DecidableEq α] {l l' : List (ι × α)}
    (h : ∀ i, project i l <+: project i l') : l.length ≤ l'.length := by
  have hsub : l.Subperm l' := by
    rw [List.subperm_ext_iff]
    rintro ⟨i, a⟩ -
    rw [← count_project, ← count_project]
    exact (h i).sublist.count_le a
  exact hsub.length_le

/-- What is counted of an interleaving, source by source. -/
theorem countP_eq_sum_project (p : α → Bool) {l : List (ι × α)} {ids : Finset ι}
    (h : ∀ x ∈ l, x.1 ∈ ids) :
    l.countP (fun x => p x.2) = ∑ i ∈ ids, (project i l).countP p := by
  induction l with
  | nil => exact (Finset.sum_eq_zero fun _ _ => rfl).symm
  | cons x l ih =>
    obtain ⟨j, a⟩ := x
    have hj : j ∈ ids := h (j, a) (List.mem_cons_self ..)
    have hsum : ∀ i ∈ ids, (project i ((j, a) :: l)).countP p =
        (project i l).countP p + if j = i then (if p a then 1 else 0) else 0 := by
      intro i _
      by_cases hi : j = i
      · subst hi
        rw [project_cons_self, List.countP_cons, if_pos rfl]
      · rw [project_cons_of_ne hi, if_neg hi, Nat.add_zero]
    rw [List.countP_cons, ih fun x hx => h x (List.mem_cons_of_mem _ hx),
      Finset.sum_congr rfl hsum, Finset.sum_add_distrib, Finset.sum_ite_eq, if_pos hj]

/-- The elements of a source, one of the interleaving being first. -/
theorem getElem?_project_cons {i j : ι} {a b : α} {l : List (ι × α)} {k : ℕ}
    (h : (project i ((j, b) :: l))[k]? = some a) :
    (j = i ∧ k = 0 ∧ b = a) ∨
      ∃ k₀, (project i l)[k₀]? = some a ∧ k = k₀ + if j = i then 1 else 0 := by
  by_cases hj : j = i
  · subst hj
    rw [project_cons_self] at h
    cases k with
    | zero => exact Or.inl ⟨rfl, rfl, Option.some.inj h⟩
    | succ k => exact Or.inr ⟨k, h, by rw [if_pos rfl]⟩
  · rw [project_cons_of_ne hj] at h
    exact Or.inr ⟨k, h, by rw [if_neg hj, Nat.add_zero]⟩

/-- **One place**: where no key comes up twice in an interleaving, it comes up at one place of one
source. -/
theorem project_unique {κ : Type*} {f : α → Option κ} {l : List (ι × α)}
    (h : (l.filterMap fun p => f p.2).Nodup) {i i' : ι} {k k' : ℕ} {a a' : α} {key : κ}
    (ha : (project i l)[k]? = some a) (ha' : (project i' l)[k']? = some a')
    (hf : f a = some key) (hf' : f a' = some key) : i = i' ∧ k = k' := by
  induction l generalizing k k' with
  | nil => simp at ha
  | cons p l ih =>
    obtain ⟨j, b⟩ := p
    have hlater : (l.filterMap fun p => f p.2).Nodup :=
      h.sublist ((List.sublist_cons_self ..).filterMap _)
    -- the first element does not come up again
    have hfirst : ∀ {i : ι} {k : ℕ} {a : α}, (project i l)[k]? = some a → f a = some key →
        f b ≠ some key := by
      intro i k a ha hfa hfb
      have hmem := mem_project.mp (List.mem_of_getElem? ha)
      have hcons : ((j, b) :: l).filterMap (fun p => f p.2) =
          key :: l.filterMap fun p => f p.2 := List.filterMap_cons_some hfb
      rw [hcons] at h
      exact (List.nodup_cons.mp h).1 (List.mem_filterMap.mpr ⟨_, hmem, hfa⟩)
    rcases getElem?_project_cons ha with ⟨rfl, rfl, rfl⟩ | ⟨k₀, hk₀, rfl⟩
    · rcases getElem?_project_cons ha' with ⟨rfl, rfl, -⟩ | ⟨k₀', hk₀', -⟩
      · exact ⟨rfl, rfl⟩
      · exact absurd hf (hfirst hk₀' hf')
    · rcases getElem?_project_cons ha' with ⟨-, -, rfl⟩ | ⟨k₀', hk₀', rfl⟩
      · exact absurd hf' (hfirst hk₀ hf)
      · obtain ⟨rfl, rfl⟩ := ih hlater hk₀ hk₀'
        exact ⟨rfl, rfl⟩

end Interleaving
