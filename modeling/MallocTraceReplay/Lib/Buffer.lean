import Mathlib.Data.Nat.Notation

/-!
# Writes to a buffer

A range of a memory (`slice`) holds what was stored there last (`slice_store`,
`slice_store_of_le`).

A writer stores the elements of an encoding at a place, perhaps more of them than it moves ahead;
what it stores next overwrites the surplus.  When a decoder needs no more than the elements that
the writer moves over (`Decodes`), the values written one after another are read back from whatever
follows them (`decodeAll_encodeAll`).
-/

namespace Buffer

variable {α β : Type*}

/-- The elements stored at a place. -/
def store (mem : ℕ → β) (place : ℕ) (bs : List β) : ℕ → β := fun i =>
  if place ≤ i then (bs[i - place]?).getD (mem i) else mem i

theorem store_of_lt {mem : ℕ → β} {place i : ℕ} (h : i < place) (bs : List β) :
    store mem place bs i = mem i := if_neg (Nat.not_le_of_lt h)

theorem getElem?_store {mem : ℕ → β} {bs : List β} {i : ℕ} (h : i < bs.length) (place : ℕ) :
    bs[i]? = some (store mem place bs (place + i)) := by
  rw [store, if_pos (Nat.le_add_right ..), Nat.add_sub_cancel_left, List.getElem?_eq_getElem h]
  rfl

/-- The elements from a place on. -/
def slice (mem : ℕ → β) (place n : ℕ) : List β := (List.range n).map fun i => mem (place + i)

@[simp] theorem length_slice (mem : ℕ → β) (place n : ℕ) : (slice mem place n).length = n := by
  rw [slice, List.length_map, List.length_range]

/-- A range that is cut in two. -/
theorem slice_add (mem : ℕ → β) (place m n : ℕ) :
    slice mem place (m + n) = slice mem place m ++ slice mem (place + m) n := by
  rw [slice, slice, slice, List.range_add, List.map_append, List.map_map]
  congr 1
  apply List.map_congr_left
  intro i _
  show mem (place + (m + i)) = mem (place + m + i)
  rw [Nat.add_assoc]

/-- What was stored is there. -/
theorem slice_store (mem : ℕ → β) (place : ℕ) (bs : List β) :
    slice (store mem place bs) place bs.length = bs := by
  apply List.ext_getElem?
  intro i
  rw [slice, List.getElem?_map]
  by_cases hi : i < bs.length
  · rw [getElem?_store hi place, List.getElem?_range hi, Option.map_some]
  · rw [List.getElem?_eq_none (Nat.le_of_not_lt hi), List.getElem?_eq_none, Option.map_none]
    rw [List.length_range]
    exact Nat.le_of_not_lt hi

/-- What is before the place stays. -/
theorem slice_store_of_le {mem : ℕ → β} {place n place' : ℕ} (h : place + n ≤ place')
    (bs : List β) : slice (store mem place' bs) place n = slice mem place n := by
  apply List.map_congr_left
  intro i hi
  exact store_of_lt (Nat.lt_of_lt_of_le (Nat.add_lt_add_left (List.mem_range.mp hi) _) h) bs

/-- Memory with other elements from a place on. -/
def withTail (mem : ℕ → β) (place : ℕ) (tail : ℕ → β) : ℕ → β := fun i =>
  if i < place then mem i else tail i

/-- The values written one after another: the memory, and the place returned at the end. -/
def encodeAll (enc : α → List β × ℕ) (mem : ℕ → β) (place : ℕ) : List α → (ℕ → β) × ℕ
  | [] => (mem, place)
  | a :: as => encodeAll enc (store mem place (enc a).1) (place + (enc a).2) as

/-- As many values as asked for, read one after another, each with how far it moves. -/
def decodeAll (dec : (ℕ → β) → Option (α × ℕ)) (mem : ℕ → β) (place : ℕ) :
    ℕ → Option (List (α × ℕ) × ℕ)
  | 0 => some ([], place)
  | n + 1 => do
    let (a, advance) ← dec fun i => mem (place + i)
    let (as, place) ← decodeAll dec mem (place + advance) n
    return ((a, advance) :: as, place)

/-- The decoder finds a value by the elements that the encoder moves over. -/
structure Decodes (enc : α → List β × ℕ) (dec : (ℕ → β) → Option (α × ℕ)) : Prop where
  le_length : ∀ a, (enc a).2 ≤ (enc a).1.length
  decode : ∀ a (mem : ℕ → β), (∀ i < (enc a).2, (enc a).1[i]? = some (mem i)) →
    dec mem = some (a, (enc a).2)

section

variable {enc : α → List β × ℕ} {dec : (ℕ → β) → Option (α × ℕ)}

theorem le_encodeAll (enc : α → List β × ℕ) (mem : ℕ → β) (place : ℕ) (as : List α) :
    place ≤ (encodeAll enc mem place as).2 := by
  induction as generalizing mem place with
  | nil => exact Nat.le_refl _
  | cons a as ih => exact Nat.le_trans (Nat.le_add_right ..) (ih ..)

/-- What is before the place stays. -/
theorem encodeAll_of_lt {mem : ℕ → β} {place i : ℕ} (h : i < place) (as : List α) :
    (encodeAll enc mem place as).1 i = mem i := by
  induction as generalizing mem place with
  | nil => rfl
  | cons a as ih =>
    rw [encodeAll, ih (Nat.lt_add_right _ h)]
    exact store_of_lt h _

/-- **The round trip**, from any memory that has the elements the writer moved over. -/
theorem decodeAll_of_agrees (h : Decodes enc dec) {mem mem' : ℕ → β} {place : ℕ} {as : List α}
    (hmem : ∀ i, i < (encodeAll enc mem place as).2 → mem' i = (encodeAll enc mem place as).1 i) :
    decodeAll dec mem' place as.length =
      some (as.map fun a => (a, (enc a).2), (encodeAll enc mem place as).2) := by
  induction as generalizing mem place with
  | nil => rfl
  | cons a as ih =>
    have hdec : dec (fun i => mem' (place + i)) = some (a, (enc a).2) := by
      refine h.decode a _ fun i hi => ?_
      have hend := le_encodeAll enc (store mem place (enc a).1) (place + (enc a).2) as
      have hlt : place + i < place + (enc a).2 := Nat.add_lt_add_left hi _
      rw [hmem _ (Nat.lt_of_lt_of_le hlt hend), encodeAll, encodeAll_of_lt hlt]
      exact getElem?_store (Nat.lt_of_lt_of_le hi (h.le_length a)) place
    rw [List.length_cons, decodeAll, hdec, Option.bind_eq_bind, Option.bind_some]
    dsimp only
    rw [ih hmem]
    rfl

/-- **The round trip**, whatever follows. -/
theorem decodeAll_encodeAll (h : Decodes enc dec) (mem tail : ℕ → β) (place : ℕ) (as : List α) :
    decodeAll dec
        (withTail (encodeAll enc mem place as).1 (encodeAll enc mem place as).2 tail) place
        as.length =
      some (as.map fun a => (a, (enc a).2), (encodeAll enc mem place as).2) :=
  decodeAll_of_agrees h fun _ hi => if_pos hi

end

end Buffer
