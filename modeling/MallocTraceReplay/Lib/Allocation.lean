import MallocTraceReplay.Lib.History
import Mathlib.Data.List.Nodup
import Mathlib.Data.List.Perm.Basic

/-!
# Clients of an allocator

A client calls the functions of an allocator; a call is kept with the pointer that it returns.
`pieces` are the pointers that are allocated after some calls, as often as they are.  A client is
well behaved if it frees and reallocates only what is allocated (`WellBehaved`); then it may free
what is left, which leaves nothing allocated (`WellBehaved.freeAll`).
-/

namespace Allocation

open History

variable {P S : Type*}

/-- A call of an allocator, with the pointer that it returns. -/
inductive AllocatorCall (P S : Type*)
  | malloc (size : S) (result : P)
  | memalign (align size : S) (result : P)
  | realloc (old : P) (size : S) (result : P)
  | free (ptr : P)
  deriving DecidableEq, Repr

variable [DecidableEq P] {calls : List (AllocatorCall P S)} {call : AllocatorCall P S}

namespace AllocatorCall

/-- What is allocated after a call. -/
def apply (pieces : List P) : AllocatorCall P S → List P
  | malloc _ result => result :: pieces
  | memalign _ _ result => result :: pieces
  | realloc old _ result => result :: pieces.erase old
  | free ptr => pieces.erase ptr

/-- What is freed or reallocated is allocated. -/
def Allowed (pieces : List P) : AllocatorCall P S → Prop
  | malloc _ _ | memalign _ _ _ => True
  | realloc old _ _ => old ∈ pieces
  | free ptr => ptr ∈ pieces

end AllocatorCall

open AllocatorCall

/-- What is allocated after some calls. -/
def pieces (calls : List (AllocatorCall P S)) : List P := calls.foldl apply []

theorem pieces_concat (calls : List (AllocatorCall P S)) (call : AllocatorCall P S) :
    pieces (calls ++ [call]) = call.apply (pieces calls) := by
  simp [pieces]

/-- Every call is allowed where it is made. -/
def WellBehaved (calls : List (AllocatorCall P S)) : Prop :=
  ForAllCuts (fun before call => call.Allowed (pieces before)) calls

theorem wellBehaved_concat :
    WellBehaved (calls ++ [call]) ↔ WellBehaved calls ∧ call.Allowed (pieces calls) :=
  forAllCuts_concat

/-- **Freeing what is left** is allowed, and leaves nothing allocated. -/
theorem WellBehaved.freeAll (h : WellBehaved calls) {done rest : List P}
    (hleft : (pieces calls).Perm (done ++ rest)) :
    WellBehaved (calls ++ done.map (AllocatorCall.free (S := S))) ∧
      (pieces (calls ++ done.map (AllocatorCall.free (S := S)))).Perm rest := by
  induction done using List.reverseRecOn generalizing rest with
  | nil => exact ⟨by rwa [List.map_nil, List.append_nil], by rwa [List.map_nil, List.append_nil]⟩
  | append_singleton done ptr ih =>
    rw [List.append_assoc] at hleft
    obtain ⟨hbehaved, hpieces⟩ := ih hleft
    rw [List.map_append, ← List.append_assoc, List.map_singleton, wellBehaved_concat,
      pieces_concat]
    refine ⟨⟨hbehaved, hpieces.mem_iff.mpr (by simp)⟩, ?_⟩
    have herase := hpieces.erase ptr
    rwa [List.singleton_append, List.erase_cons_head] at herase

end Allocation
