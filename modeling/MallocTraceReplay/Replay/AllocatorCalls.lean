import MallocTraceReplay.Lib.Allocation
import MallocTraceReplay.Replay.Replay

/-!
# The calls of the allocator

What `replay_instruction` passes to `malloc`, `free`, `realloc` and `memalign`, and the pointers
that it gets.  An instruction makes its call before a check on the pointer or on the register that
is filled, and after the check on a register that is freed.
-/

namespace MallocTraceReplay.Replay.State

open Allocation

/-- The call of the allocator in `replay_instruction`, if it comes to it. -/
def allocatorCalls (a : Allocator) (s : State) (i : Instruction) :
    List (AllocatorCall UInt64 UInt64) :=
  match i.type with
  | .MALLOC => [.malloc i.mallocSize (a.pointer s.allocations)]
  | .FREE =>
    match s.liveRegister i.reg .trap with
    | .ok ptr => [.free ptr]
    | .error _ => []
  | .MEMALIGN => [.memalign i.mallocAlign i.mallocSize (a.pointer s.allocations)]
  | .REALLOC =>
    match s.liveRegister i.reg .registerAssertion with
    | .ok ptr => [.realloc ptr i.reallocNewSize (a.pointer s.allocations)]
    | .error _ => []
  | .FREE_SIZED =>
    match s.liveRegister i.reg .registerAssertion with
    | .ok ptr => [.free ptr]
    | .error _ => []
  | .KILL_THREAD | .SWITCH_THREAD | .SET_TS_CPU => []

/-- The instructions one after another: the calls made, and the state or the reason to stop. -/
def replayTraced (a : Allocator) (s : State) :
    List Instruction → List (AllocatorCall UInt64 UInt64) × Except Stop State
  | [] => ([], .ok s)
  | i :: is_ =>
    match s.replayInstruction a i with
    | .error stop => (s.allocatorCalls a i, .error stop)
    | .ok s' => (s.allocatorCalls a i ++ (replayTraced a s' is_).1, (replayTraced a s' is_).2)

variable {a : Allocator} {s : State}

/-- A register that is set is freed. -/
theorem allocatorCalls_free {i : Instruction} {ptr : UInt64}
    (htype : i.type = .FREE ∨ i.type = .FREE_SIZED)
    (h : ∀ stop, s.liveRegister i.reg stop = .ok ptr) : s.allocatorCalls a i = [.free ptr] := by
  rcases htype with htype | htype <;> simp only [allocatorCalls, htype, h]

/-- A register that is set is reallocated. -/
theorem allocatorCalls_realloc {i : Instruction} {ptr : UInt64} (htype : i.type = .REALLOC)
    (h : ∀ stop, s.liveRegister i.reg stop = .ok ptr) :
    s.allocatorCalls a i = [.realloc ptr i.reallocNewSize (a.pointer s.allocations)] := by
  simp only [allocatorCalls, htype, h]

/-- The calls are those of a replay. -/
theorem replayTraced_snd (a : Allocator) (s : State) (is_ : List Instruction) :
    (replayTraced a s is_).2 = replayAll a s is_ := by
  induction is_ generalizing s with
  | nil => rfl
  | cons i is_ ih =>
    rw [replayTraced, replayAll, List.foldlM_cons]
    cases hi : s.replayInstruction a i with
    | error stop => rfl
    | ok s' => exact ih s'

/-- What comes after instructions at which replay stops is not reached. -/
theorem replayTraced_append_of_error {is_ : List Instruction} {stop : Stop}
    (h : (replayTraced a s is_).2 = .error stop) (more : List Instruction) :
    replayTraced a s (is_ ++ more) = replayTraced a s is_ := by
  induction is_ generalizing s with
  | nil => simp [replayTraced] at h
  | cons i is_ ih =>
    rw [List.cons_append, replayTraced, replayTraced]
    rw [replayTraced] at h
    cases hi : s.replayInstruction a i with
    | error stop' => rfl
    | ok s' =>
      simp only [hi] at h
      simp only [ih h]

/-- More instructions. -/
theorem replayTraced_append_of_ok {is_ : List Instruction} {s' : State}
    (h : (replayTraced a s is_).2 = .ok s') (more : List Instruction) :
    replayTraced a s (is_ ++ more) =
      ((replayTraced a s is_).1 ++ (replayTraced a s' more).1, (replayTraced a s' more).2) := by
  induction is_ generalizing s with
  | nil =>
    obtain rfl := Except.ok.inj h
    rfl
  | cons i is_ ih =>
    rw [List.cons_append, replayTraced, replayTraced]
    rw [replayTraced] at h
    cases hi : s.replayInstruction a i with
    | error stop' => simp [hi] at h
    | ok s₁ =>
      simp only [hi] at h
      simp only [ih h, List.append_assoc]

/-- One more instruction. -/
theorem replayTraced_singleton (i : Instruction) :
    replayTraced a s [i] = (s.allocatorCalls a i, s.replayInstruction a i) := by
  rw [replayTraced]
  cases s.replayInstruction a i with
  | error stop => rfl
  | ok s' => simp [replayTraced]

end MallocTraceReplay.Replay.State
