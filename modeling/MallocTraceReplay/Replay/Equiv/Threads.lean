import Mathlib.Data.List.Induction
import MallocTraceReplay.Replay.Replay
import MallocTraceReplay.Serializer.State
import MallocTraceReplay.Postprocess.SimpleReceiver
import MallocTraceReplay.Lib.StepMachine
import MallocTraceReplay.Lib.History

/-!
# The thread instructions

What replay asserts of the switches and kills it executes, in terms of the calls of the receiver
they were written for: every switch is to another thread, and a kill finds a current thread
(`replaysThreads_iff`).
-/

namespace MallocTraceReplay

open StepMachine History

/-! ### The current thread of a receiver -/

/-- The current thread after a call. -/
def Call.thread (current : UInt64) : Call → UInt64
  | .switchThread threadId => threadId
  | .killCurrentThread => kInvalidThreadID
  | .setTS .. | .event _ | .barrier | .hasAllocated _ => current

/-- The argument of the last switch, or none after a kill. -/
def currentThread (calls : List Call) : UInt64 := calls.foldl Call.thread kInvalidThreadID

theorem currentThread_append (calls : List Call) (call : Call) :
    currentThread (calls ++ [call]) = call.thread (currentThread calls) := by
  simp [currentThread]

/-- What replay asserts of a call's instruction. -/
def Call.Allowed (current : UInt64) : Call → Prop
  | .switchThread threadId => current ≠ threadId ∧ threadId ≠ kInvalidThreadID
  | .killCurrentThread => current ≠ kInvalidThreadID
  | .setTS .. | .event _ | .barrier | .hasAllocated _ => True

/-- Every call is allowed where it is made. -/
def ThreadsAllowed (calls : List Call) : Prop :=
  ForAllCuts (fun before call => call.Allowed (currentThread before)) calls

theorem threadsAllowed_append (calls : List Call) (call : Call) :
    ThreadsAllowed (calls ++ [call]) ↔ ThreadsAllowed calls ∧ call.Allowed (currentThread calls) :=
  forAllCuts_concat

/-! ### What postprocessing writes for them -/

/-- The instruction of a switch or a kill. -/
def Call.threadInstruction? : Call → Option Instruction
  | .switchThread threadId => some { Instruction.new .SWITCH_THREAD with word0 := threadId }
  | .killCurrentThread => some (.new .KILL_THREAD)
  | .setTS .. | .event _ | .barrier | .hasAllocated _ => none

/-- The instructions of the switches and kills. -/
def threadInstructions (calls : List Call) : List Instruction :=
  calls.filterMap Call.threadInstruction?

theorem threadInstructions_append (calls : List Call) (call : Call) :
    threadInstructions (calls ++ [call]) =
      threadInstructions calls ++ call.threadInstruction?.toList := by
  rw [threadInstructions, List.filterMap_append]
  cases h : call.threadInstruction? <;> simp [h, threadInstructions]

/-- An instruction that switches threads or kills one. -/
def Instruction.isThread (i : Instruction) : Bool :=
  match i.type with
  | .SWITCH_THREAD | .KILL_THREAD => true
  | _ => false

/-- A call adds at most one instruction, and its thread instruction if it has one. -/
theorem SimpleReceiver.receive_out {r r' : SimpleReceiver} {call : Call}
    (h : r.receive call = .ok r') :
    r'.out.filter Instruction.isThread =
      r.out.filter Instruction.isThread ++ call.threadInstruction?.toList := by
  -- every other call writes at most one instruction, of another type
  have hdump : ∀ (r : SimpleReceiver) (i : Instruction), i.isThread = false →
      (r.dump i).out.filter Instruction.isThread = r.out.filter Instruction.isThread ++ [] := by
    intro r i hi
    simp [dump, hi]
  have hrelease : ∀ {tok : UInt64} {r' : SimpleReceiver}, r.release tok = .ok r' →
      r'.out.filter Instruction.isThread = r.out.filter Instruction.isThread ++ [] := by
    intro tok r' h
    unfold release at h
    split at h
    · simp at h
    · obtain ⟨ids, -, h⟩ := bind_eq_ok.mp h
      rw [← Except.ok.inj h]
      exact hdump _ _ rfl
  cases call with
  | killCurrentThread | switchThread | setTS | barrier | hasAllocated =>
    rw [← Except.ok.inj h]
    simp [killCurrentThread, switchThread, setTS, barrier, dump, Call.threadInstruction?,
      Instruction.isThread, Instruction.new]
  | event ev =>
    cases ev with
    | malloc | memalign =>
      obtain ⟨ids, -, h⟩ := bind_eq_ok.mp h
      obtain ⟨allocated, -, h⟩ := bind_eq_ok.mp h
      rw [← Except.ok.inj h]
      exact hdump _ _ rfl
    | free | freeSized =>
      obtain ⟨r₁, hr, h⟩ := bind_eq_ok.mp h
      have hout := hrelease hr
      rw [← Except.ok.inj h]
      exact hout
    | realloc oldTok newTok newSize =>
      simp only [receive, realloc] at h
      obtain ⟨ids, -, h⟩ := bind_eq_ok.mp h
      split at h
      · simp at h
      · obtain ⟨allocated, -, h⟩ := bind_eq_ok.mp h
        obtain ⟨ids', -, h⟩ := bind_eq_ok.mp h
        rw [← Except.ok.inj h]
        exact hdump _ _ rfl

/-- **What the receiver of postprocessing writes** for the switches and kills. -/
theorem SimpleReceiver.receiveAll_out {calls : List Call} {r : SimpleReceiver}
    (h : SimpleReceiver.init.receiveAll calls = .ok r) :
    r.out.filter Instruction.isThread = threadInstructions calls := by
  induction calls using List.reverseRecOn generalizing r with
  | nil =>
    rw [← Except.ok.inj h]
    rfl
  | append_singleton calls call ih =>
    rw [receiveAll, List.foldlM_append] at h
    obtain ⟨r₁, hr₁, h⟩ := bind_eq_ok.mp h
    have hcall : r₁.receive call = .ok r := by
      obtain ⟨r₂, hr₂, h⟩ := bind_eq_ok.mp h
      rwa [← Except.ok.inj h]
    rw [receive_out hcall, ih hr₁, threadInstructions_append]

/-! ### What replay asserts -/

namespace Replay

open State

variable {a : Allocator} {s s' : State} {id : UInt64}

/-- A switch has to be to another thread. -/
theorem State.handleSwitchThread_iff :
    (∃ s', s.handleSwitchThread id = .ok s') ↔
      s.currentThreadId ≠ id ∧ id ≠ kInvalidThreadId := by
  unfold handleSwitchThread
  by_cases hsame : s.currentThreadId = id
  · simp [hsame]
  · by_cases hinvalid : id = kInvalidThreadId
    · simp [hinvalid]
    · simp [hsame, hinvalid]

theorem State.currentThreadId_threadStateAt :
    (s.threadStateAt id).2.currentThreadId = s.currentThreadId := by
  unfold threadStateAt
  split <;> rfl

theorem State.currentThreadId_switch (h : s.handleSwitchThread id = .ok s') :
    s'.currentThreadId = id := by
  unfold handleSwitchThread at h
  split at h
  · simp at h
  · split at h
    · simp at h
    · simp only [Except.ok.injEq] at h
      generalize hp : State.threadStateAt _ id = p at h
      have hcurrent : p.2.currentThreadId = id := by
        rw [← hp, currentThreadId_threadStateAt]
      rw [← h]
      cases hc : p.1 <;> exact hcurrent

/-- A kill needs a current thread. -/
theorem State.handleKillThread_iff :
    (∃ s', s.handleKillThread = .ok s') ↔ s.currentThreadId ≠ kInvalidThreadId := by
  unfold handleKillThread
  by_cases hinvalid : s.currentThreadId = kInvalidThreadId
  · simp [hinvalid]
  · simp [hinvalid]

theorem State.currentThreadId_kill (h : s.handleKillThread = .ok s') :
    s'.currentThreadId = kInvalidThreadId := by
  unfold handleKillThread at h
  split at h
  · simp at h
  · rw [← Except.ok.inj h]

/-- Replay executes the switches and kills of some calls without a failed assertion. -/
def ReplaysThreads (a : Allocator) (calls : List Call) : Prop :=
  ∃ s, replayAll a .init (threadInstructions calls) = .ok s

theorem replayAll_append (is_ : List Instruction) (i : Instruction) :
    replayAll a s (is_ ++ [i]) = replayAll a s is_ >>= fun s => replayInstruction a s i := by
  rw [replayAll, List.foldlM_append]
  congr 1
  funext s
  rw [List.foldlM_cons]
  cases replayInstruction a s i <;> rfl

/-- One more thread instruction. -/
theorem replayInstruction_thread (call : Call) {i : Instruction}
    (hi : call.threadInstruction? = some i) :
    ((∃ s', replayInstruction a s i = .ok s') ↔ call.Allowed s.currentThreadId) ∧
      ∀ s', replayInstruction a s i = .ok s' →
        s'.currentThreadId = call.thread s.currentThreadId := by
  have huse : (if a.attaches i.type then { s with caches := s.caches.use } else s).currentThreadId =
      s.currentThreadId := by
    split <;> rfl
  unfold replayInstruction
  generalize (if a.attaches i.type then { s with caches := s.caches.use } else s) = s₀ at huse ⊢
  rw [← huse]
  cases call with
  | switchThread threadId =>
    obtain rfl := Option.some.inj hi
    exact ⟨handleSwitchThread_iff, fun s' h => currentThreadId_switch h⟩
  | killCurrentThread =>
    obtain rfl := Option.some.inj hi
    exact ⟨handleKillThread_iff, fun s' h => currentThreadId_kill h⟩
  | setTS | event | barrier | hasAllocated => simp [Call.threadInstruction?] at hi

theorem replayAll_threadInstructions (a : Allocator) (calls : List Call) :
    (ReplaysThreads a calls ↔ ThreadsAllowed calls) ∧
      ∀ s, replayAll a .init (threadInstructions calls) = .ok s →
        s.currentThreadId = currentThread calls := by
  induction calls using List.reverseRecOn with
  | nil =>
    refine ⟨iff_of_true ⟨_, rfl⟩ forAllCuts_nil, fun s h => ?_⟩
    rw [← Except.ok.inj h]
    rfl
  | append_singleton calls call ih =>
    obtain ⟨ihok, ihthread⟩ := ih
    rw [threadsAllowed_append, currentThread_append, ReplaysThreads, threadInstructions_append]
    cases hi : call.threadInstruction? with
    | none =>
      -- the other calls neither need a thread nor change it
      have hother : call.Allowed (currentThread calls) ∧
          call.thread (currentThread calls) = currentThread calls := by
        cases call <;> simp_all [Call.threadInstruction?, Call.Allowed, Call.thread]
      rw [Option.toList_none, List.append_nil, hother.2]
      exact ⟨by rw [← ihok]; exact ⟨fun h => ⟨h, hother.1⟩, fun h => h.1⟩, ihthread⟩
    | some i =>
      rw [Option.toList_some, replayAll_append]
      constructor
      · constructor
        · -- what replays the longer list replays the shorter one, and ends where its thread is
          -- current
          rintro ⟨s', h⟩
          obtain ⟨s, hs, h⟩ := bind_eq_ok.mp h
          have hone := (replayInstruction_thread (a := a) (s := s) call hi).1.mp ⟨s', h⟩
          rw [ihthread s hs] at hone
          exact ⟨ihok.mp ⟨s, hs⟩, hone⟩
        · rintro ⟨hall, hone⟩
          obtain ⟨s, hs⟩ := ihok.mpr hall
          rw [← ihthread s hs] at hone
          obtain ⟨s', h⟩ := (replayInstruction_thread (a := a) (s := s) call hi).1.mpr hone
          exact ⟨s', by rw [hs, ok_bind, h]⟩
      · intro s' h
        obtain ⟨s, hs, h⟩ := bind_eq_ok.mp h
        rw [(replayInstruction_thread call hi).2 s' h, ihthread s hs]

/-- **Replay's assertions on threads** hold exactly when every switch is to another thread and
every kill finds a current thread. -/
theorem replaysThreads_iff (a : Allocator) (calls : List Call) :
    ReplaysThreads a calls ↔ ThreadsAllowed calls :=
  (replayAll_threadInstructions a calls).1

end Replay

end MallocTraceReplay
