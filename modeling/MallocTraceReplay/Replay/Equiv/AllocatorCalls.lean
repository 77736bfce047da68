import MallocTraceReplay.Replay.AllocatorCalls
import MallocTraceReplay.Replay.Equiv.ThreadCaches

/-!
# What an instruction leaves alone

The instructions that work on no register call no allocator, keep what the memory instructions work
on, and stop only at the checks of the current thread (`quiet_keeps`, `quiet_stops`).  An
instruction that passes its checks counts what it allocates and frees (`allocatedCount_execute`).
-/

namespace MallocTraceReplay

open StepMachine

/-- The number of live allocations after an instruction. -/
def Instruction.count (i : Instruction) (n : ℕ) : ℕ :=
  match i.type with
  | .MALLOC | .MEMALIGN => n + 1
  | .FREE | .FREE_SIZED => n - 1
  | .REALLOC | .SWITCH_THREAD | .KILL_THREAD | .SET_TS_CPU => n

namespace Replay.State

variable {a : Allocator} {s s' : State} {i : Instruction}

/-- The same registers and allocations. -/
structure SameMemory (s s' : State) : Prop where
  registers : s'.registers = s.registers
  allocations : s'.allocations = s.allocations
  allocatedCount : s'.allocatedCount = s.allocatedCount

theorem SameMemory.rfl : SameMemory s s := ⟨Eq.refl _, Eq.refl _, Eq.refl _⟩

theorem SameMemory.trans {s'' : State} (h : SameMemory s s') (h' : SameMemory s' s'') :
    SameMemory s s'' :=
  ⟨h'.registers.trans h.registers, h'.allocations.trans h.allocations,
    h'.allocatedCount.trans h.allocatedCount⟩

theorem sameMemory_threadStateAt {id : UInt64} {ts : Option ℕ}
    (h : s.threadStateAt id = (ts, s')) : SameMemory s s' := by
  unfold threadStateAt at h
  split at h
  all_goals
    rw [← (Prod.mk.inj h).2]
    exact ⟨Eq.refl _, Eq.refl _, Eq.refl _⟩

theorem sameMemory_handleSwitchThread {id : UInt64} (h : s.handleSwitchThread id = .ok s') :
    SameMemory s s' := by
  unfold handleSwitchThread at h
  split at h
  · simp at h
  · split at h
    · simp at h
    · dsimp only at h
      generalize hp : threadStateAt _ id = p at h
      obtain ⟨ts, s₁⟩ := p
      have hsame := sameMemory_threadStateAt hp
      rw [← Except.ok.inj h]
      cases ts <;> exact ⟨hsame.registers, hsame.allocations, hsame.allocatedCount⟩

theorem sameMemory_handleKillThread (h : s.handleKillThread = .ok s') : SameMemory s s' := by
  unfold handleKillThread at h
  split at h
  · simp at h
  · dsimp only at h
    generalize hp : threadStateAt _ s.currentThreadId = p at h
    obtain ⟨ts, s₁⟩ := p
    have hsame := sameMemory_threadStateAt hp
    rw [← Except.ok.inj h]
    cases ts <;> exact ⟨hsame.registers, hsame.allocations, hsame.allocatedCount⟩

/-- Replay of an instruction begins with a thread cache that may be new. -/
theorem replayInstruction_use (a : Allocator) (s : State) (i : Instruction) :
    ∃ s₀, SameMemory s s₀ ∧ s₀.currentThreadId = s.currentThreadId ∧
      s.replayInstruction a i = execute a s₀ i := by
  unfold replayInstruction
  by_cases hattach : a.attaches i.type = true
  · rw [if_pos hattach]
    exact ⟨{ s with caches := s.caches.use }, ⟨Eq.refl _, Eq.refl _, Eq.refl _⟩, Eq.refl _,
      Eq.refl _⟩
  · rw [if_neg hattach]
    exact ⟨s, SameMemory.rfl, Eq.refl _, Eq.refl _⟩

/-! ### The other instructions -/

/-- They call no allocator. -/
theorem quiet_calls (hi : i.isMemory = false) : s.allocatorCalls a i = [] := by
  unfold allocatorCalls
  unfold Instruction.isMemory at hi
  cases htype : i.type <;> simp_all

/-- They keep the registers. -/
theorem quiet_keeps (hi : i.isMemory = false) (h : s.replayInstruction a i = .ok s') :
    SameMemory s s' := by
  obtain ⟨s₀, hsame, -, hexecute⟩ := replayInstruction_use a s i
  rw [hexecute] at h
  refine hsame.trans ?_
  unfold execute at h
  unfold Instruction.isMemory at hi
  cases htype : i.type <;> simp only [htype] at h hi
  case SWITCH_THREAD => exact sameMemory_handleSwitchThread h
  case KILL_THREAD => exact sameMemory_handleKillThread h
  case SET_TS_CPU =>
    rw [← Except.ok.inj h]
    exact ⟨Eq.refl _, Eq.refl _, Eq.refl _⟩
  all_goals exact absurd hi (by simp)

/-- They stop at the checks of the current thread. -/
theorem quiet_stops (hi : i.isMemory = false) {stop : Stop}
    (h : s.replayInstruction a i = .error stop) : stop = .threadAssertion := by
  obtain ⟨s₀, -, -, hexecute⟩ := replayInstruction_use a s i
  rw [hexecute] at h
  unfold execute at h
  unfold Instruction.isMemory at hi
  cases htype : i.type <;> simp only [htype] at h hi
  case SWITCH_THREAD =>
    unfold handleSwitchThread at h
    split at h
    · exact (Except.error.inj h).symm
    · split at h
      · exact (Except.error.inj h).symm
      · simp at h
  case KILL_THREAD =>
    unfold handleKillThread at h
    split at h
    · exact (Except.error.inj h).symm
    · simp at h
  case SET_TS_CPU => simp at h
  all_goals exact absurd hi (by simp)

/-! ### The live allocations -/

theorem allocatedCount_setRegister {reg ptr : UInt64} (h : s.setRegister reg ptr = .ok s') :
    s'.allocatedCount = s.allocatedCount := by
  unfold setRegister at h
  split at h
  · rw [← Except.ok.inj h]
  · simp at h

theorem allocatedCount_allocate {ptr : UInt64} (h : s.allocate a = .ok (ptr, s')) :
    s'.allocatedCount = s.allocatedCount := by
  unfold allocate at h
  dsimp only at h
  split at h
  · simp at h
  · rw [← (Prod.mk.inj (Except.ok.inj h)).2]

/-- **The live allocations are counted**. -/
theorem allocatedCount_execute (h : execute a s i = .ok s') :
    s'.allocatedCount = i.count s.allocatedCount := by
  unfold execute at h
  unfold Instruction.count
  -- the counter is changed beside the registers and the allocations, which leave it alone
  cases htype : i.type <;> simp only [htype] at h ⊢
  case MALLOC =>
    obtain ⟨⟨ptr, s₁⟩, halloc, h⟩ := bind_eq_ok.mp h
    obtain ⟨old, -, h⟩ := bind_eq_ok.mp h
    dsimp only at h
    split at h
    · simp at h
    · obtain ⟨s₂, hset, h⟩ := bind_eq_ok.mp h
      rw [← Except.ok.inj h]
      show s₂.allocatedCount + 1 = _
      rw [allocatedCount_setRegister hset, allocatedCount_allocate halloc]
  case FREE =>
    obtain ⟨old, -, h⟩ := bind_eq_ok.mp h
    obtain ⟨s₁, hset, h⟩ := bind_eq_ok.mp h
    rw [← Except.ok.inj h]
    show s₁.allocatedCount - 1 = _
    rw [allocatedCount_setRegister hset]
  case MEMALIGN =>
    obtain ⟨⟨ptr, s₁⟩, halloc, hset⟩ := bind_eq_ok.mp h
    rw [allocatedCount_setRegister hset, allocatedCount_allocate halloc]
  case REALLOC =>
    obtain ⟨old, -, h⟩ := bind_eq_ok.mp h
    obtain ⟨⟨ptr, s₁⟩, halloc, h⟩ := bind_eq_ok.mp h
    obtain ⟨s₂, hset, hset'⟩ := bind_eq_ok.mp h
    rw [allocatedCount_setRegister hset', allocatedCount_setRegister hset,
      allocatedCount_allocate halloc]
  case FREE_SIZED =>
    obtain ⟨old, -, hset⟩ := bind_eq_ok.mp h
    rw [allocatedCount_setRegister hset]
  case SWITCH_THREAD => exact (sameMemory_handleSwitchThread h).allocatedCount
  case KILL_THREAD => exact (sameMemory_handleKillThread h).allocatedCount
  case SET_TS_CPU => rw [← Except.ok.inj h]

/-- A memory instruction that passes its checks stays in its thread, and is counted. -/
theorem replayInstruction_memory (hi : i.isMemory = true) (h : s.replayInstruction a i = .ok s') :
    s'.currentThreadId = s.currentThreadId ∧
      s'.allocatedCount = i.count s.allocatedCount := by
  obtain ⟨s₀, hsame, hthread, hexecute⟩ := replayInstruction_use a s i
  rw [hexecute] at h
  have hother : i.isThread = false := by
    unfold Instruction.isMemory at hi
    unfold Instruction.isThread
    cases htype : i.type <;> simp_all
  rw [allocatedCount_execute h, hsame.allocatedCount,
    (sameThreads_execute hother h).currentThreadId,
    hthread]
  exact ⟨Eq.refl _, Eq.refl _⟩

end Replay.State

end MallocTraceReplay
