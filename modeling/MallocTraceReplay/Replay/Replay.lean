import MallocTraceReplay.Replay.Instruction

/-!
# Replay

`replay_instruction`: the registers hold the pointers that the allocator returned, and the
thread caches of the allocator are moved between the replayed threads.
-/

namespace MallocTraceReplay.Replay

/-- Why replay stops. -/
inductive Stop
  /-- The allocator returned null. -/
  | outOfMemory
  /-- `int $3`: a register is set that should be null, or null that should be set. -/
  | trap
  /-- A failed assertion on a register. -/
  | registerAssertion
  /-- A failed assertion on the current thread. -/
  | threadAssertion
  /-- A register beyond the array. -/
  | outOfRange
  deriving DecidableEq, Repr

def kMaxRegisters : ℕ := 1 <<< 30

/-- `kInvalidThreadId`. -/
def kInvalidThreadId : UInt64 := ~~~0

/-! ### The allocator -/

/-- The thread caches of the allocator, numbered in the order of their creation: the one
attached to the thread that runs the replay, and those destroyed. -/
structure ThreadCaches where
  attached : Option ℕ
  destroyed : List ℕ
  created : ℕ

namespace ThreadCaches

/-- `release_malloc_thread_cache`: detaches the cache and returns it (`none`: null). -/
def release (c : ThreadCaches) : Option ℕ × ThreadCaches :=
  (c.attached, { c with attached := none })

/-- `set_malloc_thread_cache`: destroys the attached cache, if any, and attaches another. -/
def set (c : ThreadCaches) (state : Option ℕ) : ThreadCaches :=
  { c with attached := state, destroyed := c.attached.toList ++ c.destroyed }

/-- The allocator is used: it attaches a fresh cache when there is none. -/
def use (c : ThreadCaches) : ThreadCaches :=
  match c.attached with
  | some _ => c
  | none => { c with attached := some c.created, created := c.created + 1 }

end ThreadCaches

/-- The allocator under replay: the pointer that its `k`-th allocation returns (`0`: null), and
the instructions whose calls attach a thread cache. -/
structure Allocator where
  pointer : ℕ → UInt64
  attaches : Instruction.Type_ → Bool

/-! ### The state -/

structure State where
  registers : ℕ → UInt64
  allocations : ℕ
  allocatedCount : ℕ
  caches : ThreadCaches
  threadStates : UInt64 → Option (Option ℕ)
  currentThreadId : UInt64
  threadSwitches : ℕ
  lastCpu : UInt64
  cpuSwitches : ℕ
  tsUpdates : ℕ

namespace State

def init : State where
  registers := fun _ => 0
  allocations := 0
  allocatedCount := 0
  caches := { attached := none, destroyed := [], created := 0 }
  threadStates := fun _ => none
  currentThreadId := kInvalidThreadId
  threadSwitches := 0
  lastCpu := 0xffffff
  cpuSwitches := 0
  tsUpdates := 0

/-- `registers[reg]`, where the array has it. -/
def register (s : State) (reg : UInt64) : Except Stop UInt64 :=
  if reg.toNat < kMaxRegisters then .ok (s.registers reg.toNat) else .error .outOfRange

/-- `registers[reg] = ptr`, where the array has it. -/
def setRegister (s : State) (reg ptr : UInt64) : Except Stop State :=
  if reg.toNat < kMaxRegisters then
    .ok { s with registers := fun r => if r = reg.toNat then ptr else s.registers r }
  else .error .outOfRange

/-- A call that allocates: the pointer, which is checked for null. -/
def allocate (a : Allocator) (s : State) : Except Stop (UInt64 × State) :=
  let ptr := a.pointer s.allocations
  if ptr = 0 then .error .outOfMemory
  else .ok (ptr, { s with allocations := s.allocations + 1 })

/-- `assert(registers[reg] != nullptr)`, and the register. -/
def liveRegister (s : State) (reg : UInt64) (stop : Stop) : Except Stop UInt64 := do
  let ptr ← s.register reg
  if ptr = 0 then throw stop else return ptr

/-! ### Threads -/

/-- `thread_states[id]`, which makes an entry when there is none. -/
def threadStateAt (s : State) (id : UInt64) : Option ℕ × State :=
  match s.threadStates id with
  | some c => (c, s)
  | none =>
    (none, { s with
      threadStates := fun i => if i = id then some none else s.threadStates i })

/-- `delete_malloc_state`. -/
def deleteMallocState (s : State) (mallocState : ℕ) : State :=
  let (old, caches) := s.caches.release
  let caches := caches.set (some mallocState)
  { s with caches := caches.set old }

def handleSwitchThread (s : State) (threadId : UInt64) : Except Stop State :=
  if s.currentThreadId = threadId then .error .threadAssertion
  else if threadId = kInvalidThreadId then .error .threadAssertion
  else
    let (ts, caches) := s.caches.release
    let s := { s with
      caches := caches
      threadStates := fun i => if i = s.currentThreadId then some ts else s.threadStates i
      currentThreadId := threadId }
    let (ts, s) := s.threadStateAt threadId
    let s :=
      match ts with
      | some c => { s with caches := s.caches.set (some c) }
      | none => s
    .ok { s with threadSwitches := s.threadSwitches + 1 }

def handleKillThread (s : State) : Except Stop State :=
  if s.currentThreadId = kInvalidThreadId then .error .threadAssertion
  else
    let (ts, s) := s.threadStateAt s.currentThreadId
    let s := { s with
      threadStates := fun i => if i = s.currentThreadId then none else s.threadStates i }
    let s :=
      match ts with
      | some c => s.deleteMallocState c
      | none => s
    .ok { s with currentThreadId := kInvalidThreadId }

/-! ### Instructions -/

/-- The `switch` of `replay_instruction`; `memset` on the new memory is left out. -/
def execute (a : Allocator) (s : State) (i : Instruction) : Except Stop State :=
  match i.type with
  | .MALLOC => do
    let (ptr, s) ← s.allocate a
    let old ← s.register i.reg
    if old ≠ 0 then throw .trap
    else
      let s ← s.setRegister i.reg ptr
      return { s with allocatedCount := s.allocatedCount + 1 }
  | .FREE => do
    let _ ← s.liveRegister i.reg .trap
    let s ← s.setRegister i.reg 0
    return { s with allocatedCount := s.allocatedCount - 1 }
  | .MEMALIGN => do
    let s := { s with allocatedCount := s.allocatedCount + 1 }
    let (ptr, s) ← s.allocate a
    s.setRegister i.reg ptr
  | .REALLOC => do
    let _ ← s.liveRegister i.reg .registerAssertion
    let (ptr, s) ← s.allocate a
    let s ← s.setRegister i.reg 0
    s.setRegister i.reallocNewReg ptr
  | .FREE_SIZED => do
    let _ ← s.liveRegister i.reg .registerAssertion
    let s := { s with allocatedCount := s.allocatedCount - 1 }
    s.setRegister i.reg 0
  | .KILL_THREAD => s.handleKillThread
  | .SWITCH_THREAD => s.handleSwitchThread i.switchThreadId
  | .SET_TS_CPU =>
    .ok { s with
      cpuSwitches := s.cpuSwitches + (if i.tsCpuCpu ≠ s.lastCpu then 1 else 0)
      tsUpdates := s.tsUpdates + 1
      lastCpu := i.tsCpuCpu }

/-- `replay_instruction`. -/
def replayInstruction (a : Allocator) (s : State) (i : Instruction) : Except Stop State :=
  execute a (if a.attaches i.type then { s with caches := s.caches.use } else s) i

/-- The instructions one after another. -/
def replayAll (a : Allocator) (s : State) (is_ : List Instruction) : Except Stop State :=
  is_.foldlM (replayInstruction a) s

end State

end MallocTraceReplay.Replay
