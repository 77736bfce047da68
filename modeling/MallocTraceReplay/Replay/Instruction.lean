import Mathlib.Data.Nat.Notation

/-!
# `Instruction`

What postprocessing writes and replay reads: a type, a register of 56 bits, and two words that
the types use differently.
-/

namespace MallocTraceReplay

namespace Instruction

inductive Type_
  | MALLOC | FREE | FREE_SIZED | MEMALIGN | REALLOC | SWITCH_THREAD | KILL_THREAD | SET_TS_CPU
  deriving DecidableEq, Repr

end Instruction

structure Instruction where
  type : Instruction.Type_
  reg : UInt64
  word0 : UInt64
  word1 : UInt64
  deriving DecidableEq, Repr

namespace Instruction

/-- The constructor: everything but the type is zeroed. -/
def new (type : Type_) : Instruction := { type := type, reg := 0, word0 := 0, word1 := 0 }

/-- An assignment to the bit field `reg`. -/
def setReg (i : Instruction) (reg : ℕ) : Instruction :=
  { i with reg := UInt64.ofNat reg &&& 0xFFFFFFFFFFFFFF }

/-- `i.malloc.size`. -/
def mallocSize (i : Instruction) : UInt64 := i.word0
/-- `i.malloc.align`. -/
def mallocAlign (i : Instruction) : UInt64 := i.word1
/-- `i.realloc.new_reg`. -/
def reallocNewReg (i : Instruction) : UInt64 := i.word0
/-- `i.realloc.new_size`. -/
def reallocNewSize (i : Instruction) : UInt64 := i.word1
/-- `i.switch_thread.thread_id`. -/
def switchThreadId (i : Instruction) : UInt64 := i.word0
/-- `i.ts_cpu.cpu`. -/
def tsCpuCpu (i : Instruction) : UInt64 := i.word1

/-- The instructions that work on the registers. -/
def isMemory (i : Instruction) : Bool :=
  match i.type with
  | .MALLOC | .FREE | .FREE_SIZED | .MEMALIGN | .REALLOC => true
  | .SWITCH_THREAD | .KILL_THREAD | .SET_TS_CPU => false

end Instruction

end MallocTraceReplay
