import MallocTraceReplay.Postprocess.IdTree
import MallocTraceReplay.Replay.Instruction
import MallocTraceReplay.Serializer.Receiver

/-!
# `SimpleReceiver`

The receiver of postprocessing: it keeps the live tokens with their registers and sizes, takes the
registers from an `IdTree`, and dumps an instruction for every call.
-/

namespace MallocTraceReplay

open Instruction

/-! ### `AllocatedMap` -/

structure Element where
  token : UInt64
  reg : ℕ
  size : UInt64
  deriving DecidableEq, Repr

/-- The elements of the hash table, a multiset. -/
abbrev AllocatedMap := List Element

namespace AllocatedMap

def lookup (m : AllocatedMap) (token : UInt64) : Option Element :=
  List.find? (fun e => e.token = token) m

def erase (m : AllocatedMap) (e : Element) : AllocatedMap := List.erase m e

def insert (m : AllocatedMap) (token : UInt64) (reg : ℕ) (size : UInt64) :
    Except Abort AllocatedMap := do
  check false (m.lookup token).isNone .insertFresh
  return { token := token, reg := reg, size := size } :: m

end AllocatedMap

/-! ### The receiver -/

structure SimpleReceiver where
  idsSpace : IdTree
  allocated : AllocatedMap
  /-- What has been written to the output. -/
  out : List Instruction
  mallocs : ℕ
  frees : ℕ
  sizedFrees : ℕ
  reallocs : ℕ
  memaligns : ℕ
  barriers : ℕ
  lastTs : UInt64
  lastCpu : UInt64

namespace SimpleReceiver

def init : SimpleReceiver where
  idsSpace := .empty
  allocated := []
  out := []
  mallocs := 0
  frees := 0
  sizedFrees := 0
  reallocs := 0
  memaligns := 0
  barriers := 0
  lastTs := 0
  lastCpu := 0

def dump (r : SimpleReceiver) (i : Instruction) : SimpleReceiver := { r with out := r.out ++ [i] }

def killCurrentThread (r : SimpleReceiver) : SimpleReceiver := r.dump (.new .KILL_THREAD)

def switchThread (r : SimpleReceiver) (threadId : UInt64) : SimpleReceiver :=
  r.dump { Instruction.new .SWITCH_THREAD with word0 := threadId }

def setTS (r : SimpleReceiver) (ts cpu : UInt64) : SimpleReceiver :=
  { r.dump { Instruction.new .SET_TS_CPU with word0 := ts, word1 := cpu } with
    lastTs := ts, lastCpu := cpu }

def malloc (r : SimpleReceiver) (tok size : UInt64) : Except Abort SimpleReceiver := do
  let (reg, idsSpace) ← r.idsSpace.allocateId
  let allocated ← r.allocated.insert tok reg size
  let r := { r with idsSpace := idsSpace, allocated := allocated }
  let m := { (Instruction.new .MALLOC).setReg reg with word0 := size }
  return { r.dump m with mallocs := r.mallocs + 1 }

def memalign (r : SimpleReceiver) (tok size align : UInt64) : Except Abort SimpleReceiver := do
  let (reg, idsSpace) ← r.idsSpace.allocateId
  let allocated ← r.allocated.insert tok reg size
  let r := { r with idsSpace := idsSpace, allocated := allocated }
  let m := { (Instruction.new .MEMALIGN).setReg reg with word0 := size, word1 := align }
  return { r.dump m with memaligns := r.memaligns + 1 }

/-- The new register is taken before the old one is given back. -/
def realloc (r : SimpleReceiver) (oldTok newTok newSize : UInt64) :
    Except Abort SimpleReceiver := do
  let e? := r.allocated.lookup oldTok
  let (newReg, idsSpace) ← r.idsSpace.allocateId
  match e? with
  | none => throw .fault
  | some e =>
    let allocated ← (r.allocated.erase e).insert newTok newReg newSize
    let idsSpace ← idsSpace.freeId e.reg
    let r := { r with idsSpace := idsSpace, allocated := allocated }
    let i := { (Instruction.new .REALLOC).setReg e.reg with
      word0 := UInt64.ofNat newReg, word1 := newSize }
    return { r.dump i with reallocs := r.reallocs + 1 }

/-- `Free` and `FreeSized` up to their counters: both dump a `FREE_SIZED`. -/
def release (r : SimpleReceiver) (tok : UInt64) : Except Abort SimpleReceiver :=
  match r.allocated.lookup tok with
  | none => throw .fault
  | some e => do
    let allocated := r.allocated.erase e
    let idsSpace ← r.idsSpace.freeId e.reg
    let r := { r with idsSpace := idsSpace, allocated := allocated }
    return r.dump { (Instruction.new .FREE_SIZED).setReg e.reg with word0 := e.size }

def free (r : SimpleReceiver) (tok : UInt64) : Except Abort SimpleReceiver := do
  let r ← r.release tok
  return { r with frees := r.frees + 1 }

def freeSized (r : SimpleReceiver) (tok : UInt64) : Except Abort SimpleReceiver := do
  let r ← r.release tok
  return { r with sizedFrees := r.sizedFrees + 1 }

def barrier (r : SimpleReceiver) : SimpleReceiver := { r with barriers := r.barriers + 1 }

def hasAllocated (r : SimpleReceiver) (tok : UInt64) : Bool := (r.allocated.lookup tok).isSome

/-- The call of the receiver's method. -/
def receive (r : SimpleReceiver) : Call → Except Abort SimpleReceiver
  | .killCurrentThread => .ok r.killCurrentThread
  | .switchThread threadId => .ok (r.switchThread threadId)
  | .setTS ts cpu => .ok (r.setTS ts cpu)
  | .event (.malloc tok size) => r.malloc tok size
  | .event (.memalign tok size align) => r.memalign tok size align
  | .event (.free tok) => r.free tok
  | .event (.freeSized tok) => r.freeSized tok
  | .event (.realloc oldTok newTok newSize) => r.realloc oldTok newTok newSize
  | .barrier => .ok r.barrier
  | .hasAllocated _ => .ok r

/-- The receiver after a sequence of calls. -/
def receiveAll (r : SimpleReceiver) (calls : List Call) : Except Abort SimpleReceiver :=
  calls.foldlM receive r

/-- `DumpAllDeallocations`, with the elements in the order in which the hash table lists them. -/
def dumpAllDeallocations (r : SimpleReceiver) (elements : List Element) : SimpleReceiver :=
  elements.foldl (fun r el => r.dump ((Instruction.new .FREE).setReg el.reg)) r

/-- The answers of this receiver to a serializer that has made some calls. -/
def answers (calls : List Call) (tok : UInt64) : Bool :=
  match init.receiveAll calls with
  | .ok r => r.hasAllocated tok
  | .error _ => false

end SimpleReceiver

end MallocTraceReplay
