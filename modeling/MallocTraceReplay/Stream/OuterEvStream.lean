import MallocTraceReplay.Stream.MemStream
import MallocTraceReplay.Codec.TraceEncoder

/-!
# `OuterEvStream`

The outer records of a trace: buffers of a thread's events, deaths of threads, barriers and the
end.
-/

namespace MallocTraceReplay

open MallocTraceEncoder

/-- An outer record.  A buffer is the bytes between two addresses. -/
structure OuterEvent where
  type : EventType
  cpu : UInt32
  ts : UInt64
  threadId : UInt64
  bufStart : UInt64
  bufEnd : UInt64
  deriving DecidableEq, Repr

/-- The record after `memset(ev, 0, sizeof(*ev))`. -/
def OuterEvent.zero : OuterEvent :=
  { type := .malloc, cpu := 0, ts := 0, threadId := 0, bufStart := 0, bufEnd := 0 }

namespace MemStream

variable {M : Type} [Mapper M]

/-- The `kEventBuf` case of `OuterEvStream::next`. -/
def nextBuf (stack : StackBytes) (s : MemStream M) (ev : OuterEvent) (firstWord : UInt64) :
    Except Abort (Bool × OuterEvent × MemStream M) := do
  let (secondWord?, s) ← s.tryReadVarint stack
  match secondWord? with
  | none => return (false, ev, s)
  | some secondWord =>
    let (thirdWord?, s) ← s.tryReadVarint stack
    match thirdWord? with
    | none => return (false, ev, s)
    | some thirdWord =>
      let (threadId, ts, cpu, size) := decodeBuffer firstWord secondWord thirdWord
      let ev := { ev with threadId := threadId, ts := ts, cpu := cpu.toUInt32 }
      let (bufStart?, s) ← s.tryAdvanceBy size
      match bufStart? with
      | none => return (false, ev, s)
      | some bufStart =>
        return (true, { ev with bufStart := bufStart, bufEnd := bufStart + size }, s)

/-- `OuterEvStream::next`: whether there was a record, and `*ev` afterwards. -/
def next (stack : StackBytes) (s : MemStream M) (ev : OuterEvent) :
    Except Abort (Bool × OuterEvent × MemStream M) := do
  let (more, s) ← s.hasMore
  if !more then return (false, ev, s)
  else
    let (firstWord?, s) ← s.tryReadVarint stack
    match firstWord? with
    | none => return (false, OuterEvent.zero, s)
    | some firstWord =>
      match EventType.ofCode? (decodeType firstWord) with
      | some .death =>
        let (secondWord, s) ← s.mustReadVarint stack
        let (threadId, ts, cpu) := decodeDeath firstWord secondWord
        return (true, { OuterEvent.zero with
          type := .death, threadId := threadId, ts := ts, cpu := cpu.toUInt32 }, s)
      | some .buf => s.nextBuf stack { OuterEvent.zero with type := .buf } firstWord
      | some .end_ => return (true, { OuterEvent.zero with type := .end_ }, s)
      | some .syncBarrier =>
        let (secondWord?, s) ← s.tryReadVarint stack
        match secondWord? with
        | none => return (false, { OuterEvent.zero with type := .syncBarrier }, s)
        | some secondWord =>
          let (ts, cpu) := decodeSyncBarrier firstWord secondWord
          return (true, { OuterEvent.zero with
            type := .syncBarrier, ts := ts, cpu := cpu.toUInt32 }, s)
      | _ => throw .abort

end MemStream

end MallocTraceReplay
