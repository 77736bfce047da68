import MallocTraceReplay.Stream.OuterEvStream
import MallocTraceReplay.Codec.TraceWriter

/-!
# The outer records in a list of bytes

`nextRecord` takes an outer record off a list of bytes: the meaning of the bytes of a trace, with
no streams and windows.  `OuterRecord.write` gives the bytes of a record, whatever is in its buffer.
-/

namespace MallocTraceReplay

open AltVarintCodec MallocTraceEncoder

/-- An outer record, with the bytes of a buffer in the place of their addresses. -/
structure OuterRecord where
  type : EventType
  cpu : UInt32
  ts : UInt64
  threadId : UInt64
  body : List UInt8
  deriving DecidableEq, Repr

/-- The buffer record at the front, after its first word. -/
def nextBufRecord (firstWord : UInt64) (bytes : List UInt8) :
    Option (OuterRecord × List UInt8) := do
  let (secondWord, rest) ← readVarint bytes
  let (thirdWord, rest) ← readVarint rest
  let (threadId, ts, cpu, size) := decodeBuffer firstWord secondWord thirdWord
  if size.toNat ≤ rest.length then
    return (⟨.buf, cpu.toUInt32, ts, threadId, rest.take size.toNat⟩, rest.drop size.toNat)
  else none

/-- The record at the front, if there is a whole one. -/
def nextRecord (bytes : List UInt8) : Except Abort (Option (OuterRecord × List UInt8)) :=
  match readVarint bytes with
  | none => .ok none
  | some (firstWord, rest) =>
    match EventType.ofCode? (decodeType firstWord) with
    | some .death =>
      match readVarint rest with
      | none => .error (.panic "trying to realize with min_amount beyond end of data")
      | some (secondWord, rest) =>
        let (threadId, ts, cpu) := decodeDeath firstWord secondWord
        .ok (some (⟨.death, cpu.toUInt32, ts, threadId, []⟩, rest))
    | some .buf => .ok (nextBufRecord firstWord rest)
    | some .end_ => .ok (some (⟨.end_, 0, 0, 0, []⟩, rest))
    | some .syncBarrier =>
      match readVarint rest with
      | none => .ok none
      | some (secondWord, rest) =>
        let (ts, cpu) := decodeSyncBarrier firstWord secondWord
        .ok (some (⟨.syncBarrier, cpu.toUInt32, ts, 0, []⟩, rest))
    | _ => .error .abort

/-! ### Writing -/

/-- The words of a record, without the bytes of a buffer. -/
def OuterRecord.words (r : OuterRecord) : List UInt64 :=
  match r.type with
  | .buf =>
    let (w, w₂, w₃) := encodeBuffer r.threadId (bundleTsAndCpu r.ts r.cpu.toUInt64)
      (UInt64.ofNat r.body.length)
    [w, w₂, w₃]
  | .death =>
    let (w, w₂) := encodeDeath r.threadId (bundleTsAndCpu r.ts r.cpu.toUInt64)
    [w, w₂]
  | .syncBarrier =>
    let (w, w₂) := encodeSyncBarrier (bundleTsAndCpu r.ts r.cpu.toUInt64)
    [w, w₂]
  | .end_ => [encodeEnd]
  | .malloc | .free | .tok | .freeSized | .realloc | .memalign => []

def OuterRecord.write (r : OuterRecord) : List UInt8 := writeWords r.words ++ r.body

/-- An outer record as an encoder writes it: its fields have room in the words, and the fields that
its type does not have are zero. -/
def OuterRecord.WellFormed (r : OuterRecord) : Prop :=
  (r.ts.toNat % 1024 = 0 ∧ r.cpu.toNat < 1024) ∧
    match r.type with
    | .buf => r.threadId.toNat < 2 ^ 61
    | .death => r.threadId.toNat < 2 ^ 56 ∧ r.body = []
    | .syncBarrier => r.threadId = 0 ∧ r.body = []
    | .end_ => r.threadId = 0 ∧ r.ts = 0 ∧ r.cpu = 0 ∧ r.body = []
    | .malloc | .free | .tok | .freeSized | .realloc | .memalign => False

/-! ### Sizes of buffers -/

/-- The size that the buffer record at the front declares, and the bytes after its words. -/
def declaredSize? (bytes : List UInt8) : Option (UInt64 × List UInt8) := do
  let (firstWord, rest) ← readVarint bytes
  if EventType.ofCode? (decodeType firstWord) = some .buf then
    let (_, rest) ← readVarint rest
    readVarint rest
  else none

/-- The end of the buffer that the bytes at a place start with wraps around. -/
def WrapsAround (place : UInt64) (bytes : List UInt8) : Prop :=
  match declaredSize? bytes with
  | some (size, rest) => 2 ^ 64 ≤ place.toNat + (bytes.length - rest.length) + size.toNat
  | none => False

instance (place : UInt64) (bytes : List UInt8) : Decidable (WrapsAround place bytes) := by
  unfold WrapsAround
  split <;> infer_instance

end MallocTraceReplay
