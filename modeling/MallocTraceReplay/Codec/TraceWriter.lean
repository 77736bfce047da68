import MallocTraceReplay.Codec.TraceEncoder
import MallocTraceReplay.Codec.Equiv.AltVarint

/-!
# Writing a trace

A trace as a writer of the format produces it: the magic word, and then the outer records one after
another, every word of them encoded as a varint.  The encoder's `prev_size` and `prev_token` of a
thread start at zero and are kept across its buffers.
-/

namespace MallocTraceReplay

open AltVarintCodec MallocTraceEncoder

/-! ### Records -/

/-- What is written for an inner event. -/
inductive InnerRecord
  | tok (tokenBase ts cpu : UInt64)
  | malloc (size : UInt64)
  | memalign (size alignment : UInt64)
  | free (token : UInt64)
  | freeSized (token : UInt64)
  | realloc (oldToken newSize : UInt64)
  deriving DecidableEq, Repr

/-- What is written for an outer record; a buffer carries inner events. -/
inductive TraceRecord
  | buf (threadId ts cpu : UInt64) (events : List InnerRecord)
  | death (threadId ts cpu : UInt64)
  | syncBarrier (ts cpu : UInt64)
  | end_
  deriving DecidableEq, Repr

/-- The sizes, tokens and times that the format has room for. -/
def InnerRecord.Bounded : InnerRecord → Prop
  | .tok tokenBase ts cpu => tokenBase.toNat < 2 ^ 61 ∧ ts.toNat % 1024 = 0 ∧ cpu.toNat < 1024
  | .malloc size => size.toNat ≤ 2 ^ 58 - 8
  | .memalign size _ => size.toNat ≤ 2 ^ 58 - 8
  | .free token => token.toNat < 2 ^ 60
  | .freeSized token => token.toNat < 2 ^ 60
  | .realloc oldToken newSize => oldToken.toNat < 2 ^ 60 ∧ newSize.toNat ≤ 2 ^ 58 - 8

/-- The thread ids, times and inner events that the format has room for. -/
def TraceRecord.Bounded : TraceRecord → Prop
  | .buf threadId ts cpu events =>
    threadId.toNat < 2 ^ 56 ∧ ts.toNat % 1024 = 0 ∧ cpu.toNat < 1024 ∧ ∀ r ∈ events, r.Bounded
  | .death threadId ts cpu => threadId.toNat < 2 ^ 56 ∧ ts.toNat % 1024 = 0 ∧ cpu.toNat < 1024
  | .syncBarrier ts cpu => ts.toNat % 1024 = 0 ∧ cpu.toNat < 1024
  | .end_ => True

/-- The `prev_size` and `prev_token` of a thread, on the side of the encoder. -/
structure EncoderState where
  prevSize : Int64
  prevToken : UInt64
  deriving DecidableEq, Repr

def EncoderState.init : EncoderState := { prevSize := 0, prevToken := 0 }

/-! ### Words and bytes -/

/-- The bytes of some words. -/
def writeWords (words : List UInt64) : List UInt8 := words.flatMap encode

/-- The words of an inner event. -/
def InnerRecord.words (s : EncoderState) : InnerRecord → List UInt64 × EncoderState
  | .tok tokenBase ts cpu =>
    let (w, w₂) := encodeToken tokenBase (bundleTsAndCpu ts cpu)
    ([w, w₂], s)
  | .malloc size =>
    let (w, prevSize) := encodeMalloc size s.prevSize
    ([w], { s with prevSize := prevSize })
  | .memalign size alignment =>
    let ((w, w₂), prevSize) := encodeMemalign size alignment s.prevSize
    ([w, w₂], { s with prevSize := prevSize })
  | .free token =>
    let (w, prevToken) := encodeFree token s.prevToken
    ([w], { s with prevToken := prevToken })
  | .freeSized token =>
    let (w, prevToken) := encodeFreeSized token s.prevToken
    ([w], { s with prevToken := prevToken })
  | .realloc oldToken newSize =>
    let ((w, w₂), prevSize, prevToken) := encodeRealloc oldToken newSize s.prevSize s.prevToken
    ([w, w₂], { prevSize := prevSize, prevToken := prevToken })

/-- The bytes of a buffer. -/
def writeEvents : EncoderState → List InnerRecord → List UInt8 × EncoderState
  | s, [] => ([], s)
  | s, r :: rs =>
    let (ws, s) := r.words s
    let (bytes, s) := writeEvents s rs
    (writeWords ws ++ bytes, s)

/-- The bytes of an outer record. -/
def writeRecord (st : UInt64 → EncoderState) : TraceRecord → List UInt8 × (UInt64 → EncoderState)
  | .buf threadId ts cpu events =>
    let (body, s) := writeEvents (st threadId) events
    let (w, w₂, w₃) := encodeBuffer threadId (bundleTsAndCpu ts cpu) (UInt64.ofNat body.length)
    (writeWords [w, w₂, w₃] ++ body, fun i => if i = threadId then s else st i)
  | .death threadId ts cpu =>
    let (w, w₂) := encodeDeath threadId (bundleTsAndCpu ts cpu)
    (writeWords [w, w₂], st)
  | .syncBarrier ts cpu =>
    let (w, w₂) := encodeSyncBarrier (bundleTsAndCpu ts cpu)
    (writeWords [w, w₂], st)
  | .end_ => (writeWords [encodeEnd], st)

def writeRecords : (UInt64 → EncoderState) → List TraceRecord → List UInt8
  | _, [] => []
  | st, r :: rs => (writeRecord st r).1 ++ writeRecords (writeRecord st r).2 rs

/-- The magic word as it is written. -/
def magicBytes : List UInt8 := (storeBytes kMagic.toUInt64).take 4

/-- **A trace** of some records. -/
def writeTrace (records : List TraceRecord) : List UInt8 :=
  magicBytes ++ writeRecords (fun _ => .init) records

end MallocTraceReplay
