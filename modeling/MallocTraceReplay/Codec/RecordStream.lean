import MallocTraceReplay.Codec.TraceWriter

/-!
# Streams of records

The bytes after the magic word of a trace, as any calls of the encode functions give them: the
arguments have no bounds, and an inner event is encoded against whatever `prev_size` and
`prev_token` its caller holds.  The time of a record is the word that carries it with the cpu.
-/

namespace MallocTraceReplay

open AltVarintCodec MallocTraceEncoder

/-- A record before the end, with the arguments of the calls that encode it. -/
inductive EncodedRecord
  | buf (threadId tsAndCpu : UInt64) (events : List (EncoderState × InnerRecord))
  | death (threadId tsAndCpu : UInt64)
  | syncBarrier (tsAndCpu : UInt64)
  deriving DecidableEq, Repr

/-- The words of the events of a buffer. -/
def eventWords (events : List (EncoderState × InnerRecord)) : List UInt64 :=
  events.flatMap fun e => (e.2.words e.1).1

namespace EncodedRecord

/-- The inner events of a record. -/
def events : EncodedRecord → List (EncoderState × InnerRecord)
  | .buf _ _ events => events
  | .death _ _ => []
  | .syncBarrier _ => []

def type : EncodedRecord → EventType
  | .buf _ _ _ => .buf
  | .death _ _ => .death
  | .syncBarrier _ => .syncBarrier

/-- The words of a record, without its events. -/
def headWords : EncodedRecord → List UInt64
  | .buf threadId tsAndCpu events =>
    let (w, w₂, w₃) := encodeBuffer threadId tsAndCpu
      (UInt64.ofNat (writeWords (eventWords events)).length)
    [w, w₂, w₃]
  | .death threadId tsAndCpu =>
    let (w, w₂) := encodeDeath threadId tsAndCpu
    [w, w₂]
  | .syncBarrier tsAndCpu =>
    let (w, w₂) := encodeSyncBarrier tsAndCpu
    [w, w₂]

def write (r : EncodedRecord) : List UInt8 := writeWords (r.headWords ++ eventWords r.events)

end EncodedRecord

def writeEncoded (records : List EncodedRecord) : List UInt8 := records.flatMap (·.write)

def endBytes : List UInt8 := writeWords [encodeEnd]

/-- **A stream** of some records, ended by `End`. -/
def recordStream (records : List EncodedRecord) : List UInt8 := writeEncoded records ++ endBytes

/-- The type of an inner event that is written. -/
def InnerRecord.type : InnerRecord → EventType
  | .tok _ _ _ => .tok
  | .malloc _ => .malloc
  | .memalign _ _ => .memalign
  | .free _ => .free
  | .freeSized _ => .freeSized
  | .realloc _ _ => .realloc

/-- The number of inner events of a type. -/
def eventCount (type : EventType) (records : List EncodedRecord) : ℕ :=
  (records.flatMap (·.events)).countP fun e => e.2.type = type

end MallocTraceReplay
