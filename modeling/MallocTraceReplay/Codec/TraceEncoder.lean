import MallocTraceReplay.Codec.AltVarint

/-!
# `MallocTraceEncoder`

The words of a trace.  The first word of every record carries its type in the low three bits, or
in the low eight when those three are all set.  Sizes are in units of eight bytes and, like the
tokens of frees, are written as zigzagged differences from the previous ones of the thread; the
tokens of allocations are not written but counted from the last `Tok` event.
-/

namespace MallocTraceReplay.MallocTraceEncoder

open AltVarintCodec

/-- The magic word at the start of a trace. -/
def kMagic : UInt32 := 0x6CBD63E4

/-! ### Record types -/

/-- The record types. -/
inductive EventType
  | malloc | free | tok | buf | freeSized
  | death | end_ | realloc | memalign | syncBarrier
  deriving DecidableEq, Repr

def kTypeShift : UInt64 := 3
def kTypeMask : UInt64 := 0x7
def kExtTypeShift : UInt64 := 8
def kExtTypeMask : UInt64 := 0xff
def kEventExtBase : UInt64 := 0x07

/-- The code of a record type. -/
def EventType.code : EventType → UInt64
  | .malloc => 0x00
  | .free => 0x01
  | .tok => 0x02
  | .buf => 0x03
  | .freeSized => 0x04
  | .death => kEventExtBase + 0o00
  | .end_ => kEventExtBase + 0o10
  | .realloc => kEventExtBase + 0o20
  | .memalign => kEventExtBase + 0o30
  | .syncBarrier => kEventExtBase + 0o40

/-- The `case` of a `switch` over the record types that a code selects (`none`: `default`). -/
def EventType.ofCode? (code : UInt64) : Option EventType :=
  [malloc, free, tok, buf, freeSized, death, end_, realloc, memalign, syncBarrier].find?
    fun t => t.code = code

def decodeType (firstWord : UInt64) : UInt64 :=
  let evtype := firstWord &&& kTypeMask
  if evtype ≠ kEventExtBase then evtype else firstWord &&& kExtTypeMask

/-! ### Time stamps -/

/-- The bits of a time stamp; the ten below carry the cpu. -/
def kTSMask : UInt64 := ~~~(((1 : UInt64) <<< 10) - 1)

def bundleTsAndCpu (ts cpu : UInt64) : UInt64 :=
  (ts &&& kTSMask) ||| (cpu &&& ~~~kTSMask)

/-- `unbundle_ts_and_cpu`: the time stamp and the cpu. -/
def unbundleTsAndCpu (word : UInt64) : UInt64 × UInt64 :=
  (word &&& kTSMask, word &&& ~~~kTSMask)

/-! ### Encoding

The functions return the words and the new values of the thread's `prev_size` and
`prev_token`. -/

/-- The signed number of eight-byte units of a size, rounded up. -/
def sizeUnits (size : UInt64) : Int64 := ((size + 7) >>> 3).toInt64

def encodeMalloc (size : UInt64) (prevSize : Int64) : UInt64 × Int64 :=
  let size := sizeUnits size
  ((zigzag (size - prevSize) <<< kTypeShift) ||| EventType.malloc.code, size)

def encodeFree (token prevToken : UInt64) : UInt64 × UInt64 :=
  ((zigzag (token - prevToken).toInt64 <<< kTypeShift) ||| EventType.free.code, token)

def encodeFreeSized (token prevToken : UInt64) : UInt64 × UInt64 :=
  ((zigzag (token - prevToken).toInt64 <<< kTypeShift) ||| EventType.freeSized.code, token)

def encodeRealloc (oldToken newSize : UInt64) (prevSize : Int64) (prevToken : UInt64) :
    (UInt64 × UInt64) × Int64 × UInt64 :=
  let size := sizeUnits newSize
  let toEncode := (zigzag (size - prevSize) <<< kExtTypeShift) ||| EventType.realloc.code
  let toEncode2 := zigzag (oldToken - prevToken).toInt64
  ((toEncode, toEncode2), size, oldToken)

def encodeMemalign (size alignment : UInt64) (prevSize : Int64) : (UInt64 × UInt64) × Int64 :=
  let size := sizeUnits size
  (((zigzag (size - prevSize) <<< kExtTypeShift) ||| EventType.memalign.code, alignment), size)

def encodeBuffer (threadId tsAndCpu size : UInt64) : UInt64 × UInt64 × UInt64 :=
  ((threadId <<< kTypeShift) ||| EventType.buf.code, tsAndCpu, size)

def encodeToken (tokenBase tsAndCpu : UInt64) : UInt64 × UInt64 :=
  ((tokenBase <<< kTypeShift) ||| EventType.tok.code, tsAndCpu)

def encodeDeath (threadId tsAndCpu : UInt64) : UInt64 × UInt64 :=
  ((threadId <<< kExtTypeShift) ||| EventType.death.code, tsAndCpu)

def encodeEnd : UInt64 := EventType.end_.code

def encodeSyncBarrier (tsAndCpu : UInt64) : UInt64 × UInt64 :=
  (EventType.syncBarrier.code, tsAndCpu)

/-! ### Decoding

The functions return the fields of the event and the new values of the thread's `prev_size`,
`prev_token` and `malloc_tok_seq`, all of them unsigned. -/

/-- `size`, `token`, then `prev_size`, `malloc_tok_seq`. -/
def decodeMalloc (firstWord prevSize mallocTokSeq : UInt64) :
    (UInt64 × UInt64) × UInt64 × UInt64 :=
  let sz := (unzigzag (firstWord >>> kTypeShift)).toUInt64 + prevSize
  ((sz <<< 3, mallocTokSeq), sz, mallocTokSeq + 1)

/-- `token`, then `prev_token`. -/
def decodeFree (firstWord prevToken : UInt64) : UInt64 × UInt64 :=
  let tok := (unzigzag (firstWord >>> kTypeShift)).toUInt64 + prevToken
  (tok, tok)

/-- `token`, then `prev_token`. -/
def decodeFreeSized (firstWord prevToken : UInt64) : UInt64 × UInt64 :=
  let tok := (unzigzag (firstWord >>> kTypeShift)).toUInt64 + prevToken
  (tok, tok)

/-- `old_token`, `new_token`, `new_size`, then `prev_size`, `prev_token`, `malloc_tok_seq`. -/
def decodeRealloc (firstWord secondWord prevSize prevToken mallocTokSeq : UInt64) :
    (UInt64 × UInt64 × UInt64) × UInt64 × UInt64 × UInt64 :=
  let sz := (unzigzag (firstWord >>> kExtTypeShift)).toUInt64 + prevSize
  let tok := (unzigzag secondWord).toUInt64 + prevToken
  ((tok, mallocTokSeq, sz <<< 3), sz, tok, mallocTokSeq + 1)

/-- `size`, `token`, `alignment`, then `prev_size`, `malloc_tok_seq`. -/
def decodeMemalign (firstWord secondWord prevSize mallocTokSeq : UInt64) :
    (UInt64 × UInt64 × UInt64) × UInt64 × UInt64 :=
  let sz := (unzigzag (firstWord >>> kExtTypeShift)).toUInt64 + prevSize
  ((sz <<< 3, mallocTokSeq, secondWord), sz, mallocTokSeq + 1)

/-- `thread_id`, `ts`, `cpu`, `size`. -/
def decodeBuffer (firstWord secondWord thirdWord : UInt64) :
    UInt64 × UInt64 × UInt64 × UInt64 :=
  let (ts, cpu) := unbundleTsAndCpu secondWord
  (firstWord >>> kTypeShift, ts, cpu, thirdWord)

/-- `token_base`, `ts`, `cpu`. -/
def decodeToken (firstWord secondWord : UInt64) : UInt64 × UInt64 × UInt64 :=
  let (ts, cpu) := unbundleTsAndCpu secondWord
  (firstWord >>> kTypeShift, ts, cpu)

/-- `thread_id`, `ts`, `cpu`. -/
def decodeDeath (firstWord secondWord : UInt64) : UInt64 × UInt64 × UInt64 :=
  let (ts, cpu) := unbundleTsAndCpu secondWord
  (firstWord >>> kExtTypeShift, ts, cpu)

/-- `ts`, `cpu`. -/
def decodeSyncBarrier (_firstWord secondWord : UInt64) : UInt64 × UInt64 :=
  unbundleTsAndCpu secondWord

end MallocTraceReplay.MallocTraceEncoder
