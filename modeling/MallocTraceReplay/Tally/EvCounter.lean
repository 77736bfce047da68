import MallocTraceReplay.Stream.MemStream
import MallocTraceReplay.Codec.TraceEncoder

/-!
# `EvCounter`

The tally of the events of a trace walks over the words of all records, those in buffers included,
and never uses the size of a buffer.  It has a `MemStream` of its own, whose window is extended by
at least 16 megabytes and which takes ten bytes for the most that a varint needs; the other
functions of that class are those of the serializer's.
-/

namespace MallocTraceReplay

open AltVarintCodec MallocTraceEncoder

/-! ### The stream of the tally -/

namespace TallyStream

variable {M : Type} [Mapper M]

def kRealizeSize : UInt64 := (16 : UInt64) <<< 20

def kMaxVarintSize : UInt64 := 10

def hasAtLeastVarint (s : MemStream M) : Bool := decide (s.ptr + kMaxVarintSize ≤ s.end_)

def realizeMore (s : MemStream M) (minAmount : UInt64) : Except Abort (Bool × MemStream M) := do
  let realizeAmount := s.ptr - s.realizedStart + max minAmount kRealizeSize
  let (gotAmount, mapper) ← Mapper.realize s.mapper s.realizedStart realizeAmount
  let s := { s with end_ := s.realizedStart + gotAmount, mapper := mapper }
  return (decide (s.end_ - s.ptr ≥ minAmount), s)

def hasMore (s : MemStream M) : Except Abort (Bool × MemStream M) :=
  if s.ptr < s.end_ then .ok (true, s)
  else do
    let (_, s) ← realizeMore s 0
    return (decide (s.ptr < s.end_), s)

def advanceBySlow (s : MemStream M) (amount : UInt64) : Except Abort (UInt64 × MemStream M) := do
  let retval := s.ptr
  let (ok, s) ← realizeMore s amount
  if ok then
    return (retval, { s with ptr := s.ptr + amount })
  else if s.permissiveAdvance then
    return (retval, { s with ptr := s.end_ + 1 })
  else
    throw (.panic "trying to realize with min_amount beyond end of data")

def advanceBy (s : MemStream M) (amount : UInt64) : Except Abort (UInt64 × MemStream M) :=
  if s.end_ - s.ptr ≥ amount then .ok (s.ptr, { s with ptr := s.ptr + amount })
  else advanceBySlow s amount

/-- The result of decoding is taken and its bytes are skipped. -/
def takeDecoded (s : MemStream M) (byteAt : ℕ → Option UInt8) :
    Except Abort (UInt64 × MemStream M) :=
  match decodeUnsigned byteAt with
  | none => .error .fault
  | some res => do
    let (_, s) ← advanceBy s res.advance
    return (res.value, s)

/-- `must_read_varint` when a whole varint is in the window. -/
def readVarintFast (s : MemStream M) : Except Abort (UInt64 × MemStream M) :=
  takeDecoded s fun i => Mapper.load s.mapper (s.ptr + UInt64.ofNat i)

/-- `memcpy(tmp, ptr_, end_ - ptr_)`: the ten bytes of `tmp` after it. -/
def fillTmp (stack : StackBytes) (s : MemStream M) : Except Abort (ℕ → Option UInt8) :=
  let n := (s.end_ - s.ptr).toNat
  if n > 10 then .error .fault
  else
    match (List.range n).mapM fun i => Mapper.load s.mapper (s.ptr + UInt64.ofNat i) with
    | none => .error .fault
    | some bytes =>
      .ok fun i => if i < n then bytes[i]? else if i < 10 then some (stack s.ptr i) else none

def readVarintSlow (stack : StackBytes) (s : MemStream M) :
    Except Abort (UInt64 × MemStream M) := do
  let (_, s) ← realizeMore s 0
  -- here `must_read_varint` is called again and finds the varint in the window
  if hasAtLeastVarint s then readVarintFast s
  else
    let tmp ← fillTmp stack s
    takeDecoded s tmp

def tryReadVarint (stack : StackBytes) (s : MemStream M) :
    Except Abort (Option UInt64 × MemStream M) :=
  if hasAtLeastVarint s then do
    let (value, s) ← readVarintFast s
    return (some value, s)
  else do
    let (result, s) ← readVarintSlow stack { s with permissiveAdvance := true }
    let s := { s with permissiveAdvance := false }
    if s.ptr > s.end_ then return (none, { s with ptr := s.end_ })
    else return (some result, s)

end TallyStream

/-! ### The tally -/

/-- The counters are `size_t`.  `barriers` is never counted up and is left out. -/
structure EvCounter (M : Type) where
  s : MemStream M
  mallocs : UInt64 := 0
  frees : UInt64 := 0
  sizedFrees : UInt64 := 0
  other : UInt64 := 0
  lastBuf : UInt64

namespace EvCounter

variable {M : Type} [Mapper M]

/-- The constructor; `last_buf` is not initialised. -/
def new (mapper : M) (lastBuf : UInt64) : EvCounter M :=
  { s := .new mapper, lastBuf := lastBuf }

/-- The words of a record after its first one are skipped, if they are there. -/
def skipWords (stack : StackBytes) : ℕ → MemStream M → Except Abort (Bool × MemStream M)
  | 0, s => .ok (true, s)
  | n + 1, s => do
    let (word?, s) ← TallyStream.tryReadVarint stack s
    match word? with
    | none => return (false, s)
    | some _ => skipWords stack n s

/-- The end of `process_one`: `extra_words` more words, and what is read is given back. -/
def finishOne (ndebug : Bool) (stack : StackBytes) (c : EvCounter M) (extraWords : ℕ) :
    Except Abort (Bool × EvCounter M) := do
  let (ok, s) ← skipWords stack extraWords c.s
  if !ok then return (false, { c with s := s })
  else
    let s ← s.unrealizeUpTo ndebug s.ptr
    return (true, { c with s := s })

/-- `EvCounter::process_one`: whether there may be more. -/
def processOne (ndebug : Bool) (stack : StackBytes) (c : EvCounter M) :
    Except Abort (Bool × EvCounter M) := do
  let (more, s) ← TallyStream.hasMore c.s
  let c := { c with s := s }
  if !more then return (false, c)
  else
    let (firstWord?, s) ← TallyStream.tryReadVarint stack c.s
    let c := { c with s := s }
    match firstWord? with
    | none => return (false, c)
    | some firstWord =>
      match EventType.ofCode? (decodeType firstWord) with
      | some .death => finishOne ndebug stack c 1
      | some .buf => finishOne ndebug stack { c with lastBuf := c.s.ptr } 2
      | some .end_ => return (false, c)
      | some .syncBarrier => finishOne ndebug stack c 1
      | some .malloc => finishOne ndebug stack { c with mallocs := c.mallocs + 1 } 0
      | some .free => finishOne ndebug stack { c with frees := c.frees + 1 } 0
      | some .freeSized => finishOne ndebug stack { c with sizedFrees := c.sizedFrees + 1 } 1
      | some .tok => finishOne ndebug stack c 1
      | some .realloc => finishOne ndebug stack { c with other := c.other + 1 } 1
      | some .memalign => finishOne ndebug stack { c with other := c.other + 1 } 1
      | none => throw .abort

/-- `while (counter.process_one())`, for a number of calls at most: the counter before the call
that returns `false`, and after it. -/
def processAll (ndebug : Bool) (stack : StackBytes) :
    ℕ → EvCounter M → Except Abort (EvCounter M × EvCounter M)
  | 0, _ => .error .outOfFuel
  | fuel + 1, c => do
    let (more, c') ← c.processOne ndebug stack
    if more then processAll ndebug stack fuel c' else return (c, c')

end EvCounter

end MallocTraceReplay
