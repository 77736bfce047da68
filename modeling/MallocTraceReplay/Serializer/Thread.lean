import MallocTraceReplay.Stream.OuterEvStream

/-!
# The threads of the serializer

A thread has a queue of buffers, reads the front one through a stream of its own, and has its next
event decoded ahead of time in `last_event`.
-/

namespace MallocTraceReplay

open MallocTraceEncoder

/-- An inner event, as it is passed to the receiver (`Tok` events are not). -/
inductive InnerEvent
  | malloc (token size : UInt64)
  | memalign (token size alignment : UInt64)
  | free (token : UInt64)
  | freeSized (token : UInt64)
  | realloc (oldToken newToken newSize : UInt64)
  deriving DecidableEq, Repr

/-- The event after `memset(&last_event, 0, sizeof(last_event))`. -/
def InnerEvent.zero : InnerEvent := .malloc 0 0

/-! ### `ThreadState` -/

structure ThreadState where
  threadId : UInt64
  prevSize : UInt64
  prevToken : UInt64
  mallocTokSeq : UInt64
  lastTs : UInt64
  lastCpu : UInt64
  deriving DecidableEq, Repr

namespace ThreadState

def consumeMalloc (t : ThreadState) (firstWord : UInt64) : InnerEvent × ThreadState :=
  let ((size, token), prevSize, seq) := decodeMalloc firstWord t.prevSize t.mallocTokSeq
  (.malloc token size, { t with prevSize := prevSize, mallocTokSeq := seq })

def consumeFree (t : ThreadState) (firstWord : UInt64) : InnerEvent × ThreadState :=
  let (token, prevToken) := decodeFree firstWord t.prevToken
  (.free token, { t with prevToken := prevToken })

def consumeFreeSized (t : ThreadState) (firstWord : UInt64) : InnerEvent × ThreadState :=
  let (token, prevToken) := decodeFreeSized firstWord t.prevToken
  (.freeSized token, { t with prevToken := prevToken })

def consumeRealloc (t : ThreadState) (firstWord secondWord : UInt64) : InnerEvent × ThreadState :=
  let ((oldToken, newToken, newSize), prevSize, prevToken, seq) :=
    decodeRealloc firstWord secondWord t.prevSize t.prevToken t.mallocTokSeq
  (.realloc oldToken newToken newSize,
    { t with prevSize := prevSize, prevToken := prevToken, mallocTokSeq := seq })

def consumeMemalign (t : ThreadState) (firstWord secondWord : UInt64) :
    InnerEvent × ThreadState :=
  let ((size, token, alignment), prevSize, seq) :=
    decodeMemalign firstWord secondWord t.prevSize t.mallocTokSeq
  (.memalign token size alignment, { t with prevSize := prevSize, mallocTokSeq := seq })

def consumeTok (t : ThreadState) (firstWord secondWord : UInt64) : ThreadState :=
  let (tokenBase, ts, cpu) := decodeToken firstWord secondWord
  { t with lastCpu := cpu, lastTs := ts, mallocTokSeq := tokenBase }

def updateWithBuf (t : ThreadState) (ev : OuterEvent) : ThreadState :=
  { t with lastCpu := ev.cpu.toUInt64, lastTs := ev.ts }

end ThreadState

/-! ### `FullThreadState` -/

/-- `ConstMemStream(begin, end)`, over the memory of the process. -/
def constMemStream (mem : UInt64 → Option UInt8) (begin_ end_ : UInt64) : MemStream ConstMapper :=
  .new { begin_ := begin_, size_ := end_ - begin_, mem := mem }

structure FullThreadState extends ThreadState where
  activeBuf : OuterEvent
  lastEvent : InnerEvent
  activeStream : Option (MemStream ConstMapper)
  bufs : List OuterEvent
  dead : Bool
  signalled : Bool
  inPendingFrees : Bool

/-- The recursion bound for one event: a `Tok` event takes at least one of the bytes left. -/
def bytesLeft (s : MemStream ConstMapper) : ℕ :=
  (s.mapper.begin_ + s.mapper.size_).toNat - s.ptr.toNat

/-- The body of `update_last_event_inner`: the next event of the stream, if there is one. -/
def readInner (stack : StackBytes) : ℕ → ThreadState → MemStream ConstMapper →
    Except Abort (Option InnerEvent × ThreadState × MemStream ConstMapper)
  | 0, _, _ => .error .outOfFuel
  | fuel + 1, t, s => do
    let (more, s) ← s.hasMore
    if !more then return (none, t, s)
    else
      let (firstWord, s) ← s.mustReadVarint stack
      match EventType.ofCode? (decodeType firstWord) with
      | some .malloc =>
        let (ev, t) := t.consumeMalloc firstWord
        return (some ev, t, s)
      | some .free =>
        let (ev, t) := t.consumeFree firstWord
        return (some ev, t, s)
      | some .tok =>
        let (secondWord, s) ← s.mustReadVarint stack
        readInner stack fuel (t.consumeTok firstWord secondWord) s
      | some .realloc =>
        let (secondWord, s) ← s.mustReadVarint stack
        let (ev, t) := t.consumeRealloc firstWord secondWord
        return (some ev, t, s)
      | some .memalign =>
        let (secondWord, s) ← s.mustReadVarint stack
        let (ev, t) := t.consumeMemalign firstWord secondWord
        return (some ev, t, s)
      | some .freeSized =>
        let (ev, t) := t.consumeFreeSized firstWord
        return (some ev, t, s)
      | _ => throw (.panic "unknown type")

namespace FullThreadState

def updateLastEventInner (stack : StackBytes) (t : FullThreadState) :
    Except Abort (Bool × FullThreadState) :=
  match t.activeStream with
  | none => .error .fault
  | some s => do
    let (ev?, ts, s) ← readInner stack (bytesLeft s + 1) t.toThreadState s
    return (ev?.isSome, { t with
      toThreadState := ts, lastEvent := ev?.getD .zero, activeStream := some s })

/-- The loop of `update_last_event`; every iteration but the last drops a buffer. -/
def updateLoop (stack : StackBytes) (mem : UInt64 → Option UInt8) :
    ℕ → FullThreadState → Except Abort (Bool × FullThreadState)
  | 0, _ => .error .outOfFuel
  | fuel + 1, t => do
    let (ok, t) ← t.updateLastEventInner stack
    if ok then return (true, t)
    else
      let t := { t with toThreadState := t.toThreadState.updateWithBuf t.activeBuf }
      match t.bufs with
      | [] => throw .fault
      | [_] => return (false, { t with bufs := [], activeStream := none })
      | _ :: next :: rest =>
        updateLoop stack mem fuel { t with
          bufs := next :: rest, activeBuf := next,
          activeStream := some (constMemStream mem next.bufStart next.bufEnd) }

/-- The thread with its stream reading from the memory as it is now. -/
def seeing (mem : UInt64 → Option UInt8) (t : FullThreadState) : FullThreadState :=
  { t with activeStream :=
      t.activeStream.map fun s => { s with mapper := { s.mapper with mem := mem } } }

/-- `update_last_event`: whether there is a next event, now in `last_event`. -/
def updateLastEvent (stack : StackBytes) (mem : UInt64 → Option UInt8) (t : FullThreadState) :
    Except Abort (Bool × FullThreadState) :=
  updateLoop stack mem (t.bufs.length + 1) (t.seeing mem)

end FullThreadState

end MallocTraceReplay
