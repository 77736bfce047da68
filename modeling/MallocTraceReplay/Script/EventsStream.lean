import Mathlib.Data.Int.Bitwise

/-!
# `EventsStream` of `decode-events.rb`

The script that prints a trace decodes its records and their events one after another.  Its integers
have no bounds; a call that fails raises, which ends the script.
-/

namespace MallocTraceReplay

/-- What is decoded, with integers of some type: the classes of `Events`. -/
inductive StreamEvent (α : Type)
  | malloc (threadId tok size : α)
  | free (threadId tok : α)
  | freeSized (threadId tok : α)
  | realloc (threadId tok size oldTok : α)
  | memalign (threadId tok size align : α)
  | tok (tokenBase ts cpu : α)
  | death (threadId ts cpu : α)
  | buf (threadId ts cpu size : α)
  | end_
  | syncBarrier (ts cpu : α)
  deriving DecidableEq, Repr

def StreamEvent.map {α β : Type} (f : α → β) : StreamEvent α → StreamEvent β
  | .malloc threadId t size => .malloc (f threadId) (f t) (f size)
  | .free threadId t => .free (f threadId) (f t)
  | .freeSized threadId t => .freeSized (f threadId) (f t)
  | .realloc threadId t size oldTok => .realloc (f threadId) (f t) (f size) (f oldTok)
  | .memalign threadId t size align => .memalign (f threadId) (f t) (f size) (f align)
  | .tok tokenBase ts cpu => .tok (f tokenBase) (f ts) (f cpu)
  | .death threadId ts cpu => .death (f threadId) (f ts) (f cpu)
  | .buf threadId ts cpu size => .buf (f threadId) (f ts) (f cpu) (f size)
  | .end_ => .end_
  | .syncBarrier ts cpu => .syncBarrier (f ts) (f cpu)

namespace Script

/-- What a call raises. -/
inductive Raised
  /-- A name that is neither a variable nor a method. -/
  | nameError
  /-- A method of `nil` that it does not have. -/
  | noMethodError
  /-- `nil` where something else is needed. -/
  | typeError
  /-- `raise`. -/
  | runtimeError
  deriving DecidableEq, Repr

/-! ### `Helpers` -/

/-- The loop of `leading_zeros_slow`; `fuel` bounds its iterations. -/
def leadingZerosLoop : ℕ → ℕ → ℕ → ℕ
  | 0, c, _ => c
  | fuel + 1, c, a => if a &&& 1 = 0 then leadingZerosLoop fuel (c + 1) (a >>> 1) else c

/-- `leading_zeros_slow`, of a number that is not `0`: it counts from the lowest bit. -/
def leadingZerosSlow (a : ℕ) : ℕ := leadingZerosLoop a 0 a

def unzigzag (i : ℕ) : ℤ :=
  let sign := i &&& 1
  Int.xor (i >>> 1 : ℕ) (-(sign : ℤ))

/-! ### `read_varint` -/

/-- `n` more bytes are put on top of `b`, which has `off` bits. -/
def readBytes : ℕ → (b off : ℕ) → List UInt8 → Except Raised (ℕ × List UInt8)
  | 0, b, _, bytes => .ok (b, bytes)
  | _ + 1, _, _, [] => .error .noMethodError
  | n + 1, b, off, x :: bytes => readBytes n (b ||| (x.toNat <<< off)) (off + 8) bytes

/-- `read_varint`: the word at the front, and the bytes after it. -/
def readVarint : List UInt8 → Except Raised (ℕ × List UInt8)
  | [] => .error .typeError
  | x :: bytes =>
    let b := x.toNat
    if b = 0 then
      match readBytes 8 b 0 bytes with
      | .error e => .error e
      -- `return rv` in the branch that does not assign `rv`
      | .ok _ => .error .nameError
    else do
      let bits := leadingZerosSlow b
      let (b, rest) ← readBytes bits b 8 bytes
      return (b >>> (bits + 1), rest)

/-! ### `ThreadState` -/

structure ThreadState where
  threadId : ℤ
  prevSize : ℤ := 0
  prevToken : ℤ := 0
  mallocTokSeq : Option ℤ := none
  deriving DecidableEq, Repr

namespace ThreadState

/-- `@malloc_tok_seq += 1`, and the value before. -/
def nextTok (t : ThreadState) : Except Raised (ℤ × ThreadState) :=
  match t.mallocTokSeq with
  | none => .error .noMethodError
  | some tok => .ok (tok, { t with mallocTokSeq := some (tok + 1) })

def consumeMalloc (event : ℕ) (t : ThreadState) : Except Raised (StreamEvent ℤ × ThreadState) := do
  let sz := unzigzag (event >>> 3) + t.prevSize
  let t := { t with prevSize := sz }
  let sz := sz <<< (3 : ℕ)
  let (tok, t) ← t.nextTok
  return (.malloc t.threadId tok sz, t)

def consumeFree (event : ℕ) (t : ThreadState) : Except Raised (StreamEvent ℤ × ThreadState) :=
  let tok := unzigzag (event >>> 3) + t.prevToken
  .ok (.free t.threadId tok, { t with prevToken := tok })

def consumeFreeSized (firstWord : ℕ) (t : ThreadState) :
    Except Raised (StreamEvent ℤ × ThreadState) :=
  let tok := unzigzag (firstWord >>> 3) + t.prevToken
  .ok (.freeSized t.threadId tok, { t with prevToken := tok })

/-- The first word is shifted by three here too, although its type takes eight bits. -/
def consumeRealloc (firstWord secondWord : ℕ) (t : ThreadState) :
    Except Raised (StreamEvent ℤ × ThreadState) := do
  let sz := unzigzag (firstWord >>> 3) + t.prevSize
  let t := { t with prevSize := sz }
  let sz := sz <<< (3 : ℕ)
  let (tok, t) ← t.nextTok
  let oldTok := unzigzag secondWord + t.prevToken
  return (.realloc t.threadId tok sz oldTok, { t with prevToken := oldTok })

def consumeMemalign (firstWord secondWord : ℕ) (t : ThreadState) :
    Except Raised (StreamEvent ℤ × ThreadState) := do
  let sz := unzigzag (firstWord >>> 8) + t.prevSize
  let t := { t with prevSize := sz }
  let sz := sz <<< (3 : ℕ)
  let (tok, t) ← t.nextTok
  return (.memalign t.threadId tok sz secondWord, t)

def consumeTok (newBase : ℕ) (tsAndCpu : ℤ × ℤ) (t : ThreadState) :
    Except Raised (StreamEvent ℤ × ThreadState) :=
  .ok (.tok newBase tsAndCpu.1 tsAndCpu.2, { t with mallocTokSeq := some newBase })

end ThreadState

/-! ### `EventsStream` -/

/-- `@io` is the `StringIO` of a buffer, with the bytes left of it, or `@main_io` (`none`). -/
structure EventsStream where
  threadStates : ℤ → Option ThreadState
  currThread : Option ThreadState
  buf : Option (List UInt8)
  main : List UInt8
  done : Bool

namespace EventsStream

def new (io : List UInt8) : EventsStream where
  threadStates := fun _ => none
  currThread := none
  buf := none
  main := io
  done := false

/-- The bytes left of `@io`. -/
def io (s : EventsStream) : List UInt8 := s.buf.getD s.main

/-- `@io` with other bytes left. -/
def setIo (s : EventsStream) (bytes : List UInt8) : EventsStream :=
  match s.buf with
  | some _ => { s with buf := some bytes }
  | none => { s with main := bytes }

def readVarint (s : EventsStream) : Except Raised (ℕ × EventsStream) := do
  let (word, rest) ← Script.readVarint s.io
  return (word, s.setIo rest)

def readTsAndCpu (s : EventsStream) : Except Raised ((ℤ × ℤ) × EventsStream) := do
  let (int1, s) ← s.readVarint
  let ts := Int.land int1 (-1024)
  let cpu := Int.land int1 1023
  return ((ts, cpu), s)

/-- A method of `@curr_thread` is called.  The object is the one in `@thread_states`, unless it was
deleted there. -/
def consume (f : ThreadState → Except Raised (StreamEvent ℤ × ThreadState)) (s : EventsStream) :
    Except Raised (StreamEvent ℤ × EventsStream) :=
  match s.currThread with
  | none => .error .noMethodError
  | some t => do
    let (ev, t') ← f t
    return (ev, { s with
      currThread := some t'
      threadStates := fun id =>
        if id = t.threadId ∧ (s.threadStates id).isSome then some t' else s.threadStates id })

/-- `if @io.eof?` at the beginning of `next`: back to `@main_io`. -/
def refill (s : EventsStream) : Except Raised EventsStream :=
  if s.io.isEmpty then
    if s.main.isEmpty then .error .runtimeError
    else .ok { s with currThread := none, buf := none }
  else .ok s

/-- The `Buf` case of `next`.  `raise unless @io = @main_io` assigns and does not compare. -/
def nextBuf (s : EventsStream) (threadId : ℕ) : Except Raised (StreamEvent ℤ × EventsStream) := do
  let s := { s with buf := none }
  let ((ts, cpu), s) ← s.readTsAndCpu
  let (bufSize, s) ← s.readVarint
  -- `read` gives `nil` at the end of the file, unless nothing is asked for
  if bufSize > 0 ∧ s.main.isEmpty then throw .typeError
  else
    let s := { s with buf := some (s.main.take bufSize), main := s.main.drop bufSize }
    let t := (s.threadStates threadId).getD { threadId := threadId }
    return (.buf threadId ts cpu bufSize, { s with
      currThread := some t
      threadStates := fun id => if id = threadId then some t else s.threadStates id })

/-- The `Death` case of `next`. -/
def nextDeath (s : EventsStream) (threadId : ℕ) : Except Raised (StreamEvent ℤ × EventsStream) := do
  let ((ts, cpu), s) ← s.readTsAndCpu
  if (s.threadStates threadId).isNone then throw .runtimeError
  else
    return (.death threadId ts cpu, { s with
      threadStates := fun id => if id = threadId then none else s.threadStates id })

/-- The `case evtype` of `next`. -/
def nextCase (s : EventsStream) (first firstHi evtype : ℕ) :
    Except Raised (StreamEvent ℤ × EventsStream) := do
  match evtype with
  | 0 => s.consume (ThreadState.consumeMalloc first)
  | 1 => s.consume (ThreadState.consumeFree first)
  | 2 =>
    let (tsAndCpu, s) ← s.readTsAndCpu
    s.consume (ThreadState.consumeTok firstHi tsAndCpu)
  | 3 => s.nextBuf firstHi
  | 4 => s.consume (ThreadState.consumeFreeSized first)
  | 0o07 => s.nextDeath firstHi
  | 0o17 => return (.end_, { s with done := true })
  | 0o27 =>
    let (second, s) ← s.readVarint
    s.consume (ThreadState.consumeRealloc first second)
  | 0o37 =>
    let (second, s) ← s.readVarint
    s.consume (ThreadState.consumeMemalign first second)
  | 0o47 =>
    let ((ts, cpu), s) ← s.readTsAndCpu
    return (.syncBarrier ts cpu, s)
  | _ => throw .runtimeError

/-- `EventsStream#next`. -/
def next (s : EventsStream) : Except Raised (StreamEvent ℤ × EventsStream) :=
  if s.done then .error .runtimeError
  else do
    let s ← s.refill
    let (first, s) ← s.readVarint
    let evtype := first &&& 7
    if evtype = 7 then s.nextCase first (first >>> 8) (first &&& 0xff)
    else s.nextCase first (first >>> 3) evtype

/-- `while not s.eof?`, for a number of calls of `next` at most: the events that they return, or
`none` when the calls do not reach the end. -/
def nextAll : ℕ → EventsStream → Except Raised (Option (List (StreamEvent ℤ)))
  | 0, s => .ok (if s.done then some [] else none)
  | fuel + 1, s =>
    if s.done then .ok (some [])
    else do
      let (ev, s) ← s.next
      let evs ← nextAll fuel s
      return evs.map (ev :: ·)

end EventsStream

end Script

end MallocTraceReplay
