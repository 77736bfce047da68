import MallocTraceReplay.Serializer.Receiver

/-!
# `SerializeState`

The threads by their ids, the heap of the threads with an event to deliver, the threads that wait
for a token to be allocated, and what the serializer believes the receiver's current thread and
time to be.  A pointer to a thread is the id of the thread in the set.
-/

namespace MallocTraceReplay

/-- `kInvalidThreadID`. -/
def kInvalidThreadID : UInt64 := ~~~0

/-- `kEmptyTok`. -/
def kEmptyTok : UInt64 := ~~~0

structure SerializeState where
  threads : UInt64 → Option FullThreadState
  heap : List UInt64
  toDie : List UInt64
  pendingFrees : List (UInt64 × UInt64)
  recvThreadId : UInt64
  recvTs : UInt64
  recvCpu : UInt64
  /-- The calls made on the receiver, oldest first. -/
  sent : List Sent

namespace SerializeState

def init : SerializeState where
  threads := fun _ => none
  heap := []
  toDie := []
  pendingFrees := []
  recvThreadId := kInvalidThreadID
  recvTs := 0
  recvCpu := 0
  sent := []

/-- The calls as the receiver sees them. -/
def calls (st : SerializeState) : List Call := st.sent.map Sent.call

/-- A call on the receiver. -/
def send (st : SerializeState) (call : Call) (origin : Option Origin) : SerializeState :=
  { st with sent := st.sent ++ [⟨call, origin⟩] }

def setThread (st : SerializeState) (id : UInt64) (t : FullThreadState) : SerializeState :=
  { st with threads := fun i => if i = id then some t else st.threads i }

/-- `threads.erase(*thread)`. -/
def eraseThread (st : SerializeState) (id : UInt64) : SerializeState :=
  { st with threads := fun i => if i = id then none else st.threads i }

/-- The sort key of the heap: the current `last_ts` of a thread. -/
def key (st : SerializeState) (id : UInt64) : ℕ :=
  match st.threads id with
  | some t => t.lastTs.toNat
  | none => 0

def heapPush (env : Env) (st : SerializeState) (id : UInt64) : SerializeState :=
  { st with heap := env.queue.push st.key st.heap id }

def heapPop (env : Env) (st : SerializeState) : SerializeState :=
  { st with heap := env.queue.pop st.key st.heap }

end SerializeState

/-- Where a call made for a thread comes from. -/
def FullThreadState.origin (t : FullThreadState) : Origin :=
  { threadId := t.threadId, ts := t.lastTs, cpu := t.lastCpu }

/-- The constructor of `FullThreadState`; `last_ts` and `last_cpu` are not initialised, and the
active buffer and the last event are not read before they are set. -/
def FullThreadState.new (env : Env) (threadId : UInt64) : FullThreadState where
  threadId := threadId
  prevSize := 0
  prevToken := 0
  mallocTokSeq := 0
  lastTs := env.newTs
  lastCpu := env.newCpu
  activeBuf := .zero
  lastEvent := .zero
  activeStream := none
  bufs := []
  dead := false
  signalled := false
  inPendingFrees := false

namespace SerializeState

def maybeSwitchThread (st : SerializeState) (t : FullThreadState) : SerializeState :=
  let st :=
    if t.threadId ≠ st.recvThreadId then
      { st with recvThreadId := t.threadId }.send (.switchThread t.threadId) (some t.origin)
    else st
  if t.lastTs ≠ st.recvTs ∨ t.lastCpu ≠ st.recvCpu then
    { st with recvTs := t.lastTs, recvCpu := t.lastCpu }.send (.setTS t.lastTs t.lastCpu)
      (some t.origin)
  else st

def addAllocated (env : Env) (st : SerializeState) (tok : UInt64) : SerializeState :=
  match st.pendingFrees.lookup tok with
  | none => st
  | some id =>
    let st := st.heapPush env id
    let st :=
      match st.threads id with
      | some t => st.setThread id { t with inPendingFrees := false }
      | none => st
    { st with pendingFrees := st.pendingFrees.filter fun entry => entry.1 ≠ tok }

/-! ### The record loop -/

/-- The `kEventBuf` case. -/
def bufArrives (ndebug : Bool) (env : Env) (mem : UInt64 → Option UInt8) (st : SerializeState)
    (ev : OuterEvent) : Except Abort SerializeState := do
  let thread := (st.threads ev.threadId).getD (.new env ev.threadId)
  check ndebug (!thread.dead) .bufThreadNotDead
  let wasEmpty := thread.bufs.isEmpty
  let thread := { thread with bufs := thread.bufs ++ [ev] }
  if wasEmpty then
    let thread := { thread with activeBuf := ev }
    check ndebug thread.activeStream.isNone .idleStreamNull
    let thread :=
      { thread with activeStream := some (constMemStream mem ev.bufStart ev.bufEnd) }
    let (ok, thread) ← thread.updateLastEvent env.stack mem
    let st := st.setThread ev.threadId thread
    return if ok then st.heapPush env ev.threadId else st
  else
    return st.setThread ev.threadId thread

/-- The `kEventDeath` case. -/
def deathArrives (ndebug : Bool) (st : SerializeState) (ev : OuterEvent) :
    Except Abort SerializeState :=
  match st.threads ev.threadId with
  | none => throw (.panic "needed thread to exist")
  | some thread => do
    check ndebug (!thread.dead) .deathThreadNotDead
    let st := st.setThread ev.threadId { thread with dead := true }
    return { st with toDie := st.toDie ++ [ev.threadId] }

/-! ### The drain loop -/

/-- What the `switch` of the drain loop leaves behind. -/
structure Handled where
  processed : Bool
  newTok : UInt64
  waitTok : UInt64
  state : SerializeState

/-- The event is passed to the receiver. -/
def deliver (st : SerializeState) (t : FullThreadState) : SerializeState :=
  (st.maybeSwitchThread t).send (.event t.lastEvent) (some t.origin)

/-- `receiver->HasAllocated(tok)`: the answer, and the state with the question asked. -/
def ask (env : Env) (st : SerializeState) (tok : UInt64) : Bool × SerializeState :=
  (env.hasAllocated st.calls tok, st.send (.hasAllocated tok) none)

/-- The `switch` over the last event of the thread (`wait_tok` is set for frees and reallocs
only). -/
def handle (env : Env) (st : SerializeState) (t : FullThreadState) : Handled :=
  match t.lastEvent with
  | .malloc token _ =>
    { processed := true, newTok := token, waitTok := kEmptyTok, state := st.deliver t }
  | .memalign token _ _ =>
    { processed := true, newTok := token, waitTok := kEmptyTok, state := st.deliver t }
  | .free token =>
    let (allocated, st) := st.ask env token
    if allocated then
      { processed := true, newTok := kEmptyTok, waitTok := token, state := st.deliver t }
    else { processed := false, newTok := kEmptyTok, waitTok := token, state := st }
  | .freeSized token =>
    let (allocated, st) := st.ask env token
    if allocated then
      { processed := true, newTok := kEmptyTok, waitTok := token, state := st.deliver t }
    else { processed := false, newTok := kEmptyTok, waitTok := token, state := st }
  | .realloc oldToken newToken _ =>
    let (allocated, st) := st.ask env oldToken
    if allocated then
      { processed := true, newTok := newToken, waitTok := oldToken, state := st.deliver t }
    else { processed := false, newTok := kEmptyTok, waitTok := oldToken, state := st }

/-- The drain loop after an event was processed: the thread's next event is decoded. -/
def afterProcessed (env : Env) (mem : UInt64 → Option UInt8) (st : SerializeState) (id : UInt64)
    (thread : FullThreadState) : Except Abort SerializeState := do
  let (ok, thread') ← thread.updateLastEvent env.stack mem
  if !ok then
    if thread'.dead then
      let st := st.send .killCurrentThread (some thread'.origin)
      return (st.setThread id { thread' with signalled := true }).heapPop env
    else return (st.setThread id thread').heapPop env
  else
    let st := st.setThread id thread'
    return if thread'.lastTs ≠ thread.lastTs then (st.heapPop env).heapPush env id else st

/-- The drain loop after an event was not processed: the thread goes to `pending_frees`. -/
def afterBlocked (ndebug : Bool) (env : Env) (st : SerializeState) (id : UInt64)
    (thread : FullThreadState) (waitTok : UInt64) : Except Abort SerializeState := do
  let st := (st.heapPop env).setThread id { thread with inPendingFrees := true }
  check ndebug ((st.pendingFrees.lookup waitTok).isNone) .pendingFreesFresh
  return if (st.pendingFrees.lookup waitTok).isNone then
      { st with pendingFrees := (waitTok, id) :: st.pendingFrees }
    else st

/-- One iteration of the drain loop, for the thread at the top of the heap. -/
def drainBody (ndebug : Bool) (env : Env) (mem : UInt64 → Option UInt8) (st : SerializeState)
    (id : UInt64) : Except Abort SerializeState :=
  match st.threads id with
  | none => .error .fault
  | some thread => do
    check ndebug thread.activeStream.isSome .topStreamLive
    check ndebug (!thread.bufs.isEmpty) .topBufsNonempty
    let h := st.handle env thread
    check ndebug (h.processed || decide (h.newTok = kEmptyTok)) .processedOrNoToken
    let st ←
      if h.processed then h.state.afterProcessed env mem id thread
      else h.state.afterBlocked ndebug env id thread h.waitTok
    return if h.newTok ≠ kEmptyTok then st.addAllocated env h.newTok else st

/-! ### The loop over `to_die` -/

/-- One iteration of the `to_die` loop: whether the thread is carried over to `next_to_die`. -/
def toDieBody (ndebug : Bool) (st : SerializeState) (id : UInt64) :
    Except Abort (Bool × SerializeState) :=
  match st.threads id with
  | none => .error .fault
  | some thread => do
    check ndebug thread.dead .dyingDead
    check ndebug thread.bufs.isEmpty .dyingBufsEmpty
    if thread.inPendingFrees then
      check ndebug (!thread.signalled) .dyingNotSignalled
      return (true, st)
    else
      let st :=
        if !thread.signalled then
          let st := st.send (.switchThread thread.threadId) (some thread.origin)
          let st := st.send .killCurrentThread (some thread.origin)
          { st with recvThreadId := kInvalidThreadID }
        else st
      check ndebug thread.bufs.isEmpty .dyingBufsEmpty
      check ndebug thread.activeStream.isNone .dyingStreamNull
      return (false, st.eraseThread id)

end SerializeState

end MallocTraceReplay
