import MallocTraceReplay.Serializer.Thread
import MallocTraceReplay.Lib.PriorityQueue

/-!
# The receiver of the serialized events

The serializer sees an `EventsReceiver` through the calls it makes and through the answers of
`HasAllocated`.  A receiver is therefore a function from the calls made so far to the answer;
questions are calls as well, so that the function may depend on them.
-/

namespace MallocTraceReplay

/-- The calls of the `EventsReceiver` interface; `event` stands for `Malloc`, `Memalign`, `Free`,
`FreeSized` and `Realloc` with the arguments of the event. -/
inductive Call
  | killCurrentThread
  | switchThread (threadId : UInt64)
  | setTS (ts cpu : UInt64)
  | event (ev : InnerEvent)
  | barrier
  | hasAllocated (tok : UInt64)
  deriving DecidableEq, Repr

/-- The thread a call is made for, and its `last_ts` and `last_cpu` at that moment. -/
structure Origin where
  threadId : UInt64
  ts : UInt64
  cpu : UInt64
  deriving DecidableEq, Repr

/-- A call that has been made.  Its origin is not seen by the receiver: it is kept to state what
the calls are about. -/
structure Sent where
  call : Call
  origin : Option Origin
  deriving DecidableEq, Repr

/-- What is outside of the program: the priority queue and the answers of the receiver, and the
contents of variables that are read before they are written. -/
structure Env where
  queue : PriorityQueue UInt64 ℕ
  hasAllocated : List Call → UInt64 → Bool
  stack : StackBytes
  newTs : UInt64
  newCpu : UInt64
  newEvent : OuterEvent

end MallocTraceReplay
