import MallocTraceReplay.Serializer.State
import MallocTraceReplay.Lib.StepMachine

/-!
# `SerializeMallocEvents`

The function is cut at its loop heads: a step is one iteration of the record loop, of the drain
loop or of the loop over `to_die`.  `serialize` runs it for a number of steps; the call has
returned when the location is `returned`.
-/

namespace MallocTraceReplay

open MallocTraceEncoder StepMachine

/-! ### Reading the trace -/

/-- What the record loop gets: a record, or the end of a batch (a barrier, the end record, or no
more records). -/
inductive Item
  | record (ev : OuterEvent)
  | batchEnd
  deriving DecidableEq, Repr

/-- The local variables that the reading of the trace works on, and the items read so far. -/
structure Input (M : Type) where
  s : MemStream M
  lastBarriers : Fin 2 → UInt64
  lastBarriersIndex : Fin 2
  seenEnd : Bool
  ev : OuterEvent
  read : List Item

namespace Input

variable {M : Type} [Mapper M]

/-- After the record loop.  The next batch has a new, uninitialised `ev`. -/
def finishBatch (ndebug : Bool) (env : Env) (i : Input M) : Except Abort (Input M) :=
  if i.ev.type = .end_ then
    .ok { i with seenEnd := true, ev := env.newEvent, read := i.read ++ [.batchEnd] }
  else do
    let index := i.lastBarriersIndex + 1
    let prevPtr := i.lastBarriers index
    let s ← i.s.unrealizeUpTo ndebug prevPtr
    return { i with
      s := s
      lastBarriers := fun j => if j = index then s.ptr else i.lastBarriers j
      lastBarriersIndex := index
      ev := env.newEvent
      read := i.read ++ [.batchEnd] }

/-- The place two barriers ago, `prev_ptr`. -/
def prevBarrier (i : Input M) : UInt64 := i.lastBarriers (i.lastBarriersIndex + 1)

/-- One iteration of the record loop up to the handling of the record. -/
def advance (ndebug : Bool) (env : Env) (i : Input M) : Except Abort (Item × Input M) := do
  let (ok, ev, s) ← i.s.next env.stack i.ev
  let i := { i with s := s, ev := ev }
  if !ok then
    let i ← { i with seenEnd := true }.finishBatch ndebug env
    return (.batchEnd, i)
  else if ev.type = .end_ ∨ ev.type = .syncBarrier then
    let i ← i.finishBatch ndebug env
    return (.batchEnd, i)
  else
    return (.record ev, { i with read := i.read ++ [.record ev] })

/-- The memory that the buffers are read from. -/
def mem (i : Input M) : UInt64 → Option UInt8 := Mapper.load i.s.mapper

/-- Reading on its own, without the serialization; nothing is read after the end. -/
def step (ndebug : Bool) (env : Env) (i : Input M) : Except Abort (Input M) :=
  if i.seenEnd then .ok i else (·.2) <$> i.advance ndebug env

/-- The input after the magic word, which is checked. -/
def open_ (env : Env) (mapper : M) : Except Abort (Input M) := do
  let s := MemStream.new mapper
  let (magicPtr, s) ← s.advanceBy 4
  match (List.range 4).mapM fun i => Mapper.load s.mapper (magicPtr + UInt64.ofNat i) with
  | none => throw .fault
  | some bytes =>
    if AltVarintCodec.loadBytes bytes ≠ kMagic.toUInt64 then
      throw (.panic "magic header is missing")
    else
      return {
        s := s
        lastBarriers := fun _ => Mapper.getBegin s.mapper
        lastBarriersIndex := 0
        seenEnd := false
        ev := env.newEvent
        read := [] }

/-- A place in the reading of the trace, whatever is done with the records. -/
def Reached (env : Env) (mapper : M) (i : Input M) : Prop :=
  ∃ n, (open_ env mapper >>= iterate (step false env) n) = .ok i

end Input

/-! ### The whole function -/

/-- Where the function stands: at the head of the record loop, of the drain loop, or of the loop
over `to_die` with the threads still to be looked at and those in `next_to_die`; or it has
returned. -/
inductive Loc
  | records
  | drain
  | toDie (todo nextToDie : List UInt64)
  | returned
  deriving DecidableEq, Repr

structure Machine (M : Type) where
  loc : Loc
  input : Input M
  state : SerializeState

namespace Machine

variable {M : Type} [Mapper M]

/-- One iteration of the record loop. -/
def stepRecords (ndebug : Bool) (env : Env) (m : Machine M) : Except Abort (Machine M) := do
  let (item, input) ← m.input.advance ndebug env
  match item with
  | .batchEnd => return { m with loc := .drain, input := input }
  | .record ev =>
    match ev.type with
    | .buf =>
      let state ← m.state.bufArrives ndebug env input.mem ev
      return { m with input := input, state := state }
    | .death =>
      let state ← m.state.deathArrives ndebug ev
      return { m with input := input, state := state }
    | _ => throw (.panic "unknown type")

/-- One iteration of the drain loop. -/
def stepDrain (ndebug : Bool) (env : Env) (m : Machine M) : Except Abort (Machine M) :=
  match m.state.heap with
  | [] => .ok { m with loc := .toDie m.state.toDie [] }
  | id :: _ => do
    let state ← m.state.drainBody ndebug env m.input.mem id
    return { m with state := state }

/-- One iteration of the loop over `to_die`, or what comes after it. -/
def stepToDie (ndebug : Bool) (m : Machine M) (todo nextToDie : List UInt64) :
    Except Abort (Machine M) :=
  match todo with
  | id :: todo => do
    let (carried, state) ← m.state.toDieBody ndebug id
    return { m with
      loc := .toDie todo (if carried then nextToDie ++ [id] else nextToDie), state := state }
  | [] =>
    .ok { m with
      loc := if m.input.seenEnd then .returned else .records
      state := { m.state with toDie := nextToDie }.send .barrier none }

def step (ndebug : Bool) (env : Env) (m : Machine M) : Except Abort (Machine M) :=
  match m.loc with
  | .records => m.stepRecords ndebug env
  | .drain => m.stepDrain ndebug env
  | .toDie todo nextToDie => m.stepToDie ndebug todo nextToDie
  | .returned => .ok m

/-- The state at the head of the outermost loop. -/
def start (env : Env) (mapper : M) : Except Abort (Machine M) := do
  let input ← Input.open_ env mapper
  return { loc := .records, input := input, state := .init }

end Machine

/-- `SerializeMallocEvents` after `n` iterations. -/
def serialize {M : Type} [Mapper M] (ndebug : Bool) (env : Env) (mapper : M) (n : ℕ) :
    Except Abort (Machine M) :=
  Machine.start env mapper >>= iterate (Machine.step ndebug env) n

/-- A state that the serializer reaches on a trace. -/
def Machine.Reached {M : Type} [Mapper M] (ndebug : Bool) (env : Env) (mapper : M)
    (m : Machine M) : Prop :=
  ∃ n, serialize ndebug env mapper n = .ok m

end MallocTraceReplay
