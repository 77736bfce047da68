import MallocTraceReplay.Replay.Replay
import MallocTraceReplay.Stream.Mapper
import MallocTraceReplay.Codec.AltVarint
import MallocTraceReplay.Lib.Buffer
import MallocTraceReplay.Lib.StepMachine

/-!
# The main loop of replay

Instructions are taken out of a buffer that `refill_buffer` fills from a file descriptor, one
instruction ahead of the one that is replayed.  Places in the buffer are offsets from its beginning;
an access outside it, an overlapping copy and a `read` of no bytes stop the model.
-/

namespace MallocTraceReplay.Replay

open AltVarintCodec StepMachine

/-! ### Instructions in memory -/

/-- `sizeof(Instruction)`. -/
def sizeofInstruction : ℕ := 24

/-- The type that a byte stands for, if it is one of them. -/
def typeOfByte? (byte : UInt64) : Option Instruction.Type_ :=
  [.MALLOC, .FREE, .FREE_SIZED, .MEMALIGN, .REALLOC, .SWITCH_THREAD, .KILL_THREAD,
    .SET_TS_CPU][byte.toNat]?

/-- The instruction in some bytes: eight for the type and the register, and two words. -/
def instructionOfBytes? (bytes : List UInt8) : Option Instruction :=
  let word := loadBytes (bytes.take 8)
  (typeOfByte? (word &&& 0xff)).map fun type =>
    { type := type
      reg := word >>> 8
      word0 := loadBytes ((bytes.drop 8).take 8)
      word1 := loadBytes ((bytes.drop 16).take 8) }

/-- Why the program stops. -/
inductive MainStop
  /-- `replay_instruction` stops. -/
  | replay (stop : Stop)
  /-- `replay_instruction` of no known type: `abort()`. -/
  | unknownType
  /-- There is no first instruction: `abort()`. -/
  | noInstruction
  /-- An access outside the buffer, or a copy of overlapping ranges. -/
  | outOfBounds
  /-- A `read` of length `0`. -/
  | emptyRead
  /-- The bound of the model on the calls of `read` is used up. -/
  | outOfFuel
  deriving DecidableEq, Repr

/-- `replay_instruction`, of the bytes of an instruction. -/
def replayBytes (a : Allocator) (s : State) (bytes : List UInt8) : Except MainStop State :=
  match instructionOfBytes? bytes with
  | none => .error .unknownType
  | some i =>
    match s.replayInstruction a i with
    | .error stop => .error (.replay stop)
    | .ok s => .ok s

/-! ### The buffer -/

/-- `sizeof(buffer)`. -/
def bufferSize : ℕ := 16 <<< 20

def kMinReadAmount : ℕ := 1024

def kMinBufSizeToRebase : ℕ := kMinReadAmount

structure Reader where
  buffer : ℕ → UInt8
  bufPtr : ℕ
  bufEnd : ℕ
  fd : InputFd

namespace Reader

/-- The buffer is zeroed and empty at the start. -/
def new (fd : InputFd) : Reader := { buffer := fun _ => 0, bufPtr := 0, bufEnd := 0, fd := fd }

/-- A range that has to be in the buffer. -/
def inBuffer (place amount : ℕ) : Except MainStop Unit :=
  if place + amount ≤ bufferSize then .ok () else .error .outOfBounds

/-- `memcpy(buffer, buf_ptr, amount)`; its ranges must not overlap. -/
def rebase (r : Reader) : Except MainStop Reader :=
  if r.bufEnd < r.bufPtr then .error .outOfBounds
  else
    let amount := r.bufEnd - r.bufPtr
    if r.bufPtr < amount then .error .outOfBounds
    else do
      inBuffer r.bufPtr amount
      return { r with
        buffer := Buffer.store r.buffer 0 (Buffer.slice r.buffer r.bufPtr amount)
        bufPtr := 0
        bufEnd := amount }

/-- The loop of `refill_buffer`; `continue` goes on to its condition. -/
def readLoop : ℕ → ℕ → Reader → Except MainStop Reader
  | 0, _, _ => .error .outOfFuel
  | fuel + 1, totalRead, r =>
    if bufferSize < r.bufEnd then .error .outOfBounds
    else if bufferSize - r.bufEnd = 0 then .error .emptyRead
    else
      let (got?, fd) := r.fd.read (bufferSize - r.bufEnd)
      let r := { r with fd := fd }
      match got? with
      | none => if totalRead < kMinReadAmount then readLoop fuel totalRead r else .ok r
      | some [] => .ok r
      | some (byte :: more) => do
        let got := byte :: more
        inBuffer r.bufEnd got.length
        let r := { r with
          buffer := Buffer.store r.buffer r.bufEnd got
          bufEnd := r.bufEnd + got.length }
        if totalRead + got.length < kMinReadAmount then readLoop fuel (totalRead + got.length) r
        else return r

def refillBuffer (fuel : ℕ) (r : Reader) : Except MainStop Reader := do
  let r ← if bufferSize - r.bufEnd < kMinBufSizeToRebase then r.rebase else .ok r
  readLoop fuel 0 r

/-- `buffer_read`: the bytes it copies, or `none` when there are not as many. -/
def bufferRead (fuel : ℕ) (r : Reader) (amount : ℕ) :
    Except MainStop (Option (List UInt8) × Reader) := do
  let r ← if r.bufPtr + amount > r.bufEnd then r.refillBuffer fuel else .ok r
  if r.bufPtr + amount > r.bufEnd then return (none, r)
  else
    inBuffer r.bufPtr amount
    return (some (Buffer.slice r.buffer r.bufPtr amount), { r with bufPtr := r.bufPtr + amount })

end Reader

/-! ### `main` -/

/-- The variables of `main`, and the instructions replayed so far. -/
structure Main where
  reader : Reader
  nextInstr : List UInt8
  instr : List UInt8
  totalInstructions : ℕ
  state : State
  replayed : List (List UInt8)
  returned : Bool

namespace Main

/-- An instruction is replayed. -/
def replay (a : Allocator) (m : Main) (bytes : List UInt8) : Except MainStop Main := do
  let state ← replayBytes a m.state bytes
  return { m with
    state := state
    totalInstructions := m.totalInstructions + 1
    replayed := m.replayed ++ [bytes] }

/-- `main` up to its loop: the first instruction is read. -/
def start (fuel : ℕ) (fd : InputFd) : Except MainStop Main := do
  let (bytes?, reader) ← (Reader.new fd).bufferRead fuel sizeofInstruction
  match bytes? with
  | none => throw .noInstruction
  | some bytes =>
    return {
      reader := reader
      nextInstr := bytes
      instr := List.replicate sizeofInstruction 0
      totalInstructions := 0
      state := .init
      replayed := []
      returned := false }

/-- One iteration of the loop; what comes after the loop is done with the last one. -/
def step (fuel : ℕ) (a : Allocator) (m : Main) : Except MainStop Main :=
  if m.returned then .ok m
  else do
    let m := { m with instr := m.nextInstr }
    let (bytes?, reader) ← m.reader.bufferRead fuel sizeofInstruction
    let m := { m with reader := reader }
    match bytes? with
    | none => replay a { m with returned := true } m.nextInstr
    | some bytes => replay a { m with nextInstr := bytes } m.instr

/-- `main` after `n` iterations. -/
def run (fuel : ℕ) (a : Allocator) (fd : InputFd) (n : ℕ) : Except MainStop Main :=
  start fuel fd >>= iterate (step fuel a) n

end Main

end MallocTraceReplay.Replay
